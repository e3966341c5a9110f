/-
LEB128 numbers: groups of seven bits, the lowest first, every byte but the last
with its highest bit set.

The encoders put one byte after the other into a sink, which is a stream or a
buffer, and may be asked for more bytes than the value needs. The decoders read
the bytes from a place on, up to an end if one is given. They stop for good
where the code would read outside those bytes or shift a word by its width.
-/

import Mathlib.Logic.Function.Basic
import Mathlib.Data.Nat.Notation
import Mathlib.Tactic.Ring

namespace EvmBackend.LEB128

abbrev Byte := BitVec 8

abbrev Word := BitVec 64

/-- How the groups of a value follow each other, with a bound on how long they do. -/
structure Grouping where
  shift : Word → Word
  more : Word → Byte → Bool
  padValue : Word → Byte
  left : Word → Nat
  decreasing : ∀ value, more (shift value) ((value &&& 0x7f#64).setWidth 8) = true →
    left (shift value) < left value

section Encoders

variable {Sink : Type} (grouping : Grouping) (put : Sink → Byte → Sink)

def encodeLoop (padTo : Nat) (value : Word) (count : Nat) (sink : Sink) : Sink × Nat × Word :=
  let byte : Byte := (value &&& 0x7f#64).setWidth 8
  let rest := grouping.shift value
  let more := grouping.more rest byte
  let written := put sink (if more || count + 1 < padTo then byte ||| 0x80#8 else byte)
  if more then encodeLoop padTo rest (count + 1) written else (written, count + 1, rest)
termination_by grouping.left value
decreasing_by exact grouping.decreasing value ‹_›

def putPadding (padValue : Byte) : Nat → Sink → Sink
  | 0, sink => sink
  | turns + 1, sink => putPadding padValue turns (put sink (padValue ||| 0x80#8))

def encode (value : Word) (padTo : Nat) (sink : Sink) : Sink × Nat :=
  let (written, count, rest) := encodeLoop grouping put padTo value 0 sink
  if count < padTo then
    let padValue := grouping.padValue rest
    (put (putPadding put padValue (padTo - 1 - count) written) padValue, padTo)
  else (written, count)

end Encoders

def ulebGrouping : Grouping where
  shift value := value >>> 7
  more rest _ := rest != 0#64
  padValue _ := 0x00#8
  left value := value.toNat
  decreasing value more := by
    have rest : (value >>> 7).toNat = value.toNat / 128 := by
      rw [BitVec.toNat_ushiftRight, Nat.shiftRight_eq_div_pow]
    have positive : (value >>> 7).toNat ≠ 0 := fun zero => bne_iff_ne.mp more (BitVec.eq_of_toNat_eq zero)
    omega

/-- How far the value is from the two that shift to themselves. -/
def magnitude (value : Word) : Nat := if 0 ≤ value.toInt then value.toInt.toNat else (-1 - value.toInt).toNat

theorem toInt_sshiftRight (value : Word) : (value.sshiftRight 7).toInt = value.toInt / 128 := by
  rw [BitVec.toInt_sshiftRight, Int.shiftRight_eq_div_pow]
  rfl

def slebGrouping : Grouping where
  shift value := value.sshiftRight 7
  more rest byte := !((rest == 0#64 && byte &&& 0x40#8 == 0#8) || (rest == -1#64 && byte &&& 0x40#8 != 0#8))
  padValue rest := if rest.slt 0#64 then 0x7f#8 else 0x00#8
  left := magnitude
  decreasing value more := by
    have rest := toInt_sshiftRight value
    have zero : value.toInt ≠ 0 := by
      intro zero
      have same : value = 0#64 := BitVec.eq_of_toInt_eq zero
      subst same
      exact Bool.false_ne_true more
    have ones : value.toInt ≠ -1 := by
      intro ones
      have same : value = -1#64 := BitVec.eq_of_toInt_eq ones
      subst same
      exact Bool.false_ne_true more
    change magnitude (value.sshiftRight 7) < magnitude value
    unfold magnitude
    rw [rest]
    split <;> split <;> omega

structure Buffer where
  memory : Nat → Byte
  p : Nat

def Buffer.put (buffer : Buffer) (byte : Byte) : Buffer :=
  ⟨Function.update buffer.memory buffer.p byte, buffer.p + 1⟩

def encodeToStream (grouping : Grouping) (value : Word) (stream : List Byte) (padTo : Nat) : List Byte × Nat :=
  encode grouping (fun out byte => out ++ [byte]) value padTo stream

def encodeToBuffer (grouping : Grouping) (value : Word) (buffer : Buffer) (padTo : Nat) : Buffer × Nat :=
  let (written, _) := encode grouping Buffer.put value padTo buffer
  (written, (written.p - buffer.p) % 2 ^ 32)

def encodeULEB128 := encodeToStream ulebGrouping

def encodeULEB128ToBuffer := encodeToBuffer ulebGrouping

def encodeSLEB128 := encodeToStream slebGrouping

def encodeSLEB128ToBuffer := encodeToBuffer slebGrouping

/-! ### Sizes -/

def getULEB128SizeLoop (value : Word) (size : Nat) : Nat :=
  let rest := value >>> 7
  if rest ≠ 0 then getULEB128SizeLoop rest (size + 1) else size + 1
termination_by value.toNat
decreasing_by exact ulebGrouping.decreasing value (bne_iff_ne.mpr ‹_›)

def getULEB128Size (value : Word) : Nat := getULEB128SizeLoop value 0

def signOf (value : Word) : BitVec 32 := (value.sshiftRight 63).setWidth 32

theorem signOf_eq (value : Word) : signOf value = if value.toInt < 0 then -1#32 else 0#32 := by
  have sign : (value.sshiftRight 63).toInt = if value.toInt < 0 then -1 else 0 := by
    have low := value.le_toInt
    have high := value.toInt_lt
    rw [BitVec.toInt_sshiftRight, Int.shiftRight_eq_div_pow]
    split <;> omega
  by_cases negative : value.toInt < 0
  · rw [if_pos negative] at sign ⊢
    have ones : value.sshiftRight 63 = -1#64 := BitVec.eq_of_toInt_eq sign
    unfold signOf
    rw [ones]
    rfl
  · rw [if_neg negative] at sign ⊢
    have zeros : value.sshiftRight 63 = 0#64 := BitVec.eq_of_toInt_eq sign
    unfold signOf
    rw [zeros]
    rfl

theorem signOf_sshiftRight (value : Word) : signOf (value.sshiftRight 7) = signOf value := by
  rw [signOf_eq, signOf_eq, toInt_sshiftRight]
  by_cases negative : value.toInt < 0
  · rw [if_pos negative, if_pos (by omega)]
  · rw [if_neg negative, if_neg (by omega)]

def isMore (sign : BitVec 32) (value : Word) : Bool :=
  let byte : BitVec 32 := (value &&& 0x7f#64).setWidth 32
  value.sshiftRight 7 != sign.signExtend 64 || (byte ^^^ sign) &&& 0x40#32 != 0#32

theorem and_signBit {width : Nat} (word : BitVec width) (wide : 6 < width) :
    (word &&& BitVec.twoPow width 6 != BitVec.ofNat width 0) = word.getLsbD 6 := by
  rw [BitVec.and_twoPow]
  cases word.getLsbD 6 with
  | false => simp
  | true =>
      have set : BitVec.twoPow width 6 ≠ BitVec.ofNat width 0 := by
        intro zero
        have bit := congrArg (fun word => word.getLsbD 6) zero
        simp [wide] at bit
      simpa using set

theorem signBit_group (value : Word) :
    (((value &&& 0x7f#64).setWidth 8 : Byte) &&& 0x40#8 != 0#8) = value.getLsbD 6 := by
  have bit := and_signBit ((value &&& 0x7f#64).setWidth 8 : Byte) (by decide)
  change (_ &&& 0x40#8 != 0#8) = _ at bit
  rw [bit]
  simp

theorem isMore_signOf (value : Word) :
    isMore (signOf value) value =
      slebGrouping.more (value.sshiftRight 7) ((value &&& 0x7f#64).setWidth 8) := by
  have bit := and_signBit ((value &&& 0x7f#64).setWidth 32 ^^^ signOf value) (by decide)
  change (_ &&& 0x40#32 != 0#32) = _ at bit
  have group := signBit_group value
  have clear : (((value &&& 0x7f#64).setWidth 8 : Byte) &&& 0x40#8 == 0#8) = !value.getLsbD 6 := by
    rw [← group, bne, Bool.not_not]
  have low : ((value &&& 0x7f#64).setWidth 32).getLsbD 6 = value.getLsbD 6 := by simp
  have rest := toInt_sshiftRight value
  unfold isMore slebGrouping
  dsimp only
  rw [bit, group, clear, BitVec.getLsbD_xor, low, signOf_eq]
  by_cases negative : value.toInt < 0
  · have differs : value.sshiftRight 7 ≠ 0#64 := by
      intro zero
      rw [zero, BitVec.toInt_zero] at rest
      omega
    have ones : (-1#32).signExtend 64 = -1#64 := rfl
    have set : (-1#32).getLsbD 6 = true := rfl
    rw [if_pos negative, ones, set, beq_eq_false_iff_ne.mpr differs, bne]
    cases value.sshiftRight 7 == -1#64 <;> cases value.getLsbD 6 <;> rfl
  · have differs : value.sshiftRight 7 ≠ -1#64 := by
      intro ones
      have minus : (-1#64).toInt = -1 := rfl
      rw [ones, minus] at rest
      omega
    have zeros : (0#32).signExtend 64 = 0#64 := rfl
    have unset : (0#32).getLsbD 6 = false := rfl
    rw [if_neg negative, zeros, unset, beq_eq_false_iff_ne.mpr differs, bne]
    cases value.sshiftRight 7 == 0#64 <;> cases value.getLsbD 6 <;> rfl

def getSLEB128SizeLoop (sign : BitVec 32) (value : Word) (size : Nat) (same : sign = signOf value) : Nat :=
  if isMore sign value then
    getSLEB128SizeLoop sign (value.sshiftRight 7) (size + 1) (same.trans (signOf_sshiftRight value).symm)
  else size + 1
termination_by magnitude value
decreasing_by
  subst same
  rename_i more
  rw [isMore_signOf] at more
  exact slebGrouping.decreasing value more

def getSLEB128Size (value : Word) : Nat := getSLEB128SizeLoop (signOf value) value 0 rfl

structure Decoded where
  value : Word
  n : Nat
  error : Option String
  deriving DecidableEq, Repr

def shiftLeft (value : Word) (shift : Nat) : Option Word := if shift < 64 then some (value <<< shift) else none

def shiftRight (value : Word) (shift : Nat) : Option Word := if shift < 64 then some (value >>> shift) else none

def distance (read : Nat) : Nat := read % 2 ^ 32

def decodeULEB128Loop (finish : Option Nat) (shift read : Nat) (value : Word) : List Byte → Option Decoded
  | [] =>
      if finish = some read then some ⟨0, distance read, some "malformed uleb128, extends past end"⟩ else none
  | byte :: bytes =>
      if finish = some read then some ⟨0, distance read, some "malformed uleb128, extends past end"⟩
      else do
        let slice : Word := (byte &&& 0x7f#8).setWidth 64
        let tooBig ← if 64 ≤ shift then some true else do
          let moved ← shiftLeft slice shift
          let back ← shiftRight moved shift
          some (back != slice)
        if tooBig then some ⟨0, distance read, some "uleb128 too big for uint64"⟩
        else do
          let moved ← shiftLeft slice shift
          let next := value + moved
          if 128 ≤ byte.toNat then decodeULEB128Loop finish (shift + 7) (read + 1) next bytes
          else some ⟨next, distance (read + 1), none⟩

def decodeULEB128 (bytes : List Byte) (finish : Option Nat) : Option Decoded :=
  decodeULEB128Loop finish 0 0 0 bytes

def decodeSLEB128Loop (finish : Option Nat) (shift read : Nat) (value : Word) : List Byte → Option Decoded
  | [] =>
      if finish = some read then some ⟨0, distance read, some "malformed sleb128, extends past end"⟩ else none
  | byte :: bytes =>
      if finish = some read then some ⟨0, distance read, some "malformed sleb128, extends past end"⟩
      else do
        let moved ← shiftLeft ((byte &&& 0x7f#8).setWidth 64) shift
        let next := value ||| moved
        if 128 ≤ byte.toNat then decodeSLEB128Loop finish (shift + 7) (read + 1) next bytes
        else if shift + 7 < 64 ∧ byte &&& 0x40#8 ≠ 0#8 then do
          let ones ← shiftLeft (-1#64) (shift + 7)
          some ⟨next ||| ones, distance (read + 1), none⟩
        else some ⟨next, distance (read + 1), none⟩

def decodeSLEB128 (bytes : List Byte) (finish : Option Nat) : Option Decoded :=
  decodeSLEB128Loop finish 0 0 0 bytes

end EvmBackend.LEB128
