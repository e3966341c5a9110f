/-
Sign extension: SIGN_EXTEND_INREG and the sign-extending load, and the selection
of extending loads they share with zero extension.

The machine takes the index of the sign byte from the top of the stack and the
value below it. The selected SIGNEXTEND_r has the value as its first operand and
the width in bytes taken from 32 as its second, so it extends that small number
and returns it unchanged, whatever the value is.
-/

import EvmBackend.ISel

namespace EvmBackend.ISel

open EVM ByteMemory

def LowerSIGN_EXTEND (bits : Nat) : Nat :=
  let Width := bits / 8
  32 - Width

def SelectSIGNEXTEND (reg : MachineNode) (shiftuint : Nat) : MachineNode :=
  let shift := .push (BitVec.ofNat 256 shiftuint)
  .binary .SIGNEXTEND reg shift

inductive LoadExtType
  | NON_EXTLOAD | EXTLOAD | SEXTLOAD | ZEXTLOAD
  deriving DecidableEq, Repr

/-- `1 << amount` as an int of 32 bits, made a 64-bit number. From 31 on the shift
is not defined and the compiled selector has some value. -/
def oneShl (undefinedShift : Nat → BitVec 64) (amount : Nat) : BitVec 64 :=
  if amount < 31 then 1 <<< amount else undefinedShift amount

/-- The loads that are selected by hand; the others are left to the patterns. -/
def SelectLOAD (undefinedShift : Nat → BitVec 64) (extension : LoadExtType) (Src : MachineNode)
    (bits : Nat) : Option MachineNode :=
  match extension with
  | .SEXTLOAD =>
      let bytesToShift := 32 - bits / 8
      let shift := .push (BitVec.ofNat 256 bytesToShift)
      let mload := .unary .MLOAD Src
      some (.binary .SIGNEXTEND mload shift)
  | .ZEXTLOAD =>
      let bytesToFill := 256 - bits
      let push_mul := .push ((oneShl undefinedShift bytesToFill).setWidth 256)
      let mload := .unary .MLOAD Src
      let mul := .binary .MUL mload push_mul
      some (.binary .DIV mul push_mul)
  | .NON_EXTLOAD => none
  | .EXTLOAD => none

def signExtension (bits value : Nat) : Word := (BitVec.ofNat bits value).signExtend 256

def ExtendsInReg (bits : Nat) (value : Word) (memory : Memory) : Prop :=
  (SelectSIGNEXTEND (.src 1) (LowerSIGN_EXTEND bits)).value (fun _ => value) memory =
    some (signExtension bits value.toNat)

/-- The code selected for the load extends the number stored at the address, which
is big-endian as the data layout has it. -/
def ExtendsLoaded (undefinedShift : Nat → BitVec 64) (bits : Nat) (address : Word)
    (memory : Memory) : Prop :=
  (SelectLOAD undefinedShift .SEXTLOAD (.src 1) bits).bind
      (fun node => node.value (fun _ => address) memory) =
    some (signExtension bits (loadBytes memory address.toNat (bits / 8)))

theorem signextend_small (index : Word) {small : Nat} (below : small < 128) :
    signextend index (BitVec.ofNat 256 small) = BitVec.ofNat 256 small := by
  have least : 2 ^ 7 ≤ 2 ^ (8 * index.toNat + 7) := Nat.pow_le_pow_right (by omega) (by omega)
  apply signextend_of_lt
  rw [BitVec.toNat_ofNat, Nat.mod_eq_of_lt (by omega)]
  omega

theorem ofNat_eq_signExtension_iff {bits small value : Nat} (low : 8 ≤ bits) (high : bits ≤ 256)
    (below : small < 128) :
    BitVec.ofNat 256 small = signExtension bits value ↔ value % 2 ^ bits = small := by
  have power : 2 ^ 8 ≤ 2 ^ bits := Nat.pow_le_pow_right (by omega) low
  have remainder : value % 2 ^ bits < 2 ^ bits := Nat.mod_lt _ (Nat.two_pow_pos bits)
  rw [← BitVec.toInt_inj, signExtension, BitVec.toInt_signExtend_of_le high,
    BitVec.toInt_eq_toNat_cond, BitVec.toInt_eq_toNat_cond, BitVec.toNat_ofNat, BitVec.toNat_ofNat,
    Nat.mod_eq_of_lt (show small < 2 ^ 256 by omega), if_pos (by omega)]
  split <;> omega

section Selected

variable {bits : Nat} (low : 8 ≤ bits) (high : bits ≤ 248)

include low high in
/-- Both selections return the constant, so they are right exactly where the extended
number is that constant. -/
theorem signExtension_iff (whole : 8 ∣ bits) :
    (∀ value memory, ExtendsInReg bits value memory ↔ value.toNat % 2 ^ bits = 32 - bits / 8) ∧
      ∀ undefinedShift address memory, ExtendsLoaded undefinedShift bits address memory ↔
        loadBytes memory address.toNat (bits / 8) = 32 - bits / 8 := by
  have below : 32 - bits / 8 < 128 := by omega
  constructor
  · intro value memory
    have returned : (SelectSIGNEXTEND (.src 1) (LowerSIGN_EXTEND bits)).value (fun _ => value)
        memory = some (signextend value (BitVec.ofNat 256 (32 - bits / 8))) := rfl
    rw [ExtendsInReg, returned, signextend_small value below, Option.some.injEq]
    exact ofNat_eq_signExtension_iff low (by omega) below
  · intro undefinedShift address memory
    have returned : (SelectLOAD undefinedShift .SEXTLOAD (.src 1) bits).bind
        (fun node => node.value (fun _ => address) memory) =
          some (signextend (loadWord memory address) (BitVec.ofNat 256 (32 - bits / 8))) := rfl
    have stored := loadBytes_lt memory address.toNat (bits / 8)
    have width : 256 ^ (bits / 8) = 2 ^ bits := by
      rw [show (256 : Nat) = 2 ^ 8 from rfl, ← pow_mul, Nat.mul_div_cancel' whole]
    rw [width] at stored
    rw [ExtendsLoaded, returned, signextend_small _ below, Option.some.injEq,
      ofNat_eq_signExtension_iff low (by omega) below, Nat.mod_eq_of_lt stored]

end Selected

/-- Of the bytes only 31 is extended right. -/
theorem thirtyOne_extended : ExtendsInReg 8 31 (fun _ => 0) :=
  ((signExtension_iff (by decide) (by decide) (by decide)).1 31 (fun _ => 0)).mpr (by decide)

/-- The byte 0xff is extended to 31 and not to -1, in a register as in memory. -/
theorem minusOne_not_extended :
    ¬ ExtendsInReg 8 0xff (fun _ => 0) ∧ ¬ ExtendsLoaded (fun _ => 0) 8 0 (fun _ => 0xff) := by
  unfold ExtendsInReg ExtendsLoaded
  decide

end EvmBackend.ISel
