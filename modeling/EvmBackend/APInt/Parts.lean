/-
Numbers of any length in consecutive parts: multiplication row by row, division
one bit at a time, and the shifts, copies and comparisons under them.

A pointer is an address in one memory, so operands that share parts are covered.
The number of parts and the bit numbers are unsigned. A failed assertion, and the
read in front of an empty number, is none.
-/

import EvmBackend.APInt.Division
import EvmBackend.Library.WordMemory

namespace EvmBackend.APInt.Parts

open WordMemory

abbrev WordType := BitVec 64

def lowBitMask (bits : Nat) : WordType := BitVec.allOnes 64 >>> (64 - bits)

def lowHalf (part : WordType) : WordType := part &&& lowBitMask (64 / 2)

def highHalf (part : WordType) : WordType := part >>> (64 / 2)

def partMSB (value : WordType) : Nat := countLeadingZeros value ^^^ 63

def tcSet (dst : Nat) (part : WordType) (parts : Nat) (memory : Memory 64) : Option (Memory 64) := do
  guard (0 < parts)
  some (forEach (fun i => dst + (i + 1)) (fun _ _ => 0) (parts - 1) (Function.update memory dst part))

def tcAssign (dst src parts : Nat) (memory : Memory 64) : Memory 64 :=
  forEach (fun i => dst + i) (fun i memory => memory (src + i)) parts memory

def tcMSB (memory : Memory 64) (parts : Nat) : Nat → Option Nat
  | 0 => none
  | n + 1 =>
      if memory (parts + n) != 0 then some (u32 (partMSB (memory (parts + n)) + n * 64))
      else if n = 0 then some (2 ^ 32 - 1)
      else tcMSB memory parts n

def tcCompare (memory : Memory 64) (lhs rhs : Nat) : Nat → Int
  | 0 => 0
  | parts + 1 =>
      if memory (lhs + parts) != memory (rhs + parts) then
        if memory (rhs + parts) < memory (lhs + parts) then 1 else -1
      else tcCompare memory lhs rhs parts

def subtractRound (dst rhs : Nat) (state : Memory 64 × Bool) (i : Nat) : Memory 64 × Bool :=
  let l := state.1 (dst + i)
  if state.2 then
    let difference := l - (state.1 (rhs + i) + 1)
    (Function.update state.1 (dst + i) difference, decide (l ≤ difference))
  else
    let difference := l - state.1 (rhs + i)
    (Function.update state.1 (dst + i) difference, decide (l < difference))

def tcSubtract (dst rhs : Nat) (c : Bool) (parts : Nat) (memory : Memory 64) : Memory 64 × Bool :=
  (List.range parts).foldl (subtractRound dst rhs) (memory, c)

def memmove (dst src parts : Nat) (memory : Memory 64) : Memory 64 := fun address =>
  if dst ≤ address ∧ address < dst + parts then memory (src + (address - dst)) else memory address

def clear (dst parts : Nat) (memory : Memory 64) : Memory 64 := fun address =>
  if dst ≤ address ∧ address < dst + parts then 0 else memory address

/-- The part a left shift puts at an index that is not below the word shift. -/
def shiftedLeft (dst wordShift bitShift index : Nat) (memory : Memory 64) : WordType :=
  let shifted := memory (dst + (index - wordShift)) <<< bitShift
  if wordShift < index then shifted ||| (memory (dst + (index - wordShift - 1)) >>> (64 - bitShift)) else shifted

def tcShiftLeft (dst words count : Nat) (memory : Memory 64) : Memory 64 :=
  if count = 0 then memory
  else
    let wordShift := min (count / 64) words
    let bitShift := count % 64
    clear dst wordShift
      (if bitShift = 0 then memmove (dst + wordShift) dst (words - wordShift) memory
      else forEach (fun i => dst + (words - 1 - i)) (fun i => shiftedLeft dst wordShift bitShift (words - 1 - i))
        (words - wordShift) memory)

def shiftedRight (dst wordShift bitShift wordsToMove i : Nat) (memory : Memory 64) : WordType :=
  let shifted := memory (dst + (i + wordShift)) >>> bitShift
  if i + 1 ≠ wordsToMove then shifted ||| (memory (dst + (i + wordShift + 1)) <<< (64 - bitShift)) else shifted

def tcShiftRight (dst words count : Nat) (memory : Memory 64) : Memory 64 :=
  if count = 0 then memory
  else
    let wordShift := min (count / 64) words
    let bitShift := count % 64
    let wordsToMove := words - wordShift
    clear (dst + wordsToMove) wordShift
      (if bitShift = 0 then memmove dst (dst + wordShift) wordsToMove memory
      else forEach (fun i => dst + i) (shiftedRight dst wordShift bitShift wordsToMove) wordsToMove memory)

def addTo (low high addend : WordType) : WordType × WordType :=
  (low + addend, if low + addend < low then high + 1 else high)

/-- The low and the high part of a part times the multiplier plus the carry. -/
def partProduct (srcPart multiplier carry : WordType) : WordType × WordType :=
  if multiplier == 0 || srcPart == 0 then (carry, 0)
  else
    let low := lowHalf srcPart * lowHalf multiplier
    let high := highHalf srcPart * highHalf multiplier
    let mid := lowHalf srcPart * highHalf multiplier
    let (low, high) := addTo low (high + highHalf mid) (mid <<< (64 / 2))
    let mid := highHalf srcPart * lowHalf multiplier
    let (low, high) := addTo low (high + highHalf mid) (mid <<< (64 / 2))
    addTo low high carry

def multiplyRound (dst src : Nat) (multiplier : WordType) (add : Bool) (state : Memory 64 × WordType) (i : Nat) :
    Memory 64 × WordType :=
  let (low, high) := partProduct (state.1 (src + i)) multiplier state.2
  let (low, high) := if add then addTo low high (state.1 (dst + i)) else (low, high)
  (Function.update state.1 (dst + i) low, high)

def tcMultiplyPart (dst src : Nat) (multiplier carry : WordType) (srcParts dstParts : Nat) (add : Bool)
    (memory : Memory 64) : Option (Memory 64 × Bool) := do
  guard (dst ≤ src ∨ src + srcParts ≤ dst)
  guard (dstParts ≤ u32 (srcParts + 1))
  let n := min dstParts srcParts
  let (memory, carry) := (List.range n).foldl (multiplyRound dst src multiplier add) (memory, carry)
  if srcParts < dstParts then do
    guard (u32 (srcParts + 1) = dstParts)
    some (Function.update memory (dst + srcParts) carry, false)
  else if carry != 0 then some (memory, true)
  else
    some (memory, multiplier != 0 &&
      (List.range' dstParts (srcParts - dstParts)).any fun i => memory (src + i) != 0)

def multiplyRow (dst lhs rhs parts : Nat) (state : Memory 64 × Bool) (i : Nat) : Option (Memory 64 × Bool) := do
  let (memory, row) ← tcMultiplyPart (dst + i) lhs (state.1 (rhs + i)) 0 parts (parts - i) true state.1
  some (memory, state.2 || row)

def tcMultiply (dst lhs rhs parts : Nat) (memory : Memory 64) : Option (Memory 64 × Bool) := do
  guard (dst ≠ lhs ∧ dst ≠ rhs)
  let memory ← tcSet dst 0 parts memory
  (List.range parts).foldlM (multiplyRow dst lhs rhs parts) (memory, false)

def fullMultiplyRow (dst lhs rhs rhsParts : Nat) (memory : Memory 64) (i : Nat) : Option (Memory 64) := do
  let (memory, _) ← tcMultiplyPart (dst + i) rhs (memory (lhs + i)) 0 rhsParts (u32 (rhsParts + 1)) true memory
  some memory

def fullMultiplyRows (dst lhs rhs lhsParts rhsParts : Nat) (memory : Memory 64) : Option (Memory 64) := do
  guard (dst ≠ lhs ∧ dst ≠ rhs)
  let memory ← tcSet dst 0 rhsParts memory
  (List.range lhsParts).foldlM (fullMultiplyRow dst lhs rhs rhsParts) memory

def tcFullMultiply (dst lhs rhs lhsParts rhsParts : Nat) (memory : Memory 64) : Option (Memory 64) :=
  if rhsParts < lhsParts then fullMultiplyRows dst rhs lhs rhsParts lhsParts memory
  else fullMultiplyRows dst lhs rhs lhsParts rhsParts memory

def divideRound (lhs remainder srhs parts n : Nat) (mask : WordType) (memory : Memory 64) : Memory 64 :=
  if 0 ≤ tcCompare memory remainder srhs parts then
    let memory := (tcSubtract remainder srhs false parts memory).1
    Function.update memory (lhs + n) (memory (lhs + n) ||| mask)
  else memory

def divideLoop (lhs remainder srhs parts : Nat) : Nat → Nat → WordType → Memory 64 → Memory 64
  | 0, n, mask, memory => divideRound lhs remainder srhs parts n mask memory
  | shiftCount + 1, n, mask, memory =>
      let memory := tcShiftRight srhs parts 1 (divideRound lhs remainder srhs parts n mask memory)
      if mask >>> 1 == 0 then divideLoop lhs remainder srhs parts shiftCount (n - 1)
        ((1 : WordType) <<< (64 - 1)) memory
      else divideLoop lhs remainder srhs parts shiftCount n (mask >>> 1) memory

def tcDivide (lhs rhs remainder srhs parts : Nat) (memory : Memory 64) : Option (Memory 64 × Bool) := do
  guard (lhs ≠ remainder ∧ lhs ≠ srhs ∧ remainder ≠ srhs)
  let top ← tcMSB memory rhs parts
  let shiftCount := u32 (top + 1)
  if shiftCount = 0 then some (memory, true)
  else do
    let shiftCount := u32 (u32 (parts * 64) + 2 ^ 32 - shiftCount)
    let n := shiftCount / 64
    let mask := (1 : WordType) <<< (shiftCount % 64)
    let memory := tcShiftLeft srhs parts shiftCount (tcAssign srhs rhs parts memory)
    let memory := tcAssign remainder lhs parts memory
    let memory ← tcSet lhs 0 parts memory
    some (divideLoop lhs remainder srhs parts shiftCount n mask memory, false)

end EvmBackend.APInt.Parts
