/-
What the machine's operations on words do to the stack and the memory.

A word is read as a number below 2^256 or as a two's complement integer. The
operations without a result in mathematics (a zero divisor, a shift by the
width or more) have the result the Yellow Paper gives them.
-/

import EvmBackend.InstrInfo

namespace EvmBackend.EVM

open ByteMemory

def truth (holds : Bool) : Word := if holds then 1 else 0

def div (left right : Word) : Word := if right = 0 then 0 else left / right

def sdiv (left right : Word) : Word :=
  if right = 0 then 0 else BitVec.ofInt 256 (left.toInt.tdiv right.toInt)

def mod (left right : Word) : Word := if right = 0 then 0 else left % right

def smod (left right : Word) : Word :=
  if right = 0 then 0 else BitVec.ofInt 256 (left.toInt.tmod right.toInt)

/-- The sum before the remainder is not reduced to a word. -/
def addmod (left right modulus : Word) : Word :=
  if modulus = 0 then 0 else BitVec.ofNat 256 ((left.toNat + right.toNat) % modulus.toNat)

def mulmod (left right modulus : Word) : Word :=
  if modulus = 0 then 0 else BitVec.ofNat 256 ((left.toNat * right.toNat) % modulus.toNat)

/-- Extend the value from the highest bit of the byte with the given index,
counted from the lowest; an index behind the word changes nothing. -/
def signextend (index value : Word) : Word :=
  if index.toNat < 31 then (value.setWidth (8 * (index.toNat + 1))).signExtend 256 else value

def shl (amount value : Word) : Word := if amount.toNat < 256 then value <<< amount.toNat else 0

def shr (amount value : Word) : Word := if amount.toNat < 256 then value >>> amount.toNat else 0

def sar (amount value : Word) : Word :=
  if amount.toNat < 256 then value.sshiftRight amount.toNat
  else if value.toInt < 0 then BitVec.allOnes 256 else 0

/-- An operation without control flow, on the stack and the memory; the first
operand is the top of the stack. -/
def perform (operation : Operation) (stack : List Word) (memory : Memory) :
    Option (List Word × Memory) :=
  match operation, stack with
  | .ADD, left :: right :: rest => some ((left + right) :: rest, memory)
  | .MUL, left :: right :: rest => some ((left * right) :: rest, memory)
  | .SUB, left :: right :: rest => some ((left - right) :: rest, memory)
  | .DIV, left :: right :: rest => some (div left right :: rest, memory)
  | .SDIV, left :: right :: rest => some (sdiv left right :: rest, memory)
  | .MOD, left :: right :: rest => some (mod left right :: rest, memory)
  | .SMOD, left :: right :: rest => some (smod left right :: rest, memory)
  | .ADDMOD, left :: right :: modulus :: rest => some (addmod left right modulus :: rest, memory)
  | .MULMOD, left :: right :: modulus :: rest => some (mulmod left right modulus :: rest, memory)
  | .SIGNEXTEND, index :: value :: rest => some (signextend index value :: rest, memory)
  | .LT, left :: right :: rest => some (truth (left.ult right) :: rest, memory)
  | .GT, left :: right :: rest => some (truth (right.ult left) :: rest, memory)
  | .SLT, left :: right :: rest => some (truth (left.slt right) :: rest, memory)
  | .SGT, left :: right :: rest => some (truth (right.slt left) :: rest, memory)
  | .EQ, left :: right :: rest => some (truth (left == right) :: rest, memory)
  | .ISZERO, value :: rest => some (truth (value == 0) :: rest, memory)
  | .SHL, amount :: value :: rest => some (shl amount value :: rest, memory)
  | .SHR, amount :: value :: rest => some (shr amount value :: rest, memory)
  | .SAR, amount :: value :: rest => some (sar amount value :: rest, memory)
  | .MLOAD, address :: rest => some (loadWord memory address :: rest, memory)
  | .MSTORE, address :: value :: rest => some (rest, storeWord memory address value)
  | _, _ => none

/-- What the machine does at the byte the target description gives the
instruction. -/
def performOpcode (opcode : StackOpcode) (stack : List Word) (memory : Memory) :
    Option (List Word × Memory) :=
  (operationAt (getBinaryCodeForInstr opcode)).bind fun operation => perform operation stack memory

@[simp]
theorem truth_eq_zero (holds : Bool) : truth holds = 0 ↔ holds = false := by
  cases holds <;> decide

theorem truth_beq_zero (holds : Bool) : (truth holds == 0) = !holds := by
  cases holds <;> decide

theorem signextend_of_lt {index value : Word} (below : value.toNat < 2 ^ (8 * index.toNat + 7)) :
    signextend index value = value := by
  unfold signextend
  split
  · next within =>
    have double : 2 ^ (8 * (index.toNat + 1)) = 2 * 2 ^ (8 * index.toNat + 7) := by
      rw [← Nat.pow_succ']
      congr 1
    have bound : 2 ^ (8 * index.toNat + 7) ≤ 2 ^ 255 := Nat.pow_le_pow_right (by omega) (by omega)
    apply BitVec.eq_of_toInt_eq
    rw [BitVec.toInt_signExtend_of_le (by omega), BitVec.toInt_eq_toNat_cond,
      BitVec.toInt_eq_toNat_cond, BitVec.toNat_setWidth, Nat.mod_eq_of_lt (by omega),
      if_pos (by omega), if_pos (by omega)]
  · rfl

end EvmBackend.EVM
