/-
Expressions over the elements of one operand, as the target-independent lowering
builds them in place of an operation with a constant.

A constant operand has one value for each element; a scalar has one element. A
node has a value where every node of its expression has one, which a shift by
the width or more has not.
-/

import EvmBackend.APInt

namespace EvmBackend.TargetLowering

variable {W : Nat}

/-- Of the multiplications with two results the second one is used. -/
inductive ISD
  | ADD | SUB | MUL | AND | MULHS | MULHU | SMUL_LOHI | UMUL_LOHI | SRL | SRA | ROTR
  deriving DecidableEq, Repr

def ISD.value : ISD → BitVec W → BitVec W → Option (BitVec W)
  | .ADD, left, right => some (left + right)
  | .SUB, left, right => some (left - right)
  | .MUL, left, right => some (left * right)
  | .AND, left, right => some (left &&& right)
  | .MULHS, left, right | .SMUL_LOHI, left, right =>
      some (BitVec.ofInt W (left.toInt * right.toInt / 2 ^ W))
  | .MULHU, left, right | .UMUL_LOHI, left, right =>
      some (BitVec.ofNat W (left.toNat * right.toNat / 2 ^ W))
  | _, _, _ => none

def ISD.shifted : ISD → BitVec W → Nat → Option (BitVec W)
  | .SRL, word, amount => if amount < W then some (word >>> amount) else none
  | .SRA, word, amount => if amount < W then some (word.sshiftRight amount) else none
  | .ROTR, word, amount => some (word.rotateRight amount)
  | _, _, _ => none

inductive CondCode
  | SETEQ | SETNE | SETULE | SETUGT
  deriving DecidableEq, Repr

def CondCode.decides : CondCode → BitVec W → BitVec W → Bool
  | .SETEQ, left, right => left == right
  | .SETNE, left, right => left != right
  | .SETULE, left, right => left.ule right
  | .SETUGT, left, right => right.ult left

inductive SDNode (W : Nat)
  | operand
  | constant (elements : List (BitVec W))
  | node (opcode : ISD) (left right : SDNode W)
  | shift (opcode : ISD) (value : SDNode W) (amounts : List Nat)
  | select (left right : SDNode W) (cc : CondCode) (ifTrue ifFalse : SDNode W)
  deriving DecidableEq, Repr

/-- The value of one element, for the value of that element of the operand. -/
def SDNode.value (operand : BitVec W) (element : Nat) : SDNode W → Option (BitVec W)
  | .operand => some operand
  | .constant elements => elements[element]?
  | .node opcode left right => do
      let first ← left.value operand element
      let second ← right.value operand element
      opcode.value first second
  | .shift opcode value amounts => do
      let word ← value.value operand element
      let amount ← amounts[element]?
      opcode.shifted word amount
  | .select left right cc ifTrue ifFalse => do
      let first ← left.value operand element
      let second ← right.value operand element
      let chosen ← ifTrue.value operand element
      let other ← ifFalse.value operand element
      some (if cc.decides first second then chosen else other)

structure SetCC (W : Nat) where
  left : SDNode W
  right : SDNode W
  cc : CondCode
  deriving DecidableEq, Repr

def SetCC.value (operand : BitVec W) (element : Nat) (test : SetCC W) : Option Bool := do
  let first ← test.left.value operand element
  let second ← test.right.value operand element
  some (test.cc.decides first second)

structure Constant (W : Nat) where
  isVector : Bool
  elements : List (BitVec W)
  scalar : isVector = false → elements.length = 1

def Constant.ofScalar (value : BitVec W) : Constant W := ⟨false, [value], fun _ => rfl⟩

def matchUnaryPredicate {Element : Type} (Match : BitVec W → Option (Option Element)) :
    List (BitVec W) → Option (Option (List Element))
  | [] => some (some [])
  | element :: rest => do
      match ← Match element with
      | none => some none
      | some first => do
          let others ← matchUnaryPredicate Match rest
          some (others.map (first :: ·))

/-- A constant of the width from a word of 64 bits, not extended by its sign. -/
def getConstant (W : Nat) (Val : BitVec 64) : Option (BitVec W) :=
  if 64 ≤ W ∨ (Val.sshiftRight W + 1).toNat < 2 then some (Val.setWidth W) else none

/-- What a target supports for the type of the operation. -/
structure Target where
  isTypeLegal : Bool
  isOperationLegal : ISD → Bool
  isOperationLegalOrCustom : ISD → Bool

def Target.supports (target : Target) (IsAfterLegalization : Bool) (opcode : ISD) : Bool :=
  if IsAfterLegalization then target.isOperationLegal opcode else target.isOperationLegalOrCustom opcode

def everythingLegal : Target where
  isTypeLegal := true
  isOperationLegal := fun _ => true
  isOperationLegalOrCustom := fun _ => true

end EvmBackend.TargetLowering
