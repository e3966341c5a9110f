/-
A remainder by a constant that is compared with a constant, as a product that is
compared with a bound.

The operands are scalars, so that what the source keeps for all elements of a
vector is what it keeps for the only one. A comparison that is not rewritten is
`some none`; `none` stands for a failed assertion, or an inverse that is searched
for in too few rounds.
-/

import EvmBackend.APInt.MultiplicativeInverse
import EvmBackend.TargetLowering

namespace EvmBackend.TargetLowering

open APInt

variable {W : Nat}

def clearLowBits (value : BitVec W) (loBits : Nat) : BitVec W := value &&& getHighBitsSet W (W - loBits)

/-- The inverse of the odd part, by way of one more bit. -/
def inverseOf (memory : (W : Nat) → BitVec W) (rounds : Nat) (D0 : BitVec W) : Option (BitVec W) := do
  let inverse ← multiplicativeInverse memory rounds (D0.setWidth (W + 1)) (getSignedMinValue (W + 1))
  let P := inverse.setWidth W
  guard (P ≠ 0)
  guard (D0 * P = 1)
  some P

inductive FoldVariable
  | allOnes
  | D
  | Q
  | R
  deriving DecidableEq

def foldVariables (D : BitVec W) : Variables FoldVariable
  | .allOnes => ⟨W, getMaxValue W⟩
  | .D => ⟨W, D⟩
  | .Q => ⟨1, 0⟩
  | .R => ⟨1, 0⟩

/-- What the product is compared with: below the bound, or above. -/
def boundCode (Cond : CondCode) : CondCode := if Cond = .SETEQ then .SETULE else .SETUGT

def rotateEven (target : Target) (HadEvenDivisor : Bool) (Op0 : SDNode W) (K : Nat) : Option (SDNode W) :=
  if HadEvenDivisor then
    if target.isOperationLegalOrCustom .ROTR then some (.shift .ROTR Op0 [K]) else none
  else some Op0

section Folds

variable (memory : (W : Nat) → BitVec W) (rounds : Nat) (target : Target) (ShBits : Nat)

/-- `Cmp` is the constant the remainder by `D` is compared with; shift amounts
have `ShBits` bits. -/
def prepareUREMEqFold (D Cmp : BitVec W) (Cond : CondCode) : Option (Option (SetCC W)) := do
  guard (Cond = .SETEQ ∨ Cond = .SETNE)
  if !target.isOperationLegalOrCustom .MUL then some none
  else if D = 0 then some none
  else
    let TautologicalInvertedLane : Bool := D ≤ Cmp
    let TautologicalLane := D == 1 || TautologicalInvertedLane
    let K := countTrailingZeros D
    guard (D ≠ 1 ∨ K = 0)
    let D0 := D >>> K
    let P ← inverseOf memory rounds D0
    let vars ← udivrem memory .allOnes .D .Q .R (foldVariables D)
    let Q := BitVec.ofNat W (vars .Q).value
    let Q := if (vars .R).value < Cmp.toNat then Q - 1 else Q
    guard (K < 2 ^ ShBits - 1)
    if TautologicalLane then some none
    else if D0 = 1 then some none
    else if Cmp ≠ 0 ∧ !target.isOperationLegalOrCustom .SUB then some none
    else
      let N := if Cmp ≠ 0 then .node .SUB .operand (.constant [Cmp]) else .operand
      let Op0 := .node .MUL N (.constant [P])
      match rotateEven target (K != 0) Op0 K with
      | none => some none
      | some Op0 => some (some { left := Op0, right := .constant [Q], cc := boundCode Cond })

/-- The comparison of the remainder by a magnitude with zero. A comparison with
the least value as the divisor is rewritten for vectors only. -/
def foldByMagnitude (D : BitVec W) (Cond : CondCode) : Option (Option (SetCC W)) := do
  let HadIntMinDivisor := isMinSignedValue D
  let K := countTrailingZeros D
  guard (D ≠ 1 ∨ K = 0)
  let D0 := D >>> K
  let HadEvenDivisor := !isMinSignedValue D && K != 0
  let P ← inverseOf memory rounds D0
  let A := clearLowBits (← udiv (getSignedMaxValue W) D0) K
  let NeedToApplyOffset := !isMinSignedValue D && A != 0
  let Q ← udiv (2 * A) (getOneBitSet W K)
  guard (A < getMaxValue W)
  guard (K < 2 ^ ShBits - 1)
  if D = 1 then some none
  else if D0 = 1 then some none
  else
    let Op0 := .node .MUL .operand (.constant [P])
    if NeedToApplyOffset && !target.isOperationLegalOrCustom .ADD then some none
    else
      let Op0 := if NeedToApplyOffset then .node .ADD Op0 (.constant [A]) else Op0
      match rotateEven target HadEvenDivisor Op0 K with
      | none => some none
      | some Op0 =>
          if HadIntMinDivisor then none
          else some (some { left := Op0, right := .constant [Q], cc := boundCode Cond })

def prepareSREMEqFold (C CompTarget : BitVec W) (Cond : CondCode) : Option (Option (SetCC W)) := do
  guard (Cond = .SETEQ ∨ Cond = .SETNE)
  if !target.isOperationLegalOrCustom .MUL then some none
  else if CompTarget ≠ 0 then some none
  else if C = 0 then some none
  else foldByMagnitude memory rounds target ShBits (if isNegative C then -C else C) Cond

end Folds

end EvmBackend.TargetLowering
