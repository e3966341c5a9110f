/-
What is known of the bits of a value: the bits known to be zero and those known
to be one, and what they become under addition and subtraction.

A failed assertion is none.
-/

import EvmBackend.APInt

namespace EvmBackend

open APInt BitVec

structure KnownBits (W : Nat) where
  zero : BitVec W
  one : BitVec W
deriving DecidableEq

namespace KnownBits

variable {W : Nat}

def hasConflict (known : KnownBits W) : Bool := known.zero &&& known.one != 0

def isNegative (known : KnownBits W) : Bool := known.one.msb

def isNonNegative (known : KnownBits W) : Bool := known.zero.msb

def makeNegative (known : KnownBits W) : KnownBits W := { known with one := known.one ||| getSignedMinValue W }

def makeNonNegative (known : KnownBits W) : KnownBits W :=
  { known with zero := known.zero ||| getSignedMinValue W }

def getMinValue (known : KnownBits W) : BitVec W := known.one

def getMaxValue (known : KnownBits W) : BitVec W := ~~~ known.zero

def addend (W : Nat) (flag : Bool) : BitVec W := BitVec.setWidth W (BitVec.ofBool flag)

/-- The function of the file, which takes what is known of the carry as two flags. -/
def addCarryFlags (lhs rhs : KnownBits W) (carryZero carryOne : Bool) : Option (KnownBits W) := do
  guard (!(carryZero && carryOne))
  let possibleSumZero := lhs.getMaxValue + rhs.getMaxValue + addend W (!carryZero)
  let possibleSumOne := lhs.getMinValue + rhs.getMinValue + addend W carryOne
  let carryKnownZero := ~~~ (possibleSumZero ^^^ lhs.zero ^^^ rhs.zero)
  let carryKnownOne := possibleSumOne ^^^ lhs.one ^^^ rhs.one
  let lhsKnownUnion := lhs.zero ||| lhs.one
  let rhsKnownUnion := rhs.zero ||| rhs.one
  let carryKnownUnion := carryKnownZero ||| carryKnownOne
  let known := lhsKnownUnion &&& rhsKnownUnion &&& carryKnownUnion
  guard (possibleSumZero &&& known = possibleSumOne &&& known)
  some ⟨~~~ possibleSumZero &&& known, possibleSumOne &&& known⟩

def computeForAddCarry (lhs rhs : KnownBits W) (carry : KnownBits 1) : Option (KnownBits W) :=
  addCarryFlags lhs rhs (carry.zero != 0) (carry.one != 0)

def computeForAddSub (add nsw : Bool) (lhs rhs : KnownBits W) : Option (KnownBits W) := do
  -- the difference is the sum with the complement and one
  let rhs : KnownBits W := if add then rhs else ⟨rhs.one, rhs.zero⟩
  let knownOut ← if add then addCarryFlags lhs rhs true false else addCarryFlags lhs rhs false true
  if !knownOut.isNegative && !knownOut.isNonNegative && nsw then
    if lhs.isNonNegative && rhs.isNonNegative then some knownOut.makeNonNegative
    else if lhs.isNegative && rhs.isNegative then some knownOut.makeNegative
    else some knownOut
  else some knownOut

def Compatible (known : KnownBits W) (value : BitVec W) : Prop :=
  ∀ i, (known.zero.getLsbD i = true → value.getLsbD i = false) ∧
    (known.one.getLsbD i = true → value.getLsbD i = true)

def Exactly (known : KnownBits W) (values : BitVec W → Prop) : Prop :=
  ∀ i < W, (known.zero.getLsbD i = true ↔ ∀ value, values value → value.getLsbD i = false) ∧
    (known.one.getLsbD i = true ↔ ∀ value, values value → value.getLsbD i = true)

theorem hasConflict_eq_false_iff (known : KnownBits W) :
    known.hasConflict = false ↔ ∀ i, known.zero.getLsbD i = true → known.one.getLsbD i = false := by
  unfold hasConflict
  rw [bne_eq_false_iff_eq]
  constructor
  · intro none i zero
    have bit := congrArg (fun bits : BitVec W => bits.getLsbD i) none
    simp only [getLsbD_and, zero, Bool.true_and] at bit
    rw [bit]
    exact getLsbD_zero
  · intro disjoint
    apply eq_of_getLsbD_eq
    intro i inside
    rw [getLsbD_and]
    cases zero : known.zero.getLsbD i with
    | false =>
        rw [Bool.false_and]
        exact getLsbD_zero.symm
    | true =>
        rw [disjoint i zero, Bool.and_false]
        exact getLsbD_zero.symm

theorem Compatible.hasConflict {known : KnownBits W} {value : BitVec W} (compatible : known.Compatible value) :
    known.hasConflict = false := by
  rw [hasConflict_eq_false_iff]
  intro i zero
  by_contra one
  rw [Bool.not_eq_false] at one
  have clash := ((compatible i).1 zero).symm.trans ((compatible i).2 one)
  cases clash

theorem compatible_getMinValue {known : KnownBits W} (free : known.hasConflict = false) :
    known.Compatible known.getMinValue :=
  fun i => ⟨(hasConflict_eq_false_iff known).mp free i, fun one => one⟩

theorem getMaxValue_bit {i : Nat} (inside : i < W) (known : KnownBits W) :
    known.getMaxValue.getLsbD i = !known.zero.getLsbD i := by
  rw [getMaxValue, getLsbD_not, decide_eq_true inside, Bool.true_and]

theorem compatible_getMaxValue {known : KnownBits W} (free : known.hasConflict = false) :
    known.Compatible known.getMaxValue := by
  intro i
  by_cases inside : i < W
  · rw [getMaxValue_bit inside]
    constructor
    · intro zero
      rw [zero, Bool.not_true]
    · intro one
      cases zero : known.zero.getLsbD i with
      | false => rfl
      | true =>
          rw [(hasConflict_eq_false_iff known).mp free i zero] at one
          cases one
  · rw [getLsbD_of_ge _ _ (Nat.le_of_not_lt inside), getLsbD_of_ge _ _ (Nat.le_of_not_lt inside),
      getLsbD_of_ge _ _ (Nat.le_of_not_lt inside)]
    exact ⟨nofun, nofun⟩

end KnownBits

end EvmBackend
