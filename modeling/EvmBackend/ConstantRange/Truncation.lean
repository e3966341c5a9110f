/-
The union of two ranges and the truncation of a range keep every member.

The truncation moves a range down by a multiple of the narrow modulus. What is
left of it lies below one modulus, goes over one end of it, or covers all of it.
-/

import EvmBackend.ConstantRange.Members

namespace EvmBackend.ConstantRange

open APInt BitVec

variable {W D : Nat} {range other : ConstantRange W} {value : BitVec W}

/-! ### Union -/

theorem contains_getPreferredRange (inRange : range.contains value = true)
    (inOther : other.contains value = true) :
    (getPreferredRange range other).contains value = true := by
  unfold getPreferredRange
  split
  · exact inRange
  · exact inOther

/-- The union with a range that wraps. The tests of the source order the four
bounds, and each branch is an interval of that order. -/
theorem contains_unionWithWrapped (wrapped : range.Upper.toNat < range.Lower.toNat)
    (differ : other.Lower.toNat ≠ other.Upper.toNat)
    (member : range.contains value = true ∨ other.contains value = true) :
    (unionWithWrapped range other).contains value = true := by
  rw [contains_iff, contains_iff] at member
  unfold unionWithWrapped
  by_cases both : other.isUpperWrapped = true
  · have otherWrapped := isUpperWrapped_iff.mp both
    simp only [both, Bool.not_true, Bool.false_eq_true, if_false, Bool.or_eq_true,
      ule_iff_toNat_le, ult_iff_toNat_lt]
    split
    · exact contains_getFull
    · rw [contains_mk_iff]
      split <;> split <;> omega
  · have otherPlain := mt isUpperWrapped_iff.mpr both
    rw [Bool.not_eq_true] at both
    simp only [both, Bool.not_false, if_true, Bool.or_eq_true, Bool.and_eq_true,
      ule_iff_toNat_le, ult_iff_toNat_lt]
    split
    · rw [contains_iff]
      omega
    split
    · exact contains_getFull
    split
    · apply contains_getPreferredRange
      · rw [contains_mk_iff]
        omega
      · rw [contains_mk_iff]
        omega
    split
    · rw [contains_mk_iff]
      omega
    · rw [contains_mk_iff]
      omega

theorem contains_unionWith (positive : 0 < W) (differ : range.Lower.toNat ≠ range.Upper.toNat)
    (proper : other.Lower.toNat = other.Upper.toNat → other.Lower.toNat = 0)
    (member : range.contains value = true ∨ other.contains value = true) :
    (unionWith range other).contains value = true := by
  have two := Nat.one_lt_two_pow (n := W) (by omega)
  have notFull : ¬ range.isFullSet = true := by
    rw [isFullSet_iff]
    omega
  have notEmpty : ¬ range.isEmptySet = true := by
    rw [isEmptySet_iff]
    omega
  have otherNotFull : ¬ other.isFullSet = true := by
    rw [isFullSet_iff]
    omega
  unfold unionWith
  by_cases otherEmpty : other.isEmptySet = true
  · rw [if_pos (by rw [otherEmpty, Bool.or_true])]
    rcases member with inRange | inOther
    · exact inRange
    · rw [isEmptySet_of_contains positive inOther] at otherEmpty
      exact absurd otherEmpty Bool.false_ne_true
  have otherDiffer : other.Lower.toNat ≠ other.Upper.toNat := by
    intro same
    exact otherEmpty (isEmptySet_iff.mpr ⟨same, proper same⟩)
  rw [Bool.not_eq_true] at notFull notEmpty otherEmpty otherNotFull
  simp only [notFull, otherEmpty, otherNotFull, notEmpty, Bool.or_self, Bool.false_eq_true,
    if_false]
  cases rangeWraps : range.isUpperWrapped with
  | true =>
      have wrapped := isUpperWrapped_iff.mp rangeWraps
      simp only [Bool.not_true, Bool.false_and, Bool.false_eq_true, if_false]
      exact contains_unionWithWrapped wrapped otherDiffer member
  | false =>
      have plain : ¬ range.Upper.toNat < range.Lower.toNat := by
        rw [← isUpperWrapped_iff, rangeWraps]
        exact Bool.false_ne_true
      cases otherWraps : other.isUpperWrapped with
      | true =>
          have wrapped := isUpperWrapped_iff.mp otherWraps
          simp only [Bool.not_false, Bool.and_self, if_true]
          exact contains_unionWithWrapped wrapped differ member.symm
      | false =>
          have otherPlain : ¬ other.Upper.toNat < other.Lower.toNat := by
            rw [← isUpperWrapped_iff, otherWraps]
            exact Bool.false_ne_true
          simp only [Bool.not_false, Bool.and_false, Bool.false_eq_true, if_false, Bool.and_self,
            if_true, Bool.or_eq_true, ult_iff_toNat_lt]
          rw [contains_iff, contains_iff] at member
          split
          · apply contains_getPreferredRange
            · rw [contains_mk_iff]
              omega
            · rw [contains_mk_iff]
              omega
          rename_i touching
          have rangeLast := toNat_sub_one positive range.Upper
          have otherLast := toNat_sub_one positive other.Upper
          by_cases bothZero : (if other.Lower.toNat < range.Lower.toNat then other.Lower
              else range.Lower) = 0 ∧
            (if (range.Upper - 1).toNat < (other.Upper - 1).toNat then other.Upper
              else range.Upper) = 0
          · rw [if_pos bothZero]
            exact contains_getFull
          · rw [if_neg bothZero, contains_mk_iff]
            clear bothZero
            split <;> split <;> omega

/-! ### Truncation -/

theorem toNat_and_getBitsSetFrom (bound : BitVec W) :
    (bound &&& getBitsSetFrom W D).toNat + bound.toNat % 2 ^ D = bound.toNat := by
  have shifts : bound &&& getBitsSetFrom W D = (bound >>> D) <<< D := by
    apply eq_of_getLsbD_eq
    intro bit inside
    simp only [getBitsSetFrom, getLowBitsSet, getLsbD_and, getLsbD_not,
      getLsbD_ofNat, Nat.testBit_two_pow_sub_one, getLsbD_shiftLeft,
      getLsbD_ushiftRight, inside, decide_true, Bool.true_and]
    by_cases low : bit < D
    · simp [low]
    · simp [low, show D + (bit - D) = bit by omega]
  have most := Nat.div_mul_le_self bound.toNat (2 ^ D)
  have whole := Nat.div_add_mod' bound.toNat (2 ^ D)
  rw [shifts, BitVec.toNat_shiftLeft, toNat_ushiftRight, Nat.shiftRight_eq_div_pow,
    Nat.shiftLeft_eq, Nat.mod_eq_of_lt (by omega)]
  omega

theorem toNat_and_not_getOneBitSet {bound : BitVec W}
    (low : 2 ^ D ≤ bound.toNat) (high : bound.toNat < 2 ^ (D + 1)) :
    (bound &&& ~~~ getOneBitSet W D).toNat = bound.toNat - 2 ^ D := by
  have clear : bound &&& ~~~ getOneBitSet W D = BitVec.ofNat W (bound.toNat % 2 ^ D) := by
    apply eq_of_getLsbD_eq
    intro bit inside
    simp only [getOneBitSet, getLsbD_and, getLsbD_not, getLsbD_ofNat, inside,
      decide_true, Bool.true_and, Nat.testBit_two_pow, Nat.testBit_mod_two_pow]
    rcases Nat.lt_trichotomy bit D with below | same | above
    · simp [below, show D ≠ bit by omega, BitVec.getLsbD]
    · simp [same]
    · have zero : bound.getLsbD bit = false := by
        apply Nat.testBit_lt_two_pow
        exact lt_of_lt_of_le high (Nat.pow_le_pow_right (by omega) above)
      simp [zero, show ¬ bit < D by omega]
  have part := Nat.mod_le bound.toNat (2 ^ D)
  rw [clear, toNat_ofNat, Nat.mod_eq_of_lt (by omega), Nat.mod_eq_sub_mod low,
    Nat.mod_eq_of_lt (by omega)]

theorem toNat_adjust (lower : BitVec W) :
    (if D < getActiveBits lower then lower &&& getBitsSetFrom W D else 0).toNat +
      lower.toNat % 2 ^ D = lower.toNat := by
  by_cases long : D < getActiveBits lower
  · rw [if_pos long]
    exact toNat_and_getBitsSetFrom lower
  · have small := (getActiveBits_le_iff lower D).mp (not_lt.mp long)
    rw [if_neg long, Nat.mod_eq_of_lt small]
    simp

theorem contains_truncateFrom (positive : 0 < D) {lower upper : BitVec W}
    {union : ConstantRange D} (below : lower.toNat < upper.toNat)
    (proper : union.Lower.toNat = union.Upper.toNat → union.Lower.toNat = 0)
    (member : lower.toNat ≤ value.toNat ∧ value.toNat < upper.toNat ∨
      union.contains (value.setWidth D) = true) :
    (truncateFrom D lower upper union).contains (value.setWidth D) = true := by
  have modulus := Nat.two_pow_pos D
  have adjusted := toNat_adjust (D := D) lower
  unfold truncateFrom
  generalize (if D < getActiveBits lower then lower &&& getBitsSetFrom W D else 0) = adjust
    at adjusted
  have lowerDiv : (lower - adjust).toNat = lower.toNat % 2 ^ D := by
    rw [BitVec.toNat_sub_of_le (by rw [le_def]; omega)]
    omega
  have lowerNat : ((lower - adjust).setWidth D).toNat = lower.toNat % 2 ^ D := by
    rw [toNat_setWidth, lowerDiv, Nat.mod_mod]
  have upperDiv : (upper - adjust).toNat = upper.toNat - adjust.toNat :=
    BitVec.toNat_sub_of_le (by rw [le_def]; omega)
  -- moving the value down with its range keeps what is left of it after the truncation
  have moved : adjust.toNat ≤ value.toNat →
      (value.toNat - adjust.toNat) % 2 ^ D = value.toNat % 2 ^ D := by
    intro small
    have whole := Nat.div_add_mod lower.toNat (2 ^ D)
    rw [show adjust.toNat = 2 ^ D * (lower.toNat / 2 ^ D) by omega] at small ⊢
    exact Nat.sub_mul_mod small
  by_cases short : getActiveBits (upper - adjust) ≤ D
  · have bound := (getActiveBits_le_iff _ D).mp short
    rw [if_pos short]
    have upperNat : ((upper - adjust).setWidth D).toNat = upper.toNat - adjust.toNat := by
      rw [toNat_setWidth, Nat.mod_eq_of_lt bound, upperDiv]
    apply contains_unionWith positive (by simp only [lowerNat, upperNat]; omega) proper
    rcases member with inside | inUnion
    · left
      have same := moved (by omega)
      rw [Nat.mod_eq_of_lt (by omega)] at same
      rw [contains_mk_iff, lowerNat, upperNat, toNat_setWidth]
      omega
    · exact Or.inr inUnion
  rw [if_neg short]
  have long : 2 ^ D ≤ (upper - adjust).toNat := not_lt.mp (mt (getActiveBits_le_iff _ D).mpr short)
  by_cases once : getActiveBits (upper - adjust) = D + 1
  · have bound := (getActiveBits_le_iff _ (D + 1)).mp once.le
    rw [if_pos once]
    have cleared := toNat_and_not_getOneBitSet long bound
    by_cases wraps : ((upper - adjust) &&& ~~~ getOneBitSet W D).ult (lower - adjust) = true
    · rw [if_pos wraps]
      rw [ult_iff_toNat_lt, cleared, lowerDiv] at wraps
      have upperNat : (((upper - adjust) &&& ~~~ getOneBitSet W D).setWidth D).toNat =
          upper.toNat - adjust.toNat - 2 ^ D := by
        rw [toNat_setWidth, cleared, upperDiv, Nat.mod_eq_of_lt (by omega)]
      apply contains_unionWith positive (by simp only [lowerNat, upperNat]; omega) proper
      rcases member with inside | inUnion
      · left
        have same := moved (by omega)
        rw [contains_mk_iff, lowerNat, upperNat, toNat_setWidth]
        by_cases first : value.toNat - adjust.toNat < 2 ^ D
        · rw [Nat.mod_eq_of_lt first] at same
          omega
        · rw [Nat.mod_eq_sub_mod (by omega), Nat.mod_eq_of_lt (by omega)] at same
          omega
      · exact Or.inr inUnion
    · rw [if_neg wraps]
      exact contains_getFull
  · rw [if_neg once]
    exact contains_getFull

/-- The part of a range that wraps below zero: the narrow range from the last
number to the truncated bound. -/
theorem contains_last {upper : BitVec W} (small : upper.toNat + 1 < 2 ^ D)
    (member : value.toNat < upper.toNat ∨ value.toNat % 2 ^ D + 1 = 2 ^ D) :
    (ConstantRange.mk (getMaxValue D) (upper.setWidth D)).contains (value.setWidth D) = true := by
  rw [contains_mk_iff, toNat_getMaxValue, toNat_setWidth, toNat_setWidth,
    Nat.mod_eq_of_lt (show upper.toNat < 2 ^ D by omega)]
  rcases member with below | last
  · rw [Nat.mod_eq_of_lt (show value.toNat < 2 ^ D by omega)]
    omega
  · omega

theorem contains_truncate (positive : 0 < D) (narrower : D < W)
    (member : range.contains value = true) :
    (range.truncate D).contains (value.setWidth D) = true := by
  have bound := value.isLt
  have modulus := Nat.two_pow_pos D
  have lowerBound := range.Lower.isLt
  have split : 2 ^ W = 2 ^ D * 2 ^ (W - D) := by
    rw [← pow_add]
    congr 1
    omega
  unfold truncate
  rw [isEmptySet_of_contains (by omega) member]
  simp only [Bool.false_eq_true, if_false]
  by_cases full : range.isFullSet = true
  · rw [if_pos full]
    exact contains_getFull
  rw [if_neg full]
  rw [isFullSet_iff] at full
  by_cases wraps : range.isUpperWrapped = true
  · rw [if_pos wraps]
    rw [isUpperWrapped_iff] at wraps
    rw [contains_iff] at member
    by_cases covers : (decide (D < getActiveBits range.Upper) ||
        countTrailingOnes range.Upper == D) = true
    · rw [if_pos covers]
      exact contains_getFull
    rw [if_neg covers]
    rw [Bool.or_eq_true, decide_eq_true_eq, beq_iff_eq] at covers
    have active : range.Upper.toNat < 2 ^ D :=
      (getActiveBits_le_iff _ D).mp (not_lt.mp fun long => covers (Or.inl long))
    have small : range.Upper.toNat + 1 < 2 ^ D := by
      have notLast : range.Upper.toNat ≠ 2 ^ D - 1 := by
        intro last
        apply covers
        right
        rw [countTrailingOnes, last]
        exact trailingOnes_full D W narrower.le
      omega
    have lastNumber : value.toNat + 1 = 2 ^ W → value.toNat % 2 ^ D + 1 = 2 ^ D := by
      intro last
      have below := Nat.mod_lt value.toNat modulus
      have rest : (value.toNat % 2 ^ D + 1) % 2 ^ D = 0 := by
        rw [Nat.mod_add_mod, last, split, Nat.mul_mod_right]
      by_contra short
      rw [Nat.mod_eq_of_lt (by omega)] at rest
      omega
    by_cases one : range.Lower = getMaxValue W
    · have atEnd := congrArg BitVec.toNat one
      rw [toNat_getMaxValue] at atEnd
      rw [if_pos one]
      apply contains_last small
      omega
    · have before : range.Lower.toNat ≠ 2 ^ W - 1 := by
        intro last
        exact one (eq_of_toNat_eq (last.trans (toNat_getMaxValue W).symm))
      rw [if_neg one]
      apply contains_truncateFrom positive
      · rw [toNat_getMaxValue]
        omega
      · intro same
        simp only [toNat_getMaxValue, toNat_setWidth, Nat.mod_eq_of_lt active] at same
        omega
      · rw [toNat_getMaxValue]
        by_cases below : value.toNat < range.Upper.toNat ∨ value.toNat + 1 = 2 ^ W
        · right
          apply contains_last small
          omega
        · left
          omega
  · rw [if_neg wraps]
    rw [isUpperWrapped_iff] at wraps
    rw [contains_iff] at member
    apply contains_truncateFrom positive
    · omega
    · intro same
      rfl
    · left
      omega

end EvmBackend.ConstantRange
