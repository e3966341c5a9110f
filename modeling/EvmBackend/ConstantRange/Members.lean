/-
The members of a range as conditions on numbers, the unsigned and the signed
hull of a range, and the ranges built from two bounds.
-/

import EvmBackend.ConstantRange

namespace EvmBackend.ConstantRange

open APInt BitVec

variable {W : Nat} {range other : ConstantRange W} {value : BitVec W}

theorem isFullSet_iff : range.isFullSet = true ↔
    range.Lower.toNat = range.Upper.toNat ∧ range.Lower.toNat + 1 = 2 ^ W := by
  have bound := range.Lower.isLt
  simp only [isFullSet, Bool.and_eq_true, beq_iff_eq, ← toNat_inj, toNat_getMaxValue]
  omega

theorem isEmptySet_iff : range.isEmptySet = true ↔
    range.Lower.toNat = range.Upper.toNat ∧ range.Lower.toNat = 0 := by
  simp only [isEmptySet, Bool.and_eq_true, beq_iff_eq, ← toNat_inj, ofNat_eq_ofNat,
    toNat_ofNat, Nat.zero_mod]

theorem isUpperWrapped_iff : range.isUpperWrapped = true ↔
    range.Upper.toNat < range.Lower.toNat := by
  rw [isUpperWrapped, ult_iff_toNat_lt]

/-- A range with equal bounds holds everything or nothing; any other is an
interval, or the two ends of the number line. -/
theorem contains_iff : range.contains value = true ↔
    range.Lower.toNat = range.Upper.toNat ∧ range.Lower.toNat + 1 = 2 ^ W ∨
    range.Lower.toNat < range.Upper.toNat ∧
      range.Lower.toNat ≤ value.toNat ∧ value.toNat < range.Upper.toNat ∨
    range.Upper.toNat < range.Lower.toNat ∧
      (range.Lower.toNat ≤ value.toNat ∨ value.toNat < range.Upper.toNat) := by
  unfold contains
  by_cases same : range.Lower = range.Upper
  · have equal := congrArg BitVec.toNat same
    rw [if_pos same, isFullSet_iff]
    omega
  · have differ : range.Lower.toNat ≠ range.Upper.toNat := fun equal =>
      same (eq_of_toNat_eq equal)
    rw [if_neg same]
    cases wrapped : range.isUpperWrapped with
    | true =>
        have below := isUpperWrapped_iff.mp wrapped
        simp only [Bool.not_true, Bool.false_eq_true, if_false, Bool.or_eq_true,
          ule_iff_toNat_le, ult_iff_toNat_lt]
        omega
    | false =>
        have above : ¬ range.Upper.toNat < range.Lower.toNat := by
          rw [← isUpperWrapped_iff, wrapped]
          exact Bool.false_ne_true
        simp only [Bool.not_false, if_true, Bool.and_eq_true, ule_iff_toNat_le,
          ult_iff_toNat_lt]
        omega

theorem contains_mk_iff {lower upper : BitVec W} :
    (ConstantRange.mk lower upper).contains value = true ↔
      lower.toNat = upper.toNat ∧ lower.toNat + 1 = 2 ^ W ∨
      lower.toNat < upper.toNat ∧ lower.toNat ≤ value.toNat ∧ value.toNat < upper.toNat ∨
      upper.toNat < lower.toNat ∧ (lower.toNat ≤ value.toNat ∨ value.toNat < upper.toNat) :=
  contains_iff

theorem isFullSet_getFull (W : Nat) : (getFull W).isFullSet = true := by
  have power := Nat.two_pow_pos W
  rw [isFullSet_iff]
  refine ⟨rfl, ?_⟩
  change (getMaxValue W).toNat + 1 = 2 ^ W
  rw [toNat_getMaxValue]
  omega

theorem contains_getFull : (getFull W).contains value = true := by
  rw [contains, if_pos (show (getFull W).Lower = (getFull W).Upper from rfl)]
  exact isFullSet_getFull W

theorem isEmptySet_of_contains (positive : 0 < W) (member : range.contains value = true) :
    range.isEmptySet = false := by
  have two : 2 ^ 1 ≤ 2 ^ W := Nat.pow_le_pow_right (by omega) positive
  rw [contains_iff] at member
  rw [← Bool.not_eq_true, isEmptySet_iff]
  omega

/-! ### Hulls -/

theorem toNat_sub_one (positive : 0 < W) (bound : BitVec W) :
    bound.toNat = 0 ∧ (bound - 1).toNat + 1 = 2 ^ W ∨
      (bound - 1).toNat + 1 = bound.toNat := by
  have limit := bound.isLt
  rw [toNat_sub, APInt.toNat_one positive]
  by_cases zero : bound.toNat = 0
  · rw [zero, Nat.add_zero, Nat.mod_eq_of_lt (by omega)]
    omega
  · have once : 2 ^ W - 1 + bound.toNat = 2 ^ W + (bound.toNat - 1) := by omega
    rw [once, Nat.add_mod_left, Nat.mod_eq_of_lt (by omega)]
    omega

theorem toNat_add_one (positive : 0 < W) (bound : BitVec W) :
    bound.toNat + 1 = 2 ^ W ∧ (bound + 1).toNat = 0 ∨ (bound + 1).toNat = bound.toNat + 1 := by
  have limit := bound.isLt
  rw [toNat_add, APInt.toNat_one positive]
  by_cases last : bound.toNat + 1 = 2 ^ W
  · rw [last, Nat.mod_self]
    omega
  · rw [Nat.mod_eq_of_lt (by omega)]
    omega

theorem le_getUnsignedMax (positive : 0 < W) (member : range.contains value = true) :
    value.toNat ≤ range.getUnsignedMax.toNat := by
  have bound := value.isLt
  rw [contains_iff] at member
  unfold getUnsignedMax
  by_cases ends : (range.isFullSet || range.isUpperWrapped) = true
  · rw [if_pos ends, toNat_getMaxValue]
    omega
  · rw [if_neg ends]
    rw [Bool.or_eq_true, isFullSet_iff, isUpperWrapped_iff] at ends
    have less := toNat_sub_one positive range.Upper
    omega

theorem getUnsignedMin_le (member : range.contains value = true) :
    range.getUnsignedMin.toNat ≤ value.toNat := by
  rw [contains_iff] at member
  unfold getUnsignedMin
  by_cases ends : (range.isFullSet || range.isWrappedSet) = true
  · rw [if_pos ends]
    simp
  · rw [if_neg ends]
    simp only [Bool.or_eq_true, isFullSet_iff, isWrappedSet, Bool.and_eq_true,
      ult_iff_toNat_lt, bne_iff_ne, ne_eq, ← toNat_inj, ofNat_eq_ofNat,
      toNat_ofNat, Nat.zero_mod] at ends
    omega

theorem toInt_cases (value : BitVec W) :
    2 * value.toNat < 2 ^ W ∧ value.toInt = value.toNat ∨
      2 ^ W ≤ 2 * value.toNat ∧ value.toInt = value.toNat - (2 ^ W : Nat) := by
  rw [toInt_eq_toNat_cond]
  by_cases small : 2 * value.toNat < 2 ^ W
  · rw [if_pos small]
    exact Or.inl ⟨small, rfl⟩
  · rw [if_neg small]
    exact Or.inr ⟨by omega, rfl⟩

theorem isMinSignedValue_iff (positive : 0 < W) :
    isMinSignedValue value = true ↔ 2 * value.toNat = 2 ^ W := by
  have halves := two_pow_pred positive
  rw [isMinSignedValue, beq_iff_eq, ← toNat_inj, getSignedMinValue,
    toNat_intMin_of_pos positive]
  omega

theorem le_getSignedMax (positive : 0 < W) (member : range.contains value = true) :
    value.toInt ≤ range.getSignedMax.toInt := by
  have bounds := toInt_bounds value
  unfold getSignedMax
  by_cases ends : (range.isFullSet || range.isUpperSignWrapped) = true
  · rw [if_pos ends, toInt_getSignedMaxValue]
    omega
  · rw [if_neg ends]
    rw [contains_iff] at member
    rw [Bool.or_eq_true, isFullSet_iff, isUpperSignWrapped, slt_iff_toInt_lt] at ends
    have limit := range.Upper.isLt
    have lower := toInt_cases range.Lower
    have upper := toInt_cases range.Upper
    have number := toInt_cases value
    have less := toNat_sub_one positive range.Upper
    have last := toInt_cases (range.Upper - 1)
    omega

theorem getSignedMin_le (positive : 0 < W) (member : range.contains value = true) :
    range.getSignedMin.toInt ≤ value.toInt := by
  have bounds := toInt_bounds value
  unfold getSignedMin
  by_cases ends : (range.isFullSet || range.isSignWrappedSet) = true
  · rw [if_pos ends, toInt_getSignedMinValue positive]
    omega
  · rw [if_neg ends]
    rw [contains_iff] at member
    rw [Bool.or_eq_true, isFullSet_iff, isSignWrappedSet, Bool.and_eq_true, Bool.not_eq_true',
      ← Bool.not_eq_true, isMinSignedValue_iff positive, slt_iff_toInt_lt] at ends
    have lower := toInt_cases range.Lower
    have upper := toInt_cases range.Upper
    have number := toInt_cases value
    omega

theorem contains_getNonEmpty {lower upper : BitVec W} (holds : lower ≠ upper →
    (ConstantRange.mk lower upper).contains value = true) :
    (getNonEmpty lower upper).contains value = true := by
  unfold getNonEmpty
  by_cases same : lower = upper
  · rw [if_pos same]
    exact contains_getFull
  · rw [if_neg same]
    exact holds same

theorem contains_unsigned (positive : 0 < W) {least greatest : BitVec W}
    (above : least.toNat ≤ value.toNat) (below : value.toNat ≤ greatest.toNat) :
    (getNonEmpty least (greatest + 1)).contains value = true := by
  apply contains_getNonEmpty
  intro differ
  have apart : least.toNat ≠ (greatest + 1).toNat := fun same => differ (eq_of_toNat_eq same)
  have next := toNat_add_one positive greatest
  rw [contains_mk_iff]
  omega

theorem contains_signed (positive : 0 < W) {least greatest : BitVec W}
    (above : least.toInt ≤ value.toInt) (below : value.toInt ≤ greatest.toInt) :
    (getNonEmpty least (greatest + 1)).contains value = true := by
  apply contains_getNonEmpty
  intro differ
  have apart : least.toNat ≠ (greatest + 1).toNat := fun same => differ (eq_of_toNat_eq same)
  have next := toNat_add_one positive greatest
  have leastSign := toInt_cases least
  have valueSign := toInt_cases value
  have greatestSign := toInt_cases greatest
  have limit := greatest.isLt
  rw [contains_mk_iff]
  omega

theorem between_eq (positive : 0 < W) {left right least greatest : BitVec W}
    (leftMember : range.contains left = true) (rightMember : other.contains right = true) :
    between range other least greatest = getNonEmpty least (greatest + 1) := by
  rw [between, isEmptySet_of_contains positive leftMember,
    isEmptySet_of_contains positive rightMember]
  rfl

end EvmBackend.ConstantRange
