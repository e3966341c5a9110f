/-
The hulls of a range are tight, and the ranges built from two bounds have just
the values between them.
-/

import EvmBackend.ConstantRange.SetOperations

namespace EvmBackend.ConstantRange

open APInt Arcs

variable {W : Nat} {range : ConstantRange W} {value least greatest : BitVec W}

theorem proper_getNonEmpty (lower upper : BitVec W) : (getNonEmpty lower upper).Proper := by
  unfold getNonEmpty
  split
  · exact proper_getFull
  · rename_i differ
    exact fun same => absurd same differ

section Members

variable (positive : 0 < W) (proper : range.Proper) (some : range.isEmptySet = false)

include proper some

theorem full_or_ne : range.Lower.toNat = range.Upper.toNat ∧ range.Lower.toNat + 1 = 2 ^ W ∨
    range.Lower.toNat ≠ range.Upper.toNat := by
  rcases proper.toNat_cases with full | empty | differ
  · exact Or.inl (isFullSet_iff.mp full)
  · rw [some] at empty
    cases empty
  · exact Or.inr differ

include positive

theorem contains_getUnsignedMax : range.contains range.getUnsignedMax = true := by
  have shape := full_or_ne proper some
  have lowerLimit := range.Lower.isLt
  have upperLimit := range.Upper.isLt
  unfold getUnsignedMax
  split
  · rename_i ends
    rw [Bool.or_eq_true, isFullSet_iff, isUpperWrapped_iff] at ends
    rw [contains_iff, toNat_getMaxValue]
    omega
  · rename_i ends
    rw [Bool.or_eq_true, isFullSet_iff, isUpperWrapped_iff] at ends
    have less := toNat_sub_one positive range.Upper
    rw [contains_iff]
    omega

omit positive in
theorem contains_getUnsignedMin : range.contains range.getUnsignedMin = true := by
  have shape := full_or_ne proper some
  unfold getUnsignedMin
  split
  · rename_i ends
    simp only [Bool.or_eq_true, isFullSet_iff, isWrappedSet, Bool.and_eq_true,
      BitVec.ult_iff_toNat_lt, bne_iff_ne, ne_eq, ← BitVec.toNat_inj, BitVec.ofNat_eq_ofNat,
      BitVec.toNat_ofNat, Nat.zero_mod] at ends
    rw [contains_iff, BitVec.ofNat_eq_ofNat, BitVec.toNat_ofNat, Nat.zero_mod]
    omega
  · rename_i ends
    rw [Bool.or_eq_true, isFullSet_iff] at ends
    rw [contains_iff]
    omega

theorem contains_getSignedMax : range.contains range.getSignedMax = true := by
  have shape := full_or_ne proper some
  have halves := two_pow_pred positive
  have lowerLimit := range.Lower.isLt
  have upperLimit := range.Upper.isLt
  have lower := toInt_cases range.Lower
  have upper := toInt_cases range.Upper
  unfold getSignedMax
  split
  · rename_i ends
    have last := toInt_cases (getSignedMaxValue W)
    have lastValue := toInt_getSignedMaxValue (W := W)
    rw [Bool.or_eq_true, isFullSet_iff, isUpperSignWrapped, BitVec.slt_iff_toInt_lt] at ends
    rw [contains_iff]
    omega
  · rename_i ends
    have less := toNat_sub_one positive range.Upper
    rw [Bool.or_eq_true, isFullSet_iff, isUpperSignWrapped, BitVec.slt_iff_toInt_lt] at ends
    rw [contains_iff]
    omega

theorem contains_getSignedMin : range.contains range.getSignedMin = true := by
  have shape := full_or_ne proper some
  have halves := two_pow_pred positive
  have lowerLimit := range.Lower.isLt
  have upperLimit := range.Upper.isLt
  have lower := toInt_cases range.Lower
  have upper := toInt_cases range.Upper
  unfold getSignedMin
  split
  · rename_i ends
    have last := toInt_cases (getSignedMinValue W)
    have lastValue := toInt_getSignedMinValue positive
    rw [Bool.or_eq_true, isFullSet_iff, isSignWrappedSet, Bool.and_eq_true, Bool.not_eq_true',
      ← Bool.not_eq_true, isMinSignedValue_iff positive, BitVec.slt_iff_toInt_lt] at ends
    rw [contains_iff]
    omega
  · rename_i ends
    rw [Bool.or_eq_true, isFullSet_iff] at ends
    rw [contains_iff]
    omega

end Members

theorem contains_unsigned_iff (positive : 0 < W) (order : least.toNat ≤ greatest.toNat) :
    (getNonEmpty least (greatest + 1)).contains value = true ↔
      least.toNat ≤ value.toNat ∧ value.toNat ≤ greatest.toNat := by
  refine ⟨fun member => ?_, fun inside => contains_unsigned positive inside.1 inside.2⟩
  have valueLimit := value.isLt
  have next := toNat_add_one positive greatest
  unfold getNonEmpty at member
  split at member
  · rename_i same
    have equal := congrArg BitVec.toNat same
    omega
  · rw [contains_mk_iff] at member
    omega

theorem contains_signed_iff (positive : 0 < W) (order : least.toInt ≤ greatest.toInt) :
    (getNonEmpty least (greatest + 1)).contains value = true ↔
      least.toInt ≤ value.toInt ∧ value.toInt ≤ greatest.toInt := by
  refine ⟨fun member => ?_, fun inside => contains_signed positive inside.1 inside.2⟩
  have valueLimit := value.isLt
  have limit := greatest.isLt
  have next := toNat_add_one positive greatest
  have leastSign := toInt_cases least
  have valueSign := toInt_cases value
  have greatestSign := toInt_cases greatest
  unfold getNonEmpty at member
  split at member
  · rename_i same
    have equal := congrArg BitVec.toNat same
    omega
  · rw [contains_mk_iff] at member
    omega

end EvmBackend.ConstantRange
