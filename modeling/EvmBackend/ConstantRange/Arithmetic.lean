/-
Addition and subtraction are exact unless they give the full set; a product is
kept by truncating the product ranges of twice the width; extensions keep every
member.
-/

import Mathlib.Algebra.Order.Ring.Abs
import EvmBackend.ConstantRange.Bounds
import EvmBackend.ConstantRange.Truncation

namespace EvmBackend.ConstantRange

open APInt

variable {W D : Nat} {range other : ConstantRange W} {value left right : BitVec W}

/-! ### Extension -/

theorem contains_of_toNat {least upper : BitVec W} (above : least.toNat ≤ value.toNat)
    (below : value.toNat < upper.toNat) : (ConstantRange.mk least upper).contains value = true := by
  rw [contains_mk_iff]
  omega

theorem contains_of_toInt {least upper : BitVec W} (above : least.toInt ≤ value.toInt)
    (below : value.toInt < upper.toInt) : (ConstantRange.mk least upper).contains value = true := by
  have leastSign := toInt_cases least
  have valueSign := toInt_cases value
  have upperSign := toInt_cases upper
  have leastLimit := least.isLt
  have valueLimit := value.isLt
  have upperLimit := upper.isLt
  rw [contains_mk_iff]
  omega

theorem contains_zeroExtend (positive : 0 < W) (wider : W < D)
    (member : range.contains value = true) :
    (range.zeroExtend D).contains (value.setWidth D) = true := by
  have limit := value.isLt
  have modulus : 2 ^ W < 2 ^ D := Nat.pow_lt_pow_right (by omega) wider
  have two := Nat.one_lt_two_pow (n := W) (by omega)
  have wide : ∀ bound : BitVec W, (bound.setWidth D).toNat = bound.toNat := by
    intro bound
    rw [BitVec.toNat_setWidth, Nat.mod_eq_of_lt (bound.isLt.trans modulus)]
  rw [zeroExtend, isEmptySet_of_contains positive member]
  simp only [Bool.false_eq_true, if_false]
  rw [contains_iff] at member
  by_cases ends : (range.isFullSet || range.isUpperWrapped) = true
  · rw [if_pos ends]
    apply contains_of_toNat
    · by_cases zero : range.Upper = 0
      · have upper := congrArg BitVec.toNat zero
        simp only [BitVec.ofNat_eq_ofNat, BitVec.toNat_ofNat, Nat.zero_mod] at upper
        rw [if_pos zero, wide, wide]
        omega
      · rw [if_neg zero]
        simp
    · rw [wide, getOneBitSet, BitVec.toNat_ofNat, Nat.mod_eq_of_lt modulus]
      exact limit
  · rw [if_neg ends]
    rw [Bool.or_eq_true, isFullSet_iff, isUpperWrapped_iff] at ends
    apply contains_of_toNat
    · rw [wide, wide]
      omega
    · rw [wide, wide]
      omega

theorem toInt_setWidth_of_lt (wider : W < D) (bound : BitVec W) :
    (bound.setWidth D).toInt = bound.toNat := by
  have limit := bound.isLt
  have modulus : 2 ^ (W + 1) ≤ 2 ^ D := Nat.pow_le_pow_right (by omega) wider
  rw [pow_succ] at modulus
  rw [BitVec.toInt_eq_toNat_cond, BitVec.toNat_setWidth, Nat.mod_eq_of_lt (by omega),
    if_pos (by omega)]

theorem toNat_getLowBitsSet {bits : Nat} (below : bits < D) :
    (getLowBitsSet D bits).toNat = 2 ^ bits - 1 := by
  have power : 2 ^ bits < 2 ^ D := Nat.pow_lt_pow_right (by omega) below
  have some := Nat.two_pow_pos bits
  rw [getLowBitsSet, BitVec.toNat_ofNat, Nat.mod_eq_of_lt (by omega)]

theorem contains_signExtend (positive : 0 < W) (wider : W < D)
    (member : range.contains value = true) :
    (range.signExtend D).contains (value.signExtend D) = true := by
  have limit := value.isLt
  have two := Nat.one_lt_two_pow (n := W) (by omega)
  have halves := two_pow_pred positive
  have bounds := toInt_bounds value
  have extended : ∀ bound : BitVec W, (bound.signExtend D).toInt = bound.toInt :=
    fun bound => BitVec.toInt_signExtend_of_le wider.le
  have lower := toInt_cases range.Lower
  have upper := toInt_cases range.Upper
  have number := toInt_cases value
  rw [signExtend, isEmptySet_of_contains positive member]
  simp only [Bool.false_eq_true, if_false]
  rw [contains_iff] at member
  by_cases least : isMinSignedValue range.Upper = true
  · rw [if_pos least]
    rw [isMinSignedValue_iff positive] at least
    apply contains_of_toInt
    · rw [extended, extended]
      omega
    · rw [extended, toInt_setWidth_of_lt wider]
      omega
  rw [if_neg least]
  by_cases ends : (range.isFullSet || range.isSignWrappedSet) = true
  · have ones := toNat_getLowBitsSet (show W - 1 < D by omega)
    have next := toNat_add_one (positive.trans wider) (getLowBitsSet D (W - 1))
    have modulus : 2 ^ (W - 1 + 1) < 2 ^ D := Nat.pow_lt_pow_right (by omega) (by omega)
    rw [pow_succ] at modulus
    rw [if_pos ends, getHighBitsSet, show D - (D - W + 1) = W - 1 by omega]
    apply contains_of_toInt
    · have least := toInt_cases (~~~ getLowBitsSet D (W - 1))
      rw [BitVec.toNat_not] at least
      rw [extended]
      omega
    · have greatest := toInt_cases (getLowBitsSet D (W - 1) + 1)
      rw [extended]
      omega
  · rw [if_neg ends]
    rw [isMinSignedValue_iff positive] at least
    rw [Bool.or_eq_true, isFullSet_iff, isSignWrappedSet, Bool.and_eq_true, Bool.not_eq_true',
      ← Bool.not_eq_true, isMinSignedValue_iff positive, BitVec.slt_iff_toInt_lt] at ends
    apply contains_of_toInt
    · rw [extended, extended]
      omega
    · rw [extended, extended]
      omega

/-! ### Products -/

theorem toInt_smaller (left right : BitVec W) :
    (smaller left right).toInt = min left.toInt right.toInt := by
  unfold smaller
  split <;> rename_i order <;> rw [BitVec.slt_iff_toInt_lt] at order <;> omega

theorem toInt_larger (left right : BitVec W) :
    (larger left right).toInt = max left.toInt right.toInt := by
  unfold larger
  split <;> rename_i order <;> rw [BitVec.slt_iff_toInt_lt] at order <;> omega

theorem wide_product_bounds (positive : 0 < W) (left right : BitVec W) :
    -((2 ^ (W * 2 - 1) : Nat) : Int) < left.toInt * right.toInt ∧
      left.toInt * right.toInt < (2 ^ (W * 2 - 1) : Nat) := by
  have leftBounds := toInt_bounds left
  have rightBounds := toInt_bounds right
  have half : (0 : Int) < (2 ^ (W - 1) : Nat) := by positivity
  have square : ((2 ^ (W * 2 - 1) : Nat) : Int) =
      2 * ((2 ^ (W - 1) : Nat) * (2 ^ (W - 1) : Nat)) := by
    push_cast
    rw [← pow_add, ← pow_succ']
    congr 1
    omega
  have size : |left.toInt * right.toInt| ≤ (2 ^ (W - 1) : Nat) * (2 ^ (W - 1) : Nat) := by
    rw [abs_mul]
    exact mul_le_mul (abs_le.mpr ⟨leftBounds.1, leftBounds.2.le⟩)
      (abs_le.mpr ⟨rightBounds.1, rightBounds.2.le⟩) (abs_nonneg _) half.le
  obtain ⟨least, most⟩ := abs_le.mp size
  have positiveSquare := mul_pos half half
  rw [square]
  constructor
  · linarith
  · linarith

theorem toInt_wide_product (positive : 0 < W) (left right : BitVec W) :
    (left.signExtend (W * 2) * right.signExtend (W * 2)).toInt = left.toInt * right.toInt := by
  obtain ⟨least, most⟩ := wide_product_bounds positive left right
  rw [BitVec.toInt_mul, BitVec.toInt_signExtend_of_le (by omega),
    BitVec.toInt_signExtend_of_le (by omega)]
  exact bmod_of_inSigned (by omega) ⟨least.le, most⟩

theorem product_between (factor : Int) {value low high : Int} (above : low ≤ value)
    (below : value ≤ high) :
    min (factor * low) (factor * high) ≤ factor * value ∧
      factor * value ≤ max (factor * low) (factor * high) := by
  rcases le_total 0 factor with nonneg | nonpos
  · have least := mul_le_mul_of_nonneg_left above nonneg
    have most := mul_le_mul_of_nonneg_left below nonneg
    omega
  · have least := mul_le_mul_of_nonpos_left above nonpos
    have most := mul_le_mul_of_nonpos_left below nonpos
    omega

theorem signedProducts_bounds (positive : 0 < W) (leftMember : range.contains left = true)
    (rightMember : other.contains right = true) :
    (signedProducts range other).1.toInt ≤ left.toInt * right.toInt ∧
      left.toInt * right.toInt ≤ (signedProducts range other).2.toInt := by
  have leftHull := signed_hull positive leftMember
  have rightHull := signed_hull positive rightMember
  simp only [signedProducts, toInt_smaller, toInt_larger, toInt_wide_product positive]
  have outer := product_between right.toInt leftHull.1 leftHull.2
  have least := product_between range.getSignedMin.toInt rightHull.1 rightHull.2
  have most := product_between range.getSignedMax.toInt rightHull.1 rightHull.2
  rw [mul_comm right.toInt, mul_comm right.toInt, mul_comm right.toInt] at outer
  omega

theorem signedProducts_low (positive : 0 < W) (range other : ConstantRange W) :
    -((2 ^ (W * 2 - 1) : Nat) : Int) < (signedProducts range other).1.toInt := by
  simp only [signedProducts, toInt_smaller, toInt_wide_product positive]
  have lowLow := wide_product_bounds positive range.getSignedMin other.getSignedMin
  have lowHigh := wide_product_bounds positive range.getSignedMin other.getSignedMax
  have highLow := wide_product_bounds positive range.getSignedMax other.getSignedMin
  have highHigh := wide_product_bounds positive range.getSignedMax other.getSignedMax
  omega

theorem contains_saturated_product (positive : 0 < W) (leftMember : range.contains left = true)
    (rightMember : other.contains right = true)
    (saturated : value.toInt = saturate W (left.toInt * right.toInt)) :
    (range.smul_sat other).contains value = true := by
  obtain ⟨least, most⟩ := signedProducts_bounds positive leftMember rightMember
  apply contains_between_signed positive leftMember rightMember
  · rw [toInt_truncSSat positive (by omega), saturated]
    exact saturate_mono least
  · rw [toInt_truncSSat positive (by omega), saturated]
    exact saturate_mono most

theorem contains_unsigned_product (positive : 0 < W) (leftMember : range.contains left = true)
    (rightMember : other.contains right = true) :
    (truncate ⟨range.getUnsignedMin.setWidth (W * 2) * other.getUnsignedMin.setWidth (W * 2),
      range.getUnsignedMax.setWidth (W * 2) * other.getUnsignedMax.setWidth (W * 2) + 1⟩
      W).contains (left * right) = true := by
  have leftHull := unsigned_hull positive leftMember
  have rightHull := unsigned_hull positive rightMember
  have modulus : 2 ^ (W * 2) = 2 ^ W * 2 ^ W := by rw [← pow_add, Nat.mul_two]
  have wide : ∀ first second : BitVec W,
      (first.setWidth (W * 2) * second.setWidth (W * 2)).toNat = first.toNat * second.toNat := by
    intro first second
    have product := Nat.mul_lt_mul'' first.isLt second.isLt
    rw [BitVec.toNat_mul, BitVec.toNat_setWidth_of_le (by omega),
      BitVec.toNat_setWidth_of_le (by omega), modulus, Nat.mod_eq_of_lt product]
  have room : range.getUnsignedMax.toNat * other.getUnsignedMax.toNat + 1 < 2 ^ (W * 2) := by
    have two := Nat.one_lt_two_pow (n := W) (by omega)
    have product := Nat.mul_le_mul (Nat.le_sub_one_of_lt range.getUnsignedMax.isLt)
      (Nat.le_sub_one_of_lt other.getUnsignedMax.isLt)
    have square := Nat.sub_one_add_one_eq_of_pos (Nat.two_pow_pos W)
    rw [modulus]
    nlinarith
  have narrow : left * right =
      (left.setWidth (W * 2) * right.setWidth (W * 2)).setWidth W := by
    rw [BitVec.setWidth_mul _ _ (by omega), BitVec.setWidth_setWidth_of_le _ (by omega),
      BitVec.setWidth_setWidth_of_le _ (by omega), BitVec.setWidth_eq, BitVec.setWidth_eq]
  have next := toNat_add_one (show 0 < W * 2 by omega)
    (range.getUnsignedMax.setWidth (W * 2) * other.getUnsignedMax.setWidth (W * 2))
  rw [wide] at next
  rw [narrow]
  apply contains_truncate positive (by omega)
  apply contains_of_toNat
  · rw [wide, wide]
    exact Nat.mul_le_mul leftHull.1 rightHull.1
  · have most := Nat.mul_le_mul leftHull.2 rightHull.2
    rw [wide]
    omega

theorem setWidth_signExtend_self (wider : W ≤ D) (value : BitVec W) :
    (value.signExtend D).setWidth W = value := by
  apply BitVec.eq_of_getLsbD_eq
  intro bit inside
  rw [BitVec.getLsbD_setWidth, BitVec.getLsbD_signExtend]
  simp [inside, inside.trans_le wider]

theorem contains_signed_product (positive : 0 < W) (leftMember : range.contains left = true)
    (rightMember : other.contains right = true) :
    (truncate ⟨(signedProducts range other).1, (signedProducts range other).2 + 1⟩
      W).contains (left * right) = true := by
  have bounds := signedProducts_bounds positive leftMember rightMember
  have narrow : left * right =
      (left.signExtend (W * 2) * right.signExtend (W * 2)).setWidth W := by
    rw [BitVec.setWidth_mul _ _ (by omega), setWidth_signExtend_self (by omega),
      setWidth_signExtend_self (by omega)]
  rw [← toInt_wide_product positive] at bounds
  rw [narrow]
  apply contains_truncate positive (by omega)
  have low := signedProducts_low positive range other
  have inside := contains_signed (show 0 < W * 2 by omega) bounds.1 bounds.2
  generalize (signedProducts range other).1 = least at *
  generalize (signedProducts range other).2 = greatest at *
  have differ : least ≠ greatest + 1 := by
    intro same
    have halves := two_pow_pred (show 0 < W * 2 by omega)
    have equal := congrArg BitVec.toNat same
    have next := toNat_add_one (show 0 < W * 2 by omega) greatest
    have leastSign := toInt_cases least
    have greatestSign := toInt_cases greatest
    omega
  rw [getNonEmpty, if_neg differ] at inside
  exact inside

theorem contains_multiply (positive : 0 < W) (leftMember : range.contains left = true)
    (rightMember : other.contains right = true) :
    (range.multiply other).contains (left * right) = true := by
  have unsigned := contains_unsigned_product positive leftMember rightMember
  have signed := contains_signed_product positive leftMember rightMember
  rw [multiply, isEmptySet_of_contains positive leftMember,
    isEmptySet_of_contains positive rightMember]
  simp only [Bool.or_self, Bool.false_eq_true, if_false]
  split
  · exact unsigned
  split
  · exact unsigned
  · exact signed

/-! ### Sums and differences -/

/-- Equal bounds are only those of the empty and of the full set. -/
def Proper (range : ConstantRange W) : Prop :=
  range.Lower = range.Upper → range.Lower = getMaxValue W ∨ range.Lower = 0

def span (range : ConstantRange W) : Nat := (range.Upper - range.Lower).toNat

theorem toNat_sub_cases (left right : BitVec W) :
    (left - right).toNat + right.toNat = left.toNat ∨
      (left - right).toNat + right.toNat = left.toNat + 2 ^ W := by
  have leftLimit := left.isLt
  have rightLimit := right.isLt
  rw [BitVec.toNat_sub]
  by_cases order : right.toNat ≤ left.toNat
  · rw [show 2 ^ W - right.toNat + left.toNat = 2 ^ W + (left.toNat - right.toNat) by omega,
      Nat.add_mod_left, Nat.mod_eq_of_lt (by omega)]
    omega
  · rw [Nat.mod_eq_of_lt (by omega)]
    omega

section

variable (differ : range.Lower ≠ range.Upper)

include differ

theorem contains_iff_span :
    range.contains value = true ↔ (value - range.Lower).toNat < range.span := by
  have apart : range.Lower.toNat ≠ range.Upper.toNat := fun same =>
    differ (BitVec.eq_of_toNat_eq same)
  have offset := toNat_sub_cases value range.Lower
  have size := toNat_sub_cases range.Upper range.Lower
  have valueLimit := value.isLt
  have lowerLimit := range.Lower.isLt
  have upperLimit := range.Upper.isLt
  have offsetLimit := (value - range.Lower).isLt
  have sizeLimit := (range.Upper - range.Lower).isLt
  rw [contains_iff, span]
  omega

theorem span_pos : 0 < range.span := by
  have apart : range.Lower.toNat ≠ range.Upper.toNat := fun same =>
    differ (BitVec.eq_of_toNat_eq same)
  have size := toNat_sub_cases range.Upper range.Lower
  rw [span]
  omega

theorem isFullSet_of_ne : range.isFullSet = false := by
  rw [isFullSet, beq_eq_false_iff_ne.mpr differ, Bool.false_and]

theorem isEmptySet_of_ne : range.isEmptySet = false := by
  rw [isEmptySet, beq_eq_false_iff_ne.mpr differ, Bool.false_and]

end

theorem toNat_add_cases (left right : BitVec W) :
    (left + right).toNat = left.toNat + right.toNat ∨
      (left + right).toNat + 2 ^ W = left.toNat + right.toNat := by
  have leftLimit := left.isLt
  have rightLimit := right.isLt
  rw [BitVec.toNat_add]
  by_cases fits : left.toNat + right.toNat < 2 ^ W
  · rw [Nat.mod_eq_of_lt fits]
    exact Or.inl rfl
  · rw [Nat.mod_eq_sub_mod (by omega), Nat.mod_eq_of_lt (by omega)]
    omega

theorem toNat_wrapped_span (positive : 0 < W) {lower upper : BitVec W}
    (spans : upper - lower = range.Upper - range.Lower + (other.Upper - other.Lower) - 1) :
    (upper - lower).toNat + 1 = range.span + other.span ∨
      (upper - lower).toNat + 1 + 2 ^ W = range.span + other.span ∨
      range.span + other.span = 0 := by
  have sum := toNat_add_cases (range.Upper - range.Lower) (other.Upper - other.Lower)
  have less := toNat_sub_one positive
    (range.Upper - range.Lower + (other.Upper - other.Lower))
  rw [← spans] at less
  unfold span
  omega

section Sums

variable {lower upper : BitVec W} (rangeDiffer : range.Lower ≠ range.Upper)
  (otherDiffer : other.Lower ≠ other.Upper)
  (spans : upper - lower = range.Upper - range.Lower + (other.Upper - other.Lower) - 1)

include rangeDiffer otherDiffer spans

theorem orFullIfWrapped_eq (positive : 0 < W) :
    orFullIfWrapped range other lower upper =
      if range.span + other.span ≤ 2 ^ W then ⟨lower, upper⟩ else getFull W := by
  have rangeSize := span_pos rangeDiffer
  have otherSize := span_pos otherDiffer
  have size := toNat_wrapped_span positive spans
  have sizeLimit := (upper - lower).isLt
  have otherLimit : other.span < 2 ^ W := (other.Upper - other.Lower).isLt
  have apart := toNat_sub_cases upper lower
  unfold orFullIfWrapped
  by_cases same : lower = upper
  · rw [if_pos same, if_neg]
    rw [same, BitVec.sub_self] at size
    simp only [BitVec.toNat_ofNat, Nat.zero_mod] at size
    omega
  rw [if_neg same]
  have smaller : ∀ other : ConstantRange W, other.Lower ≠ other.Upper →
      (isSizeStrictlySmallerThan ⟨lower, upper⟩ other = true ↔ (upper - lower).toNat < other.span) := by
    intro other differ
    rw [isSizeStrictlySmallerThan, isFullSet_of_ne same, isFullSet_of_ne differ]
    simp only [Bool.false_eq_true, if_false, BitVec.ult_iff_toNat_lt, span]
  by_cases fits : range.span + other.span ≤ 2 ^ W
  · rw [if_pos fits, if_neg]
    rw [Bool.or_eq_true, smaller range rangeDiffer, smaller other otherDiffer]
    omega
  · rw [if_neg fits, if_pos]
    rw [Bool.or_eq_true, smaller range rangeDiffer]
    omega

end Sums

section Exactness

variable (positive : 0 < W) (rangeDiffer : range.Lower ≠ range.Upper)
  (otherDiffer : other.Lower ≠ other.Upper)

include rangeDiffer otherDiffer

theorem add_of_ne : range.add other =
    orFullIfWrapped range other (range.Lower + other.Lower) (range.Upper + other.Upper - 1) := by
  rw [add, isEmptySet_of_ne rangeDiffer, isEmptySet_of_ne otherDiffer,
    isFullSet_of_ne rangeDiffer, isFullSet_of_ne otherDiffer]
  rfl

theorem sub_of_ne : range.sub other =
    orFullIfWrapped range other (range.Lower - other.Upper + 1) (range.Upper - other.Lower) := by
  rw [sub, isEmptySet_of_ne rangeDiffer, isEmptySet_of_ne otherDiffer,
    isFullSet_of_ne rangeDiffer, isFullSet_of_ne otherDiffer]
  rfl

include positive

/-- The members of a sum that has not wrapped lie at a distance from the lower
bound that is a sum of two distances. -/
theorem contains_orFullIfWrapped_iff {lower upper : BitVec W}
    (spans : upper - lower = range.Upper - range.Lower + (other.Upper - other.Lower) - 1) :
    (orFullIfWrapped range other lower upper).contains value = true ↔
      2 ^ W < range.span + other.span ∨
        (value - lower).toNat + 1 < range.span + other.span := by
  have rangeSize := span_pos rangeDiffer
  have otherSize := span_pos otherDiffer
  have size := toNat_wrapped_span positive spans
  rw [orFullIfWrapped_eq rangeDiffer otherDiffer spans positive]
  by_cases fits : range.span + other.span ≤ 2 ^ W
  · have differ : lower ≠ upper := by
      intro same
      rw [same, BitVec.sub_self] at size
      simp only [BitVec.toNat_ofNat, Nat.zero_mod] at size
      omega
    rw [if_pos fits, contains_iff_span differ, span]
    change (value - lower).toNat < (upper - lower).toNat ↔ _
    omega
  · rw [if_neg fits]
    exact iff_of_true contains_getFull (Or.inl (not_le.mp fits))

end Exactness

theorem ne_of_contains (member : range.contains value = true) (notFull : ¬ range.isFullSet = true) :
    range.Lower ≠ range.Upper := by
  intro same
  rw [contains, if_pos same] at member
  exact notFull member

theorem contains_add (positive : 0 < W) (leftMember : range.contains left = true)
    (rightMember : other.contains right = true) :
    (range.add other).contains (left + right) = true := by
  by_cases full : (range.isFullSet || other.isFullSet) = true
  · rw [add, isEmptySet_of_contains positive leftMember,
      isEmptySet_of_contains positive rightMember, if_pos full]
    exact contains_getFull
  rw [Bool.or_eq_true, not_or] at full
  have rangeDiffer := ne_of_contains leftMember full.1
  have otherDiffer := ne_of_contains rightMember full.2
  have leftOffset := (contains_iff_span rangeDiffer).mp leftMember
  have rightOffset := (contains_iff_span otherDiffer).mp rightMember
  have offset : left + right - (range.Lower + other.Lower) =
      left - range.Lower + (right - other.Lower) := by grind
  have sum := toNat_add_cases (left - range.Lower) (right - other.Lower)
  rw [add_of_ne rangeDiffer otherDiffer,
    contains_orFullIfWrapped_iff positive rangeDiffer otherDiffer (by grind), offset]
  omega

theorem contains_sub (positive : 0 < W) (leftMember : range.contains left = true)
    (rightMember : other.contains right = true) :
    (range.sub other).contains (left - right) = true := by
  by_cases full : (range.isFullSet || other.isFullSet) = true
  · rw [sub, isEmptySet_of_contains positive leftMember,
      isEmptySet_of_contains positive rightMember, if_pos full]
    exact contains_getFull
  rw [Bool.or_eq_true, not_or] at full
  have rangeDiffer := ne_of_contains leftMember full.1
  have otherDiffer := ne_of_contains rightMember full.2
  have leftOffset := (contains_iff_span rangeDiffer).mp leftMember
  have rightOffset := (contains_iff_span otherDiffer).mp rightMember
  -- the distance of the right operand from the upper bound of its range
  have offset : left - right - (range.Lower - other.Upper + 1) =
      left - range.Lower + (other.Upper - other.Lower - 1 - (right - other.Lower)) := by grind
  have size := toNat_sub_one positive (other.Upper - other.Lower)
  have rest := toNat_sub_cases (other.Upper - other.Lower - 1) (right - other.Lower)
  have restLimit := (other.Upper - other.Lower - 1 - (right - other.Lower)).isLt
  have sum := toNat_add_cases (left - range.Lower)
    (other.Upper - other.Lower - 1 - (right - other.Lower))
  rw [sub_of_ne rangeDiffer otherDiffer,
    contains_orFullIfWrapped_iff positive rangeDiffer otherDiffer (by grind), offset]
  unfold span at *
  omega

theorem contains_offset {offset : Nat} (below : offset < range.span) :
    range.contains (range.Lower + BitVec.ofNat W offset) = true := by
  have limit : range.span < 2 ^ W := (range.Upper - range.Lower).isLt
  have differ : range.Lower ≠ range.Upper := by
    intro same
    rw [span, same, BitVec.sub_self] at below
    simp only [BitVec.toNat_ofNat, Nat.zero_mod] at below
    omega
  have back : range.Lower + BitVec.ofNat W offset - range.Lower = BitVec.ofNat W offset := by grind
  rw [contains_iff_span differ, back, BitVec.toNat_ofNat, Nat.mod_eq_of_lt (by omega)]
  exact below

theorem exists_members (rangeDiffer : range.Lower ≠ range.Upper)
    (otherDiffer : other.Lower ≠ other.Upper) {offset : BitVec W}
    (below : offset.toNat + 1 < range.span + other.span) :
    ∃ first second : Nat, first < range.span ∧ second < other.span ∧
      BitVec.ofNat W first + BitVec.ofNat W second = offset := by
  have rangeSize := span_pos rangeDiffer
  have otherSize := span_pos otherDiffer
  refine ⟨min offset.toNat (range.span - 1), offset.toNat - min offset.toNat (range.span - 1),
    by omega, by omega, ?_⟩
  rw [← BitVec.ofNat_add, Nat.add_sub_cancel' (Nat.min_le_left _ _), BitVec.ofNat_toNat,
    BitVec.setWidth_eq]

theorem Proper.cases (proper : range.Proper) :
    range.isFullSet = true ∨ range.isEmptySet = true ∨ range.Lower ≠ range.Upper := by
  by_cases same : range.Lower = range.Upper
  · rcases proper same with greatest | zero
    · left
      rw [isFullSet, Bool.and_eq_true, beq_iff_eq, beq_iff_eq]
      exact ⟨same, greatest⟩
    · right
      left
      rw [isEmptySet, Bool.and_eq_true, beq_iff_eq, beq_iff_eq]
      exact ⟨same, zero⟩
  · exact Or.inr (Or.inr same)

section

variable (positive : 0 < W) (rangeProper : range.Proper) (otherProper : other.Proper)

include positive rangeProper otherProper

/-- What a sum or difference of proper ranges that is not full says about its
members: neither operand is empty or full, and the distance is below the spans. -/
theorem offset_of_contains {lower upper : BitVec W}
    (spans : upper - lower = range.Upper - range.Lower + (other.Upper - other.Lower) - 1)
    {result : ConstantRange W}
    (shape : result = if range.isEmptySet || other.isEmptySet then getEmpty W
      else if range.isFullSet || other.isFullSet then getFull W
      else orFullIfWrapped range other lower upper)
    (notFull : ¬ result.isFullSet = true) (member : result.contains value = true) :
    range.Lower ≠ range.Upper ∧ other.Lower ≠ other.Upper ∧
      (value - lower).toNat + 1 < range.span + other.span := by
  have notEmpty := isEmptySet_of_contains positive member
  by_cases empty : (range.isEmptySet || other.isEmptySet) = true
  · rw [shape, if_pos empty] at notEmpty
    exact absurd notEmpty (by simp [isEmptySet, getEmpty])
  rw [if_neg empty] at shape
  by_cases full : (range.isFullSet || other.isFullSet) = true
  · rw [shape, if_pos full] at notFull
    exact absurd (isFullSet_getFull W) notFull
  rw [if_neg full] at shape
  rw [Bool.or_eq_true, not_or] at empty full
  have rangeDiffer : range.Lower ≠ range.Upper := by
    rcases rangeProper.cases with isFull | isEmpty | differ
    · exact absurd isFull full.1
    · exact absurd isEmpty empty.1
    · exact differ
  have otherDiffer : other.Lower ≠ other.Upper := by
    rcases otherProper.cases with isFull | isEmpty | differ
    · exact absurd isFull full.2
    · exact absurd isEmpty empty.2
    · exact differ
  rw [shape, contains_orFullIfWrapped_iff positive rangeDiffer otherDiffer spans] at member
  rw [shape, orFullIfWrapped_eq rangeDiffer otherDiffer spans positive] at notFull
  rcases member with wrapped | below
  · rw [if_neg (by omega)] at notFull
    exact absurd (isFullSet_getFull W) notFull
  · exact ⟨rangeDiffer, otherDiffer, below⟩

theorem exists_of_contains_add (notFull : ¬ (range.add other).isFullSet = true)
    (member : (range.add other).contains value = true) :
    ∃ left right, range.contains left = true ∧ other.contains right = true ∧
      left + right = value := by
  obtain ⟨rangeDiffer, otherDiffer, below⟩ := offset_of_contains positive rangeProper otherProper
    (show range.Upper + other.Upper - 1 - (range.Lower + other.Lower) = _ by grind) rfl notFull
    member
  obtain ⟨first, second, firstBelow, secondBelow, sum⟩ :=
    exists_members rangeDiffer otherDiffer below
  refine ⟨_, _, contains_offset firstBelow, contains_offset secondBelow, ?_⟩
  grind

theorem exists_of_contains_sub (notFull : ¬ (range.sub other).isFullSet = true)
    (member : (range.sub other).contains value = true) :
    ∃ left right, range.contains left = true ∧ other.contains right = true ∧
      left - right = value := by
  obtain ⟨rangeDiffer, otherDiffer, below⟩ := offset_of_contains positive rangeProper otherProper
    (show range.Upper - other.Lower - (range.Lower - other.Upper + 1) = _ by grind) rfl notFull
    member
  obtain ⟨first, second, firstBelow, secondBelow, sum⟩ :=
    exists_members rangeDiffer otherDiffer below
  -- the right operand counts down from the last member of its range
  have size := span_pos otherDiffer
  have limit : other.span < 2 ^ W := (other.Upper - other.Lower).isLt
  have last : BitVec.ofNat W (other.span - 1 - second) =
      other.Upper - other.Lower - 1 - BitVec.ofNat W second := by
    apply BitVec.eq_of_toNat_eq
    have less := toNat_sub_one positive (other.Upper - other.Lower)
    have rest := toNat_sub_cases (other.Upper - other.Lower - 1) (BitVec.ofNat W second)
    have restLimit := (other.Upper - other.Lower - 1 - BitVec.ofNat W second).isLt
    rw [BitVec.toNat_ofNat, Nat.mod_eq_of_lt (by omega)] at rest ⊢
    unfold span at *
    omega
  refine ⟨_, _, contains_offset firstBelow,
    contains_offset (show other.span - 1 - second < other.span by omega), ?_⟩
  rw [last]
  grind

end

end EvmBackend.ConstantRange
