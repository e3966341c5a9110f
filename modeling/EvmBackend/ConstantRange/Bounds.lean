/-
The operations that work on the hulls of their operands: minima and maxima,
division, logic, shifts and the saturating operations.

Each of these is monotone in its operands, so the result on two members lies
between the results on the ends of the hulls.
-/

import EvmBackend.ConstantRange.Members

namespace EvmBackend.ConstantRange

open APInt BitVec

variable {W : Nat} {range other : ConstantRange W} {left right : BitVec W}

theorem unsigned_hull (positive : 0 < W) (member : range.contains left = true) :
    range.getUnsignedMin.toNat ≤ left.toNat ∧ left.toNat ≤ range.getUnsignedMax.toNat :=
  ⟨getUnsignedMin_le member, le_getUnsignedMax positive member⟩

theorem signed_hull (positive : 0 < W) (member : range.contains left = true) :
    range.getSignedMin.toInt ≤ left.toInt ∧ left.toInt ≤ range.getSignedMax.toInt :=
  ⟨getSignedMin_le positive member, le_getSignedMax positive member⟩

section Hulls

variable (positive : 0 < W) (leftMember : range.contains left = true)
  (rightMember : other.contains right = true)

include positive leftMember rightMember

theorem contains_between_unsigned {value least greatest : BitVec W}
    (above : least.toNat ≤ value.toNat) (below : value.toNat ≤ greatest.toNat) :
    (between range other least greatest).contains value = true := by
  rw [between_eq positive leftMember rightMember]
  exact contains_unsigned positive above below

theorem contains_between_signed {value least greatest : BitVec W}
    (above : least.toInt ≤ value.toInt) (below : value.toInt ≤ greatest.toInt) :
    (between range other least greatest).contains value = true := by
  rw [between_eq positive leftMember rightMember]
  exact contains_signed positive above below

end Hulls

theorem toNat_umaxOf (left right : BitVec W) :
    (umaxOf left right).toNat = max left.toNat right.toNat := by
  unfold umaxOf
  split <;> rename_i order <;> rw [ult_iff_toNat_lt] at order <;> omega

theorem toNat_uminOf (left right : BitVec W) :
    (uminOf left right).toNat = min left.toNat right.toNat := by
  unfold uminOf
  split <;> rename_i order <;> rw [ult_iff_toNat_lt] at order <;> omega

theorem toInt_smaxOf (left right : BitVec W) :
    (smaxOf left right).toInt = max left.toInt right.toInt := by
  unfold smaxOf
  split <;> rename_i order <;> rw [slt_iff_toInt_lt] at order <;> omega

theorem toInt_sminOf (left right : BitVec W) :
    (sminOf left right).toInt = min left.toInt right.toInt := by
  unfold sminOf
  split <;> rename_i order <;> rw [slt_iff_toInt_lt] at order <;> omega

variable {value : Int} {low high : Nat}

section Operations

variable (positive : 0 < W) (leftMember : range.contains left = true)
  (rightMember : other.contains right = true)

include positive leftMember rightMember

theorem contains_umax : (range.umax other).contains (umaxOf left right) = true := by
  have leftHull := unsigned_hull positive leftMember
  have rightHull := unsigned_hull positive rightMember
  apply contains_between_unsigned positive leftMember rightMember
  · rw [toNat_umaxOf, toNat_umaxOf]
    omega
  · rw [toNat_umaxOf, toNat_umaxOf]
    omega

theorem contains_umin : (range.umin other).contains (uminOf left right) = true := by
  have leftHull := unsigned_hull positive leftMember
  have rightHull := unsigned_hull positive rightMember
  apply contains_between_unsigned positive leftMember rightMember
  · rw [toNat_uminOf, toNat_uminOf]
    omega
  · rw [toNat_uminOf, toNat_uminOf]
    omega

theorem contains_smax : (range.smax other).contains (smaxOf left right) = true := by
  have leftHull := signed_hull positive leftMember
  have rightHull := signed_hull positive rightMember
  apply contains_between_signed positive leftMember rightMember
  · rw [toInt_smaxOf, toInt_smaxOf]
    omega
  · rw [toInt_smaxOf, toInt_smaxOf]
    omega

theorem contains_smin : (range.smin other).contains (sminOf left right) = true := by
  have leftHull := signed_hull positive leftMember
  have rightHull := signed_hull positive rightMember
  apply contains_between_signed positive leftMember rightMember
  · rw [toInt_sminOf, toInt_sminOf]
    omega
  · rw [toInt_sminOf, toInt_sminOf]
    omega

omit leftMember in
theorem lowestDivisor_bounds (nonzero : 0 < right.toNat) :
    0 < other.lowestDivisor.toNat ∧ other.lowestDivisor.toNat ≤ right.toNat := by
  have least := getUnsignedMin_le rightMember
  rw [contains_iff] at rightMember
  unfold lowestDivisor
  by_cases fromZero : other.getUnsignedMin = 0
  · rw [if_pos fromZero]
    by_cases one : other.Upper.toNat = 1
    · rw [if_pos one]
      omega
    · rw [if_neg one, APInt.toNat_one positive]
      omega
  · have start : other.getUnsignedMin.toNat ≠ 0 := fun zero =>
      fromZero (eq_of_toNat_eq (by simpa using zero))
    rw [if_neg fromZero]
    omega

omit leftMember in
theorem getUnsignedMax_beq_zero (nonzero : 0 < right.toNat) :
    (other.getUnsignedMax == 0) = false := by
  have rightHull := unsigned_hull positive rightMember
  rw [beq_eq_false_iff_ne]
  intro zero
  have none := congrArg BitVec.toNat zero
  simp only [ofNat_eq_ofNat, toNat_ofNat, Nat.zero_mod] at none
  omega

theorem contains_udiv (nonzero : 0 < right.toNat) :
    (range.udiv other).contains (left / right) = true := by
  have leftHull := unsigned_hull positive leftMember
  have rightHull := unsigned_hull positive rightMember
  obtain ⟨divides, lowest⟩ := lowestDivisor_bounds positive rightMember nonzero
  rw [udiv, isEmptySet_of_contains positive leftMember,
    isEmptySet_of_contains positive rightMember,
    getUnsignedMax_beq_zero positive rightMember nonzero]
  apply contains_unsigned positive
  · rw [toNat_udiv, toNat_udiv]
    exact (Nat.div_le_div_right leftHull.1).trans (Nat.div_le_div_left rightHull.2 nonzero)
  · rw [toNat_udiv, toNat_udiv]
    exact (Nat.div_le_div_right leftHull.2).trans (Nat.div_le_div_left lowest divides)

theorem contains_urem (nonzero : 0 < right.toNat) :
    (range.urem other).contains (left % right) = true := by
  have leftHull := unsigned_hull positive leftMember
  have rightHull := unsigned_hull positive rightMember
  rw [urem, isEmptySet_of_contains positive leftMember,
    isEmptySet_of_contains positive rightMember,
    getUnsignedMax_beq_zero positive rightMember nonzero]
  simp only [Bool.or_self, Bool.false_eq_true, if_false]
  by_cases small : range.getUnsignedMax.ult other.getUnsignedMin = true
  · rw [if_pos small]
    rw [ult_iff_toNat_lt] at small
    rw [show left % right = left from eq_of_toNat_eq (by
      rw [toNat_umod, Nat.mod_eq_of_lt (by omega)])]
    exact leftMember
  · have remainder := Nat.mod_lt left.toNat nonzero
    have part := Nat.mod_le left.toNat right.toNat
    have last := toNat_sub_one positive other.getUnsignedMax
    rw [if_neg small]
    apply contains_unsigned positive
    · simp
    · rw [toNat_umod, toNat_uminOf]
      omega

theorem contains_binaryAnd : (range.binaryAnd other).contains (left &&& right) = true := by
  have leftHull := unsigned_hull positive leftMember
  have rightHull := unsigned_hull positive rightMember
  have leftPart : left.toNat &&& right.toNat ≤ left.toNat := Nat.and_le_left
  have rightPart : left.toNat &&& right.toNat ≤ right.toNat := Nat.and_le_right
  apply contains_between_unsigned positive leftMember rightMember
  · simp
  · rw [toNat_and, toNat_uminOf]
    omega

theorem contains_binaryOr : (range.binaryOr other).contains (left ||| right) = true := by
  have leftHull := unsigned_hull positive leftMember
  have rightHull := unsigned_hull positive rightMember
  have leftPart : left.toNat ≤ left.toNat ||| right.toNat := Nat.left_le_or
  have rightPart : right.toNat ≤ left.toNat ||| right.toNat := Nat.right_le_or
  rw [binaryOr, isEmptySet_of_contains positive leftMember,
    isEmptySet_of_contains positive rightMember]
  apply contains_getNonEmpty
  intro differ
  have start : (umaxOf range.getUnsignedMin other.getUnsignedMin).toNat ≠ 0 := fun zero =>
    differ (eq_of_toNat_eq (by simpa using zero))
  rw [toNat_umaxOf] at start
  rw [contains_mk_iff, toNat_umaxOf, toNat_or]
  simp only [ofNat_eq_ofNat, toNat_ofNat, Nat.zero_mod]
  omega

/-! ### Shifts -/

omit positive leftMember rightMember in
/-- A number with as many leading zeros as the shift amount keeps all its bits,
and leaves room for one more than the result. -/
theorem shifted_room {value : BitVec W} {amount : Nat} (some : 0 < amount)
    (room : amount ≤ countLeadingZeros value) : value.toNat * 2 ^ amount + 1 < 2 ^ W := by
  have within : amount ≤ W := room.trans (Nat.sub_le _ _)
  have active := getActiveBits_le value
  have small : value.toNat < 2 ^ (W - amount) := by
    rw [← getActiveBits_le_iff]
    unfold countLeadingZeros at room
    omega
  have two : 2 ^ 1 ≤ 2 ^ amount := Nat.pow_le_pow_right (by omega) some
  have split : 2 ^ W = 2 ^ (W - amount) * 2 ^ amount := by
    rw [← pow_add]
    congr 1
    omega
  have most : (value.toNat + 1) * 2 ^ amount ≤ 2 ^ (W - amount) * 2 ^ amount :=
    Nat.mul_le_mul_right _ small
  rw [Nat.add_mul] at most
  omega

omit positive leftMember rightMember in
theorem toNat_shiftLeft_of_lt {value amount : BitVec W}
    (small : value.toNat * 2 ^ amount.toNat < 2 ^ W) :
    (value <<< amount).toNat = value.toNat * 2 ^ amount.toNat := by
  rw [shiftLeft_eq', BitVec.toNat_shiftLeft, Nat.shiftLeft_eq, Nat.mod_eq_of_lt small]

theorem contains_shl : (range.shl other).contains (left <<< right) = true := by
  have leftHull := unsigned_hull positive leftMember
  have rightHull := unsigned_hull positive rightMember
  rw [shl, isEmptySet_of_contains positive leftMember,
    isEmptySet_of_contains positive rightMember]
  simp only [Bool.or_self, Bool.false_eq_true, if_false]
  by_cases none : other.getUnsignedMax = 0
  · rw [if_pos none]
    have noShift : right.toNat = 0 := by
      simp only [none, ofNat_eq_ofNat, toNat_ofNat, Nat.zero_mod] at rightHull
      omega
    rw [shiftLeft_eq', noShift, shiftLeft_zero]
    exact leftMember
  have amount : 0 < other.getUnsignedMax.toNat := Nat.pos_of_ne_zero fun zero =>
    none (eq_of_toNat_eq (by simpa using zero))
  rw [if_neg none]
  by_cases overflows : countLeadingZeros range.getUnsignedMax < other.getUnsignedMax.toNat
  · rw [if_pos overflows]
    exact contains_getFull
  rw [if_neg overflows]
  have room := shifted_room amount (not_lt.mp overflows)
  have scaled : ∀ {value shift : BitVec W}, value.toNat ≤ range.getUnsignedMax.toNat →
      shift.toNat ≤ other.getUnsignedMax.toNat →
      value.toNat * 2 ^ shift.toNat ≤
        range.getUnsignedMax.toNat * 2 ^ other.getUnsignedMax.toNat := by
    intro value shift lower shorter
    exact Nat.mul_le_mul lower (Nat.pow_le_pow_right (by omega) shorter)
  have most := scaled leftHull.2 rightHull.2
  have least := scaled (leftHull.1.trans leftHull.2) (rightHull.1.trans rightHull.2)
  have ordered : range.getUnsignedMin.toNat * 2 ^ other.getUnsignedMin.toNat ≤
      left.toNat * 2 ^ right.toNat :=
    Nat.mul_le_mul leftHull.1 (Nat.pow_le_pow_right (by omega) rightHull.1)
  have next := toNat_add_one positive (range.getUnsignedMax <<< other.getUnsignedMax)
  rw [toNat_shiftLeft_of_lt (by omega)] at next
  rw [contains_mk_iff, toNat_shiftLeft_of_lt (by omega), toNat_shiftLeft_of_lt (by omega)]
  omega

theorem contains_lshr : (range.lshr other).contains (left >>> right) = true := by
  have leftHull := unsigned_hull positive leftMember
  have rightHull := unsigned_hull positive rightMember
  have shifted : ∀ value amount : BitVec W,
      (value >>> amount).toNat = value.toNat / 2 ^ amount.toNat := by
    intro value amount
    rw [ushiftRight_eq', toNat_ushiftRight, Nat.shiftRight_eq_div_pow]
  have power : ∀ {low high : Nat}, low ≤ high → 2 ^ low ≤ 2 ^ high :=
    fun order => Nat.pow_le_pow_right (by omega) order
  apply contains_between_unsigned positive leftMember rightMember
  · rw [shifted, shifted]
    exact (Nat.div_le_div_right leftHull.1).trans
      (Nat.div_le_div_left (power rightHull.2) (Nat.two_pow_pos _))
  · rw [shifted, shifted]
    exact (Nat.div_le_div_right leftHull.2).trans
      (Nat.div_le_div_left (power rightHull.1) (Nat.two_pow_pos _))

omit positive leftMember rightMember in
theorem toInt_sshiftRight_eq (value amount : BitVec W) :
    (value.sshiftRight' amount).toInt = value.toInt / 2 ^ amount.toNat := by
  rw [BitVec.sshiftRight', BitVec.toInt_sshiftRight, Int.shiftRight_eq_div_pow]
  push_cast
  rfl

omit positive leftMember rightMember in
theorem shifted_nonneg (nonneg : 0 ≤ value) (order : low ≤ high) :
    value / 2 ^ high ≤ value / 2 ^ low := by
  obtain ⟨more, rfl⟩ := Nat.exists_eq_add_of_le order
  rw [pow_add, ← Int.ediv_ediv_of_nonneg (by positivity)]
  exact Int.ediv_le_self _ (Int.ediv_nonneg nonneg (by positivity))

omit positive leftMember rightMember in
theorem shifted_neg (negative : value < 0) (order : low ≤ high) :
    value / 2 ^ low ≤ value / 2 ^ high := by
  have least : (0 : Int) < 2 ^ low := by positivity
  have most : (0 : Int) < 2 ^ high := by positivity
  have power : (2 : Int) ^ low ≤ 2 ^ high := by gcongr; norm_num
  rw [Int.le_ediv_iff_mul_le most]
  have floor := Int.ediv_mul_le value least.ne'
  nlinarith

theorem contains_ashr : (range.ashr other).contains (left.sshiftRight' right) = true := by
  have leftHull := signed_hull positive leftMember
  have rightHull := unsigned_hull positive rightMember
  have scaled : ∀ {low high : Int} (amount : Nat), low ≤ high →
      low / 2 ^ amount ≤ high / 2 ^ amount :=
    fun amount order => Int.ediv_le_ediv (by positivity) order
  unfold ashr
  by_cases nonneg : isNonNegative range.getSignedMin = true
  · rw [if_pos nonneg]
    rw [isNonNegative_eq, decide_eq_true_eq] at nonneg
    apply contains_between_signed positive leftMember rightMember
    · rw [toInt_sshiftRight_eq, toInt_sshiftRight_eq]
      exact (scaled _ leftHull.1).trans (shifted_nonneg (nonneg.trans leftHull.1) rightHull.2)
    · rw [toInt_sshiftRight_eq, toInt_sshiftRight_eq]
      exact (shifted_nonneg (nonneg.trans leftHull.1) rightHull.1).trans (scaled _ leftHull.2)
  rw [if_neg nonneg]
  rw [isNonNegative_eq, decide_eq_true_eq, not_le] at nonneg
  by_cases negative : isNegative range.getSignedMax = true
  · rw [if_pos negative]
    rw [isNegative_eq, decide_eq_true_eq] at negative
    have below := leftHull.2.trans_lt negative
    apply contains_between_signed positive leftMember rightMember
    · rw [toInt_sshiftRight_eq, toInt_sshiftRight_eq]
      exact (scaled _ leftHull.1).trans (shifted_neg below rightHull.1)
    · rw [toInt_sshiftRight_eq, toInt_sshiftRight_eq]
      exact (shifted_neg below rightHull.2).trans (scaled _ leftHull.2)
  rw [if_neg negative]
  rw [isNegative_eq, decide_eq_true_eq, not_lt] at negative
  apply contains_between_signed positive leftMember rightMember
  · rw [toInt_sshiftRight_eq, toInt_sshiftRight_eq]
    exact (shifted_neg nonneg rightHull.1).trans (scaled _ leftHull.1)
  · rw [toInt_sshiftRight_eq, toInt_sshiftRight_eq]
    exact (scaled _ leftHull.2).trans (shifted_nonneg negative rightHull.1)

/-! ### Saturation -/

theorem contains_uadd_sat :
    (range.uadd_sat other).contains (APInt.uadd_sat left right) = true := by
  have leftHull := unsigned_hull positive leftMember
  have rightHull := unsigned_hull positive rightMember
  apply contains_between_unsigned positive leftMember rightMember
  · rw [toNat_uadd_sat, toNat_uadd_sat]
    omega
  · rw [toNat_uadd_sat, toNat_uadd_sat]
    omega

theorem contains_usub_sat :
    (range.usub_sat other).contains (APInt.usub_sat left right) = true := by
  have leftHull := unsigned_hull positive leftMember
  have rightHull := unsigned_hull positive rightMember
  apply contains_between_unsigned positive leftMember rightMember
  · rw [toNat_usub_sat, toNat_usub_sat]
    omega
  · rw [toNat_usub_sat, toNat_usub_sat]
    omega

theorem contains_umul_sat :
    (range.umul_sat other).contains (APInt.umul_sat left right) = true := by
  have leftHull := unsigned_hull positive leftMember
  have rightHull := unsigned_hull positive rightMember
  have least := Nat.mul_le_mul leftHull.1 rightHull.1
  have most := Nat.mul_le_mul leftHull.2 rightHull.2
  apply contains_between_unsigned positive leftMember rightMember
  · rw [toNat_umul_sat positive, toNat_umul_sat positive]
    omega
  · rw [toNat_umul_sat positive, toNat_umul_sat positive]
    omega

theorem contains_sadd_sat :
    (range.sadd_sat other).contains (APInt.sadd_sat left right) = true := by
  have leftHull := signed_hull positive leftMember
  have rightHull := signed_hull positive rightMember
  apply contains_between_signed positive leftMember rightMember
  · rw [toInt_sadd_sat positive, toInt_sadd_sat positive]
    exact saturate_mono (add_le_add leftHull.1 rightHull.1)
  · rw [toInt_sadd_sat positive, toInt_sadd_sat positive]
    exact saturate_mono (add_le_add leftHull.2 rightHull.2)

theorem contains_ssub_sat :
    (range.ssub_sat other).contains (APInt.ssub_sat left right) = true := by
  have leftHull := signed_hull positive leftMember
  have rightHull := signed_hull positive rightMember
  apply contains_between_signed positive leftMember rightMember
  · rw [toInt_ssub_sat positive, toInt_ssub_sat positive]
    exact saturate_mono (sub_le_sub leftHull.1 rightHull.2)
  · rw [toInt_ssub_sat positive, toInt_ssub_sat positive]
    exact saturate_mono (sub_le_sub leftHull.2 rightHull.1)

theorem contains_ushl_sat (below : right.toNat < W) :
    (range.ushl_sat other).contains (APInt.ushl_sat left right) = true := by
  have leftHull := unsigned_hull positive leftMember
  have rightHull := unsigned_hull positive rightMember
  have limit := (APInt.ushl_sat left right).isLt
  apply contains_between_unsigned positive leftMember rightMember
  · have least := Nat.mul_le_mul leftHull.1
      (Nat.pow_le_pow_right (show 0 < 2 by omega) rightHull.1)
    rw [toNat_ushl_sat below, toNat_ushl_sat (rightHull.1.trans_lt below)]
    omega
  · by_cases beyond : W ≤ other.getUnsignedMax.toNat
    · rw [ushl_sat_of_le beyond, toNat_getMaxValue]
      omega
    · have most := Nat.mul_le_mul leftHull.2
        (Nat.pow_le_pow_right (show 0 < 2 by omega) rightHull.2)
      rw [toNat_ushl_sat below, toNat_ushl_sat (not_le.mp beyond)]
      omega

omit positive leftMember rightMember in
theorem scaled_nonneg (nonneg : 0 ≤ value) (order : low ≤ high) :
    value * 2 ^ low ≤ value * 2 ^ high :=
  mul_le_mul_of_nonneg_left (pow_le_pow_right₀ (by norm_num) order) nonneg

omit positive leftMember rightMember in
theorem scaled_neg (negative : value < 0) (order : low ≤ high) :
    value * 2 ^ high ≤ value * 2 ^ low :=
  mul_le_mul_of_nonpos_left (pow_le_pow_right₀ (by norm_num) order) negative.le

omit leftMember rightMember in
theorem sshl_sat_le {edge amount : BitVec W} (low : edge.toInt ≤ left.toInt)
    (negative : edge.toInt < 0) (shorter : right.toNat ≤ amount.toNat) (below : right.toNat < W) :
    (APInt.sshl_sat edge amount).toInt ≤ (APInt.sshl_sat left right).toInt := by
  by_cases beyond : W ≤ amount.toNat
  · rw [sshl_sat_of_le beyond, isNegative_eq, decide_eq_true negative, signedBound, if_pos rfl,
      toInt_getSignedMinValue positive]
    exact (toInt_bounds _).1
  · rw [toInt_sshl_sat positive below, toInt_sshl_sat positive (not_le.mp beyond)]
    apply saturate_mono
    exact (scaled_neg negative shorter).trans (mul_le_mul_of_nonneg_right low (by positivity))

omit leftMember rightMember in
theorem le_sshl_sat {edge amount : BitVec W} (high : left.toInt ≤ edge.toInt)
    (nonneg : 0 ≤ edge.toInt) (shorter : right.toNat ≤ amount.toNat) (below : right.toNat < W) :
    (APInt.sshl_sat left right).toInt ≤ (APInt.sshl_sat edge amount).toInt := by
  by_cases beyond : W ≤ amount.toNat
  · rw [sshl_sat_of_le beyond, isNegative_eq, decide_eq_false (not_lt.mpr nonneg), signedBound,
      if_neg Bool.false_ne_true, toInt_getSignedMaxValue]
    have bounds := toInt_bounds (APInt.sshl_sat left right)
    omega
  · rw [toInt_sshl_sat positive below, toInt_sshl_sat positive (not_le.mp beyond)]
    apply saturate_mono
    exact (mul_le_mul_of_nonneg_right high (by positivity)).trans (scaled_nonneg nonneg shorter)

theorem contains_sshl_sat (below : right.toNat < W) :
    (range.sshl_sat other).contains (APInt.sshl_sat left right) = true := by
  have leftHull := signed_hull positive leftMember
  have rightHull := unsigned_hull positive rightMember
  have shortest := rightHull.1.trans_lt below
  apply contains_between_signed positive leftMember rightMember
  · by_cases nonneg : isNonNegative range.getSignedMin = true
    · rw [if_pos nonneg, toInt_sshl_sat positive below, toInt_sshl_sat positive shortest]
      rw [isNonNegative_eq, decide_eq_true_eq] at nonneg
      apply saturate_mono
      exact (scaled_nonneg nonneg rightHull.1).trans
        (mul_le_mul_of_nonneg_right leftHull.1 (by positivity))
    · rw [if_neg nonneg]
      rw [isNonNegative_eq, decide_eq_true_eq, not_le] at nonneg
      exact sshl_sat_le positive leftHull.1 nonneg rightHull.2 below
  · by_cases negative : isNegative range.getSignedMax = true
    · rw [if_pos negative, toInt_sshl_sat positive below, toInt_sshl_sat positive shortest]
      rw [isNegative_eq, decide_eq_true_eq] at negative
      apply saturate_mono
      exact (mul_le_mul_of_nonneg_right leftHull.2 (by positivity)).trans
        (scaled_neg negative rightHull.1)
    · rw [if_neg negative]
      rw [isNegative_eq, decide_eq_true_eq, not_lt] at negative
      exact le_sshl_sat positive leftHull.2 negative rightHull.2 below

end Operations

end EvmBackend.ConstantRange
