/-
Fixed-width integers as the range arithmetic uses them: counting of leading
bits and the saturating operations, on words of any width.

Each saturating operation computes a wrapped result and an overflow flag, and
its value is the exact result cut off at the ends of the signed or unsigned
range. The flag of the signed multiplication divides the product back and
misses the one overflow of width 1.
-/

import Mathlib.Tactic.Ring
import Mathlib.Tactic.Linarith
import Mathlib.Data.Nat.Log

namespace EvmBackend.APInt

variable {W : Nat}

def getMaxValue (W : Nat) : BitVec W := BitVec.allOnes W

def getSignedMinValue (W : Nat) : BitVec W := BitVec.intMin W

def getSignedMaxValue (W : Nat) : BitVec W := BitVec.intMax W

def isNegative (value : BitVec W) : Bool := value.msb

def isNonNegative (value : BitVec W) : Bool := !isNegative value

def isStrictlyPositive (value : BitVec W) : Bool := isNonNegative value && value != 0

def isMinSignedValue (value : BitVec W) : Bool := value == getSignedMinValue W

def getActiveBits (value : BitVec W) : Nat :=
  if value.toNat = 0 then 0 else value.toNat.log2 + 1

def countLeadingZeros (value : BitVec W) : Nat := W - getActiveBits value

def countLeadingOnes (value : BitVec W) : Nat := countLeadingZeros (~~~ value)

/-- The number of ones at the low end of a number with at most `bits` bits. -/
def trailingOnes : Nat → Nat → Nat
  | 0, _ => 0
  | bits + 1, value => if value % 2 = 1 then trailingOnes bits (value / 2) + 1 else 0

def trailingZeros : Nat → Nat → Nat
  | 0, _ => 0
  | bits + 1, value => if value % 2 = 1 then 0 else trailingZeros bits (value / 2) + 1

def countTrailingZeros (value : BitVec W) : Nat := trailingZeros W value.toNat

def countTrailingOnes (value : BitVec W) : Nat := trailingOnes W value.toNat

def getMinSignedBits (value : BitVec W) : Nat :=
  if isNegative value then W - countLeadingOnes value + 1 else getActiveBits value + 1

def getOneBitSet (W bit : Nat) : BitVec W := BitVec.ofNat W (2 ^ bit)

def getLowBitsSet (W bits : Nat) : BitVec W := BitVec.ofNat W (2 ^ bits - 1)

def getHighBitsSet (W bits : Nat) : BitVec W := ~~~ getLowBitsSet W (W - bits)

def getBitsSetFrom (W bit : Nat) : BitVec W := ~~~ getLowBitsSet W bit

def sadd_ov (left right : BitVec W) : BitVec W × Bool :=
  let res := left + right
  (res, isNonNegative left == isNonNegative right && isNonNegative res != isNonNegative left)

def uadd_ov (left right : BitVec W) : BitVec W × Bool :=
  let res := left + right
  (res, res.ult right)

def ssub_ov (left right : BitVec W) : BitVec W × Bool :=
  let res := left - right
  (res, isNonNegative left != isNonNegative right && isNonNegative res != isNonNegative left)

def usub_ov (left right : BitVec W) : BitVec W × Bool :=
  let res := left - right
  (res, left.ult res)

def smul_ov (left right : BitVec W) : BitVec W × Bool :=
  let res := left * right
  if left ≠ 0 ∧ right ≠ 0 then (res, res.sdiv right != left || res.sdiv left != right)
  else (res, false)

def umul_ov (left right : BitVec W) : BitVec W × Bool :=
  if countLeadingZeros left + countLeadingZeros right + 2 ≤ W then (left * right, true)
  else
    let res := (left >>> 1) * right
    let overflow := isNegative res
    let res := res <<< 1
    if left.getLsbD 0 then
      let res := res + right
      (res, overflow || res.ult right)
    else (res, overflow)

def sshl_ov (left amount : BitVec W) : BitVec W × Bool :=
  if W ≤ amount.toNat then (0, true)
  else if isNonNegative left then
    (left <<< amount, decide (countLeadingZeros left ≤ amount.toNat))
  else (left <<< amount, decide (countLeadingOnes left ≤ amount.toNat))

def ushl_ov (left amount : BitVec W) : BitVec W × Bool :=
  if W ≤ amount.toNat then (0, true)
  else (left <<< amount, decide (countLeadingZeros left < amount.toNat))

def orBound (result : BitVec W × Bool) (bound : BitVec W) : BitVec W :=
  if result.2 then bound else result.1

def signedBound (negative : Bool) : BitVec W :=
  if negative then getSignedMinValue W else getSignedMaxValue W

def sadd_sat (left right : BitVec W) : BitVec W :=
  orBound (sadd_ov left right) (signedBound (isNegative left))

def uadd_sat (left right : BitVec W) : BitVec W := orBound (uadd_ov left right) (getMaxValue W)

def ssub_sat (left right : BitVec W) : BitVec W :=
  orBound (ssub_ov left right) (signedBound (isNegative left))

def usub_sat (left right : BitVec W) : BitVec W := orBound (usub_ov left right) 0

def smul_sat (left right : BitVec W) : BitVec W :=
  orBound (smul_ov left right) (signedBound (isNegative left ^^ isNegative right))

def umul_sat (left right : BitVec W) : BitVec W := orBound (umul_ov left right) (getMaxValue W)

def sshl_sat (left amount : BitVec W) : BitVec W :=
  orBound (sshl_ov left amount) (signedBound (isNegative left))

def ushl_sat (left amount : BitVec W) : BitVec W := orBound (ushl_ov left amount) (getMaxValue W)

def truncSSat (width : Nat) (value : BitVec W) : BitVec width :=
  if getMinSignedBits value ≤ width then value.setWidth width
  else if isNegative value then getSignedMinValue width else getSignedMaxValue width

theorem getActiveBits_le_iff (value : BitVec W) (bits : Nat) :
    getActiveBits value ≤ bits ↔ value.toNat < 2 ^ bits := by
  unfold getActiveBits
  by_cases zero : value.toNat = 0
  · rw [if_pos zero, zero]
    simp
  · rw [if_neg zero, ← Nat.log2_lt zero]
    omega

theorem getActiveBits_le (value : BitVec W) : getActiveBits value ≤ W :=
  (getActiveBits_le_iff value W).mpr value.isLt

theorem trailingOnes_full (bits more : Nat) (small : bits ≤ more) :
    trailingOnes more (2 ^ bits - 1) = bits := by
  induction bits generalizing more with
  | zero =>
      cases more with
      | zero => rfl
      | succ more => simp [trailingOnes]
  | succ bits ih =>
      cases more with
      | zero => omega
      | succ more =>
          have positive := Nat.two_pow_pos bits
          have odd : (2 ^ (bits + 1) - 1) % 2 = 1 := by
            rw [pow_succ]
            omega
          have half : (2 ^ (bits + 1) - 1) / 2 = 2 ^ bits - 1 := by
            rw [pow_succ]
            omega
          rw [trailingOnes, if_pos odd, half, ih more (by omega)]

theorem trailingZeros_spec (bits value : Nat) (some : value ≠ 0) (bounded : value < 2 ^ bits) :
    trailingZeros bits value < bits ∧ 2 ^ trailingZeros bits value ∣ value ∧
      value / 2 ^ trailingZeros bits value % 2 = 1 := by
  induction bits generalizing value with
  | zero => omega
  | succ bits ih =>
      rw [pow_succ] at bounded
      by_cases odd : value % 2 = 1
      · rw [trailingZeros, if_pos odd, pow_zero, Nat.div_one]
        exact ⟨Nat.succ_pos _, one_dvd _, odd⟩
      · obtain ⟨below, divides, rest⟩ := ih (value / 2) (by omega) (by omega)
        have even : 2 * (value / 2) = value := by omega
        rw [trailingZeros, if_neg odd, pow_succ', ← Nat.div_div_eq_div_mul]
        have whole := Nat.mul_dvd_mul_left 2 divides
        rw [even] at whole
        exact ⟨Nat.succ_lt_succ below, whole, rest⟩

theorem toNat_getMaxValue (W : Nat) : (getMaxValue W).toNat = 2 ^ W - 1 := BitVec.toNat_allOnes

theorem two_pow_pred (positive : 0 < W) : 2 ^ W = 2 * 2 ^ (W - 1) := by
  obtain ⟨less, rfl⟩ : ∃ less, W = less + 1 := ⟨W - 1, by omega⟩
  rw [pow_succ, Nat.add_sub_cancel, Nat.mul_comm]

theorem ne_zero_of_toNat {value : BitVec W} (some : 0 < value.toNat) : value ≠ 0 := by
  intro zero
  rw [zero] at some
  exact absurd some (by simp)

theorem toNat_one (positive : 0 < W) : (1 : BitVec W).toNat = 1 := BitVec.toNat_one positive

/-! ### Unsigned saturation -/

/-- A result with its flag is the exact value, or the largest word where the flag
tells that the exact value is larger. -/
theorem toNat_orBound {result : BitVec W × Bool} {value : Nat} (wrapped : result.1.toNat = value % 2 ^ W)
    (flag : result.2 = true ↔ 2 ^ W ≤ value) :
    (orBound result (getMaxValue W)).toNat = min value (2 ^ W - 1) := by
  unfold orBound
  by_cases large : 2 ^ W ≤ value
  · rw [if_pos (flag.mpr large), toNat_getMaxValue]
    omega
  · rw [if_neg (mt flag.mp large), wrapped, Nat.mod_eq_of_lt (Nat.lt_of_not_le large)]
    omega

theorem uadd_ov_flag (left right : BitVec W) :
    (uadd_ov left right).2 = true ↔ 2 ^ W ≤ left.toNat + right.toNat := by
  have leftBound := left.isLt
  have rightBound := right.isLt
  change (left + right).ult right = true ↔ _
  rw [BitVec.ult_eq_decide, decide_eq_true_eq, BitVec.toNat_add]
  by_cases fits : left.toNat + right.toNat < 2 ^ W
  · rw [Nat.mod_eq_of_lt fits]
    omega
  · rw [Nat.mod_eq_sub_mod (Nat.le_of_not_lt fits), Nat.mod_eq_of_lt (by omega)]
    omega

theorem toNat_uadd_sat (left right : BitVec W) :
    (uadd_sat left right).toNat = min (left.toNat + right.toNat) (2 ^ W - 1) :=
  toNat_orBound (BitVec.toNat_add left right) (uadd_ov_flag left right)

theorem usub_ov_flag (left right : BitVec W) :
    (usub_ov left right).2 = true ↔ left.toNat < right.toNat := by
  have leftBound := left.isLt
  have rightBound := right.isLt
  change left.ult (left - right) = true ↔ _
  rw [BitVec.ult_eq_decide, decide_eq_true_eq, BitVec.toNat_sub]
  by_cases less : left.toNat < right.toNat
  · rw [Nat.mod_eq_of_lt (by omega)]
    omega
  · have once : 2 ^ W - right.toNat + left.toNat = 2 ^ W + (left.toNat - right.toNat) := by omega
    rw [once, Nat.add_mod_left, Nat.mod_eq_of_lt (by omega)]
    omega

theorem toNat_usub_sat (left right : BitVec W) :
    (usub_sat left right).toNat = left.toNat - right.toNat := by
  have flag := usub_ov_flag left right
  unfold usub_sat orBound
  by_cases less : left.toNat < right.toNat
  · have none : (0 : BitVec W).toNat = 0 := BitVec.toNat_ofNat 0 W
    rw [if_pos (flag.mpr less), none]
    omega
  · rw [if_neg (mt flag.mp less)]
    exact BitVec.toNat_sub_of_le (BitVec.le_def.mpr (Nat.le_of_not_lt less))

theorem ushl_ov_flag {left amount : BitVec W} (below : amount.toNat < W) :
    (ushl_ov left amount).2 = true ↔ 2 ^ W ≤ left.toNat * 2 ^ amount.toNat := by
  have split : 2 ^ W = 2 ^ (W - amount.toNat) * 2 ^ amount.toNat := by
    rw [← pow_add, Nat.sub_add_cancel (Nat.le_of_lt below)]
  have active := getActiveBits_le left
  have fits := getActiveBits_le_iff left (W - amount.toNat)
  rw [ushl_ov, if_neg (not_le.mpr below), decide_eq_true_eq, split,
    Nat.mul_le_mul_right_iff (Nat.two_pow_pos amount.toNat), ← Nat.not_lt, ← fits]
  unfold countLeadingZeros
  omega

theorem ushl_ov_value {left amount : BitVec W} (below : amount.toNat < W) :
    (ushl_ov left amount).1.toNat = left.toNat * 2 ^ amount.toNat % 2 ^ W := by
  rw [ushl_ov, if_neg (not_le.mpr below), BitVec.shiftLeft_eq', BitVec.toNat_shiftLeft, Nat.shiftLeft_eq]

theorem toNat_ushl_sat {left amount : BitVec W} (below : amount.toNat < W) :
    (ushl_sat left amount).toNat = min (left.toNat * 2 ^ amount.toNat) (2 ^ W - 1) :=
  toNat_orBound (ushl_ov_value below) (ushl_ov_flag below)

theorem ushl_sat_of_le {left amount : BitVec W} (beyond : W ≤ amount.toNat) :
    ushl_sat left amount = getMaxValue W := by
  unfold ushl_sat orBound ushl_ov
  rw [if_pos beyond]
  rfl

theorem le_mul_of_countLeadingZeros {left right : BitVec W}
    (large : countLeadingZeros left + countLeadingZeros right + 2 ≤ W) :
    2 ^ W ≤ left.toNat * right.toNat := by
  have least : ∀ value : BitVec W, countLeadingZeros value + 1 ≤ W →
      2 ^ (W - countLeadingZeros value - 1) ≤ value.toNat := by
    intro value some
    have active := getActiveBits_le value
    have above := getActiveBits_le_iff value (W - countLeadingZeros value - 1)
    unfold countLeadingZeros at some above ⊢
    omega
  calc 2 ^ W
      ≤ 2 ^ (W - countLeadingZeros left - 1 + (W - countLeadingZeros right - 1)) :=
        Nat.pow_le_pow_right (by omega) (by omega)
    _ = 2 ^ (W - countLeadingZeros left - 1) * 2 ^ (W - countLeadingZeros right - 1) :=
        pow_add _ _ _
    _ ≤ left.toNat * right.toNat :=
        Nat.mul_le_mul (least left (by omega)) (least right (by omega))

theorem half_mul_lt {left right : BitVec W}
    (small : ¬ countLeadingZeros left + countLeadingZeros right + 2 ≤ W) :
    left.toNat / 2 * right.toNat < 2 ^ W := by
  have leftActive := getActiveBits_le left
  have rightActive := getActiveBits_le right
  have leftBound := (getActiveBits_le_iff left _).mp (Nat.le_refl _)
  have rightBound := (getActiveBits_le_iff right _).mp (Nat.le_refl _)
  unfold countLeadingZeros at small
  by_cases zero : getActiveBits left = 0
  · rw [zero] at leftBound
    have none : left.toNat / 2 = 0 := by omega
    rw [none, Nat.zero_mul]
    exact Nat.two_pow_pos W
  · have halfBound : left.toNat / 2 < 2 ^ (getActiveBits left - 1) := by
      have twice : 2 ^ getActiveBits left = 2 * 2 ^ (getActiveBits left - 1) :=
        two_pow_pred (by omega)
      omega
    calc left.toNat / 2 * right.toNat
        < 2 ^ (getActiveBits left - 1) * 2 ^ getActiveBits right :=
          Nat.mul_lt_mul'' halfBound rightBound
      _ = 2 ^ (getActiveBits left - 1 + getActiveBits right) := (pow_add _ _ _).symm
      _ ≤ 2 ^ W := Nat.pow_le_pow_right (by omega) (by omega)

theorem umul_ov_spec (positive : 0 < W) (left right : BitVec W) :
    (umul_ov left right).1.toNat = left.toNat * right.toNat % 2 ^ W ∧
      ((umul_ov left right).2 = true ↔ 2 ^ W ≤ left.toNat * right.toNat) := by
  unfold umul_ov
  by_cases large : countLeadingZeros left + countLeadingZeros right + 2 ≤ W
  · rw [if_pos large]
    exact ⟨BitVec.toNat_mul .., fun _ => le_mul_of_countLeadingZeros large, fun _ => rfl⟩
  · have small := half_mul_lt large
    have halves := two_pow_pred positive
    have rightBound := right.isLt
    have product : ((left >>> 1) * right).toNat = left.toNat / 2 * right.toNat := by
      rw [BitVec.toNat_mul, BitVec.toNat_ushiftRight, Nat.shiftRight_one, Nat.mod_eq_of_lt small]
    have flag : isNegative ((left >>> 1) * right) =
        decide (2 ^ W ≤ 2 * (left.toNat / 2 * right.toNat)) := by
      rw [isNegative, BitVec.msb_eq_decide, product]
      congr 1
      rw [halves]
      apply propext
      omega
    have doubled : (((left >>> 1) * right) <<< 1).toNat =
        2 * (left.toNat / 2 * right.toNat) % 2 ^ W := by
      rw [BitVec.toNat_shiftLeft, product, Nat.shiftLeft_eq, Nat.mul_comm, pow_one]
    have low : left.getLsbD 0 = decide (left.toNat % 2 = 1) := Nat.testBit_zero _
    have whole : left.toNat * right.toNat =
        2 * (left.toNat / 2 * right.toNat) + left.toNat % 2 * right.toNat := by
      rw [← Nat.mul_assoc, ← Nat.add_mul, Nat.div_add_mod]
    rw [if_neg large]
    simp only [flag, low, decide_eq_true_eq]
    by_cases odd : left.toNat % 2 = 1
    · rw [odd, Nat.one_mul] at whole
      have sum : (((left >>> 1) * right) <<< 1 + right).toNat =
          (2 * (left.toNat / 2 * right.toNat) + right.toNat) % 2 ^ W := by
        rw [BitVec.toNat_add, doubled, Nat.mod_add_mod]
      simp only [if_pos odd, Bool.or_eq_true, decide_eq_true_eq, BitVec.ult]
      rw [sum, whole]
      refine ⟨rfl, ?_⟩
      by_cases already : 2 ^ W ≤ 2 * (left.toNat / 2 * right.toNat)
      · exact ⟨fun _ => by omega, fun _ => .inl already⟩
      · by_cases fits : 2 * (left.toNat / 2 * right.toNat) + right.toNat < 2 ^ W
        · rw [Nat.mod_eq_of_lt fits]
          omega
        · rw [Nat.mod_eq_sub_mod (by omega), Nat.mod_eq_of_lt (by omega)]
          omega
    · have even : left.toNat % 2 = 0 := by omega
      rw [even, Nat.zero_mul, Nat.add_zero] at whole
      simp only [if_neg odd, decide_eq_true_eq]
      rw [doubled, whole]
      exact ⟨rfl, Iff.rfl⟩

theorem toNat_umul_sat (positive : 0 < W) (left right : BitVec W) :
    (umul_sat left right).toNat = min (left.toNat * right.toNat) (2 ^ W - 1) :=
  toNat_orBound (umul_ov_spec positive left right).1 (umul_ov_spec positive left right).2

/-! ### Signed saturation -/

def saturate (W : Nat) (value : Int) : Int :=
  max (-(2 ^ (W - 1) : Nat)) (min value ((2 ^ (W - 1) : Nat) - 1))

theorem saturate_mono {left right : Int} (below : left ≤ right) :
    saturate W left ≤ saturate W right := by
  unfold saturate
  omega

theorem toInt_bounds (value : BitVec W) :
    -(2 ^ (W - 1) : Nat) ≤ value.toInt ∧ value.toInt < (2 ^ (W - 1) : Nat) := by
  have lower := BitVec.le_toInt value
  have upper := BitVec.toInt_lt (x := value)
  push_cast
  exact ⟨lower, upper⟩

theorem toInt_ofInt_of_range {value : Int} (positive : 0 < W) (low : -(2 ^ (W - 1) : Nat) ≤ value)
    (high : value < (2 ^ (W - 1) : Nat)) : (BitVec.ofInt W value).toInt = value := by
  have double := two_pow_pred positive
  rw [BitVec.toInt_ofInt]
  apply Int.bmod_eq_of_le
  · omega
  · omega

theorem toInt_getSignedMinValue (positive : 0 < W) :
    (getSignedMinValue W).toInt = -(2 ^ (W - 1) : Nat) := by
  push_cast
  exact BitVec.toInt_intMin_of_pos positive

theorem toInt_getSignedMaxValue : (getSignedMaxValue W).toInt = (2 ^ (W - 1) : Nat) - 1 := by
  push_cast
  exact BitVec.toInt_intMax

theorem toInt_ne_zero {value : BitVec W} (nonzero : value ≠ 0) : value.toInt ≠ 0 :=
  fun zero => nonzero (BitVec.eq_of_toInt_eq (zero.trans BitVec.toInt_zero.symm))

theorem isNegative_eq (value : BitVec W) : isNegative value = decide (value.toInt < 0) :=
  BitVec.msb_eq_toInt

theorem isNonNegative_eq (value : BitVec W) :
    isNonNegative value = decide (0 ≤ value.toInt) := by
  rw [isNonNegative, isNegative_eq, ← decide_not, decide_eq_decide]
  omega

theorem isStrictlyPositive_eq (value : BitVec W) :
    isStrictlyPositive value = decide (0 < value.toInt) := by
  have zero : value = 0 ↔ value.toInt = 0 :=
    ⟨fun same => by rw [same]; exact BitVec.toInt_zero,
      fun same => BitVec.eq_of_toInt_eq (same.trans BitVec.toInt_zero.symm)⟩
  rw [isStrictlyPositive, isNonNegative_eq, bne, beq_eq_decide, ← decide_not, ← Bool.decide_and,
    decide_eq_decide, zero]
  omega

theorem bmod_cases (positive : 0 < W) (value : Int) (low : -(2 ^ W : Nat) ≤ value)
    (high : value < (2 ^ W : Nat)) :
    (value.bmod (2 ^ W) = value ∧ -(2 ^ (W - 1) : Nat) ≤ value ∧ value < (2 ^ (W - 1) : Nat)) ∨
      (value.bmod (2 ^ W) = value - (2 ^ W : Nat) ∧ (2 ^ (W - 1) : Nat) ≤ value) ∨
      (value.bmod (2 ^ W) = value + (2 ^ W : Nat) ∧ value < -(2 ^ (W - 1) : Nat)) := by
  have halves := two_pow_pred positive
  have half := Nat.two_pow_pos (W - 1)
  have known := fun other => Int.bmod_eq_iff (a := value) (c := other) (Nat.two_pow_pos W)
  rcases lt_or_ge value (2 ^ (W - 1) : Nat) with below | above
  · rcases le_or_gt (-((2 ^ (W - 1) : Nat) : Int)) value with within | under
    · refine Or.inl ⟨(known value).mpr ⟨by omega, by omega, by simp⟩, within, below⟩
    · refine Or.inr (Or.inr ⟨(known _).mpr ⟨by omega, by omega, by simp⟩, under⟩)
  · refine Or.inr (Or.inl ⟨(known _).mpr ⟨by omega, by omega, by simp⟩, above⟩)

theorem toInt_signedBound (positive : 0 < W) (negative : Bool) :
    (signedBound negative : BitVec W).toInt =
      if negative then -((2 ^ (W - 1) : Nat) : Int) else ((2 ^ (W - 1) : Nat) : Int) - 1 := by
  cases negative with
  | true => exact toInt_getSignedMinValue positive
  | false => exact toInt_getSignedMaxValue

def InSigned (W : Nat) (value : Int) : Prop :=
  -(2 ^ (W - 1) : Nat) ≤ value ∧ value < (2 ^ (W - 1) : Nat)

section

variable (positive : 0 < W)

include positive

theorem bmod_of_inSigned {value : Int} (inside : InSigned W value) :
    value.bmod (2 ^ W) = value := by
  have halves := two_pow_pred positive
  unfold InSigned at inside
  exact (Int.bmod_eq_iff (Nat.two_pow_pos W)).mpr ⟨by omega, by omega, by simp⟩

/-- A result with its flag saturates the exact value when the flag tells that
the exact value is out of range, and the sign on which side. -/
theorem toInt_orBound {result : BitVec W × Bool} {negative : Bool}
    {value : Int} (wrapped : result.1.toInt = value.bmod (2 ^ W))
    (flag : result.2 = true ↔ ¬ InSigned W value)
    (side : ¬ InSigned W value → (negative = true ↔ value < 0)) :
    (orBound result (signedBound negative)).toInt = saturate W value := by
  have half := Nat.two_pow_pos (W - 1)
  by_cases inside : InSigned W value
  · have clear : ¬ result.2 = true := fun overflow => flag.mp overflow inside
    rw [orBound, if_neg clear, wrapped, bmod_of_inSigned positive inside]
    unfold InSigned at inside
    unfold saturate
    omega
  · have sign := side inside
    rw [orBound, if_pos (flag.mpr inside), toInt_signedBound positive]
    unfold InSigned at inside
    unfold saturate
    by_cases below : value < 0
    · rw [if_pos (sign.mpr below)]
      omega
    · rw [if_neg (fun negative => below (sign.mp negative))]
      omega

theorem sadd_ov_flag (left right : BitVec W) :
    (sadd_ov left right).2 = true ↔ ¬ InSigned W (left.toInt + right.toInt) := by
  have halves := two_pow_pred positive
  have leftBounds := toInt_bounds left
  have rightBounds := toInt_bounds right
  have wraps := bmod_cases positive (left.toInt + right.toInt) (by omega) (by omega)
  rw [← BitVec.toInt_add left right] at wraps
  simp only [sadd_ov, isNonNegative_eq, Bool.and_eq_true, beq_iff_eq, bne_iff_ne, ne_eq,
    decide_eq_decide, InSigned]
  omega

theorem toInt_sadd_sat (left right : BitVec W) :
    (sadd_sat left right).toInt = saturate W (left.toInt + right.toInt) := by
  have leftBounds := toInt_bounds left
  have rightBounds := toInt_bounds right
  apply toInt_orBound positive (BitVec.toInt_add left right) (sadd_ov_flag positive left right)
  rw [isNegative_eq, decide_eq_true_eq]
  unfold InSigned
  omega

theorem ssub_ov_flag (left right : BitVec W) :
    (ssub_ov left right).2 = true ↔ ¬ InSigned W (left.toInt - right.toInt) := by
  have halves := two_pow_pred positive
  have leftBounds := toInt_bounds left
  have rightBounds := toInt_bounds right
  have difference : (left - right).toInt = (left.toInt - right.toInt).bmod (2 ^ W) :=
    BitVec.toInt_sub
  have wraps := bmod_cases positive (left.toInt - right.toInt) (by omega) (by omega)
  rw [← difference] at wraps
  simp only [ssub_ov, isNonNegative_eq, Bool.and_eq_true, bne_iff_ne, ne_eq,
    decide_eq_decide, InSigned]
  omega

theorem toInt_ssub_sat (left right : BitVec W) :
    (ssub_sat left right).toInt = saturate W (left.toInt - right.toInt) := by
  have leftBounds := toInt_bounds left
  have rightBounds := toInt_bounds right
  apply toInt_orBound positive BitVec.toInt_sub (ssub_ov_flag positive left right)
  rw [isNegative_eq, decide_eq_true_eq]
  unfold InSigned
  omega

/-! ### Signed multiplication -/

/-- Dividing the wrapped product by a factor gives the other factor back only
if nothing was lost, or in the one division that overflows itself. -/
theorem product_of_sdiv {left right : BitVec W} (nonzero : right ≠ 0)
    (back : (left * right).sdiv right = left) :
    InSigned W (left.toInt * right.toInt) ∨
      left * right = getSignedMinValue W ∧ right = -1#W := by
  by_cases overflows : left * right = getSignedMinValue W ∧ right = -1#W
  · exact Or.inr overflows
  · left
    have halves := two_pow_pred positive
    have half := Nat.two_pow_pos (W - 1)
    have rightBounds := toInt_bounds right
    have divisor := toInt_ne_zero nonzero
    have quotient : (left * right).toInt.tdiv right.toInt = left.toInt := by
      rw [← BitVec.toInt_sdiv_of_ne_or_ne, back]
      by_cases first : left * right = BitVec.intMin W
      · exact Or.inr fun second => overflows ⟨first, second⟩
      · exact Or.inl first
    have wrapped : (left * right).toInt = (left.toInt * right.toInt).bmod (2 ^ W) :=
      BitVec.toInt_mul _ _
    have division := Int.mul_tdiv_add_tmod (left * right).toInt right.toInt
    have small : ((left * right).toInt.tmod right.toInt).natAbs < right.toInt.natAbs := by
      rw [Int.natAbs_tmod]
      exact Nat.mod_lt _ (Int.natAbs_pos.mpr divisor)
    rw [quotient] at division
    -- the remainder is a multiple of the whole range, and smaller than it
    have multiple : ((2 ^ W : Nat) : Int) ∣ (left * right).toInt.tmod right.toInt := by
      have apart : ((2 ^ W : Nat) : Int) ∣
          (left.toInt * right.toInt).bmod (2 ^ W) - left.toInt * right.toInt :=
        Int.dvd_bmod_sub_self
      rw [← wrapped] at apart
      have same : (left * right).toInt - left.toInt * right.toInt =
          (left * right).toInt.tmod right.toInt := by
        rw [Int.mul_comm] at division
        omega
      rw [← same]
      exact apart
    have none : (left * right).toInt.tmod right.toInt = 0 := by
      apply Int.eq_zero_of_dvd_of_natAbs_lt_natAbs multiple
      rw [Int.natAbs_natCast]
      omega
    rw [none, Int.add_zero, Int.mul_comm] at division
    rw [InSigned, division]
    exact toInt_bounds (left * right)

theorem sdiv_of_product {left right : BitVec W} (nonzero : right ≠ 0)
    (inside : InSigned W (left.toInt * right.toInt)) : (left * right).sdiv right = left := by
  have divisor := toInt_ne_zero nonzero
  apply BitVec.eq_of_toInt_eq
  rw [BitVec.toInt_sdiv, BitVec.toInt_mul, bmod_of_inSigned positive inside,
    Int.mul_tdiv_cancel _ divisor]
  exact bmod_of_inSigned positive (toInt_bounds left)

theorem smul_ov_flag {left right : BitVec W}
    (wider : ¬ (W = 1 ∧ left = -1#W ∧ right = -1#W)) :
    (smul_ov left right).2 = true ↔ ¬ InSigned W (left.toInt * right.toInt) := by
  have half := Nat.two_pow_pos (W - 1)
  unfold smul_ov
  by_cases nonzero : left ≠ 0 ∧ right ≠ 0
  · simp only [if_pos nonzero, Bool.or_eq_true, bne_iff_ne, ne_eq]
    constructor
    · intro differs inside
      have first := sdiv_of_product positive nonzero.2 inside
      rw [Int.mul_comm] at inside
      have second := sdiv_of_product positive nonzero.1 inside
      rw [BitVec.mul_comm] at second
      rcases differs with differs | differs
      · exact differs first
      · exact differs second
    · intro outside
      by_contra same
      rw [not_or, not_not, not_not] at same
      have first := (product_of_sdiv positive nonzero.2 same.1).resolve_left outside
      rw [Int.mul_comm] at outside
      rw [BitVec.mul_comm left right] at same
      have second := (product_of_sdiv positive nonzero.1 same.2).resolve_left outside
      apply wider
      refine ⟨?_, second.2, first.2⟩
      have one : right.toInt * left.toInt = 1 := by
        rw [first.2, second.2, BitVec.neg_one_eq_allOnes, BitVec.toInt_allOnes, if_pos positive]
        rfl
      rw [one, InSigned] at outside
      by_contra notOne
      have two : 2 ≤ 2 ^ (W - 1) := by
        calc 2 = 2 ^ 1 := rfl
          _ ≤ 2 ^ (W - 1) := Nat.pow_le_pow_right (by omega) (by omega)
      omega
  · have zero : left.toInt * right.toInt = 0 := by
      rcases not_and_or.mp nonzero with zero | zero
      · rw [not_not.mp zero, BitVec.ofNat_eq_ofNat, BitVec.toInt_zero, Int.zero_mul]
      · rw [not_not.mp zero, BitVec.ofNat_eq_ofNat, BitVec.toInt_zero, Int.mul_zero]
    simp only [if_neg nonzero, Bool.false_eq_true, false_iff, not_not, zero, InSigned]
    omega

end

theorem smul_ov_value (left right : BitVec W) : (smul_ov left right).1 = left * right := by
  unfold smul_ov
  split
  · rfl
  · rfl

theorem toInt_smul_sat (positive : 0 < W) {left right : BitVec W}
    (wider : ¬ (W = 1 ∧ left = -1#W ∧ right = -1#W)) :
    (smul_sat left right).toInt = saturate W (left.toInt * right.toInt) := by
  have half := Nat.two_pow_pos (W - 1)
  have product : (smul_ov left right).1.toInt = (left.toInt * right.toInt).bmod (2 ^ W) := by
    rw [smul_ov_value, BitVec.toInt_mul]
  apply toInt_orBound positive product (smul_ov_flag positive wider)
  intro outside
  have nonzero : left.toInt ≠ 0 ∧ right.toInt ≠ 0 := by
    refine ⟨fun zero => outside ?_, fun zero => outside ?_⟩
    · rw [zero, Int.zero_mul, InSigned]
      omega
    · rw [zero, Int.mul_zero, InSigned]
      omega
  rw [isNegative_eq, isNegative_eq, bne_iff_ne, ne_eq, decide_eq_decide, mul_neg_iff]
  omega

/-! ### Signed shifts and truncation -/

theorem toNat_of_nonneg {value : BitVec W} (nonneg : 0 ≤ value.toInt) :
    (value.toNat : Int) = value.toInt := by
  rw [BitVec.toInt_eq_toNat_cond] at nonneg ⊢
  split
  · rfl
  · rename_i large
    rw [if_neg large] at nonneg
    omega

theorem toNat_not_of_neg {value : BitVec W} (negative : value.toInt < 0) :
    ((~~~ value).toNat : Int) = -1 - value.toInt := by
  have bound := value.isLt
  rw [BitVec.toInt_eq_toNat_cond] at negative ⊢
  rw [BitVec.toNat_not]
  split
  · rename_i small
    rw [if_pos small] at negative
    omega
  · omega

theorem countLeadingZeros_le_iff (value : BitVec W) {amount : Nat} (below : amount < W) :
    countLeadingZeros value ≤ amount ↔ 2 ^ (W - 1 - amount) ≤ value.toNat := by
  have active := getActiveBits_le value
  have bits := getActiveBits_le_iff value (W - 1 - amount)
  unfold countLeadingZeros
  omega

theorem two_pow_split {amount : Nat} (below : amount < W) :
    ((2 ^ (W - 1) : Nat) : Int) = 2 ^ (W - 1 - amount) * 2 ^ amount := by
  push_cast
  rw [← pow_add]
  congr 1
  omega

theorem sshl_ov_flag {left amount : BitVec W} (below : amount.toNat < W) :
    (sshl_ov left amount).2 = true ↔ ¬ InSigned W (left.toInt * 2 ^ amount.toNat) := by
  have step : (0 : Int) < 2 ^ amount.toNat := by positivity
  have split := two_pow_split below
  rw [sshl_ov, if_neg (not_le.mpr below), isNonNegative_eq, InSigned, split]
  by_cases nonneg : 0 ≤ left.toInt
  · have number := toNat_of_nonneg nonneg
    have same : (2 ^ (W - 1 - amount.toNat) ≤ left.toNat) ↔
        (2 : Int) ^ (W - 1 - amount.toNat) ≤ left.toInt := by
      rw [← number]
      exact_mod_cast Iff.rfl
    rw [if_pos (decide_eq_true nonneg), decide_eq_true_eq, countLeadingZeros_le_iff left below, same]
    constructor
    · intro large inside
      have scaled := mul_le_mul_of_nonneg_right large step.le
      omega
    · intro outside
      by_contra small
      apply outside
      have scaled := mul_lt_mul_of_pos_right (not_le.mp small) step
      have floor : 0 ≤ left.toInt * 2 ^ amount.toNat := mul_nonneg nonneg step.le
      omega
  · have number := toNat_not_of_neg (not_le.mp nonneg)
    have same : (2 ^ (W - 1 - amount.toNat) ≤ (~~~ left).toNat) ↔
        left.toInt < -2 ^ (W - 1 - amount.toNat) := by
      have cast : (2 ^ (W - 1 - amount.toNat) ≤ (~~~ left).toNat) ↔
          (2 : Int) ^ (W - 1 - amount.toNat) ≤ ((~~~ left).toNat : Int) := by
        exact_mod_cast Iff.rfl
      rw [cast, number]
      omega
    rw [if_neg (by simpa using nonneg), decide_eq_true_eq, countLeadingOnes,
      countLeadingZeros_le_iff _ below, same]
    constructor
    · intro large inside
      have scaled := mul_lt_mul_of_pos_right large step
      rw [neg_mul] at scaled
      omega
    · intro outside
      by_contra small
      apply outside
      have scaled := mul_le_mul_of_nonneg_right (not_lt.mp small) step.le
      rw [neg_mul] at scaled
      have ceiling : left.toInt * 2 ^ amount.toNat < 0 :=
        mul_neg_of_neg_of_pos (not_le.mp nonneg) step
      omega

theorem toInt_shiftLeft_bmod (left : BitVec W) (amount : Nat) :
    (left <<< amount).toInt = (left.toInt * 2 ^ amount).bmod (2 ^ W) := by
  rw [BitVec.toInt_shiftLeft, BitVec.toInt_eq_toNat_bmod, Nat.shiftLeft_eq, Int.bmod_mul_bmod]
  push_cast
  rfl

theorem sshl_ov_value {left amount : BitVec W} (below : amount.toNat < W) :
    (sshl_ov left amount).1.toInt = (left.toInt * 2 ^ amount.toNat).bmod (2 ^ W) := by
  rw [sshl_ov, if_neg (not_le.mpr below), ← toInt_shiftLeft_bmod]
  split
  · rfl
  · rfl

theorem toInt_sshl_sat (positive : 0 < W) {left amount : BitVec W} (below : amount.toNat < W) :
    (sshl_sat left amount).toInt = saturate W (left.toInt * 2 ^ amount.toNat) := by
  have step : (0 : Int) < 2 ^ amount.toNat := by positivity
  apply toInt_orBound positive (sshl_ov_value below) (sshl_ov_flag below)
  intro _
  rw [isNegative_eq, decide_eq_true_eq, mul_neg_iff]
  omega

theorem sshl_sat_of_le {left amount : BitVec W} (beyond : W ≤ amount.toNat) :
    sshl_sat left amount = signedBound (isNegative left) := by
  rw [sshl_sat, orBound, sshl_ov, if_pos beyond]
  rfl

theorem getMinSignedBits_le_iff (value : BitVec W) {width : Nat} (positive : 0 < width) :
    getMinSignedBits value ≤ width ↔ InSigned width value.toInt := by
  have half := Nat.two_pow_pos (width - 1)
  unfold getMinSignedBits InSigned
  rw [isNegative_eq]
  by_cases negative : value.toInt < 0
  · have number := toNat_not_of_neg negative
    have active := getActiveBits_le (~~~ value)
    have bits := getActiveBits_le_iff (~~~ value) (width - 1)
    rw [if_pos (decide_eq_true negative)]
    unfold countLeadingOnes countLeadingZeros
    omega
  · have number := toNat_of_nonneg (not_lt.mp negative)
    have bits := getActiveBits_le_iff value (width - 1)
    rw [if_neg (by simpa using negative)]
    omega

theorem toInt_truncSSat {width : Nat} (positive : 0 < width) (narrower : width ≤ W)
    (value : BitVec W) : (truncSSat width value).toInt = saturate width value.toInt := by
  have half := Nat.two_pow_pos (width - 1)
  rw [truncSSat]
  by_cases inside : InSigned width value.toInt
  · have divides : 2 ^ width ∣ 2 ^ W := Nat.pow_dvd_pow 2 narrower
    rw [if_pos ((getMinSignedBits_le_iff value positive).mpr inside), BitVec.toInt_setWidth]
    have same : (value.toNat : Int).bmod (2 ^ width) = value.toInt.bmod (2 ^ width) := by
      rw [BitVec.toInt_eq_toNat_bmod, Int.bmod_bmod_of_dvd divides]
    rw [same, bmod_of_inSigned positive inside]
    unfold InSigned at inside
    unfold saturate
    omega
  · rw [if_neg (fun small => inside ((getMinSignedBits_le_iff value positive).mp small)),
      isNegative_eq]
    unfold InSigned at inside
    unfold saturate
    by_cases negative : value.toInt < 0
    · rw [if_pos (decide_eq_true negative), toInt_getSignedMinValue positive]
      omega
    · rw [if_neg (by simpa using negative), toInt_getSignedMaxValue]
      omega

end EvmBackend.APInt
