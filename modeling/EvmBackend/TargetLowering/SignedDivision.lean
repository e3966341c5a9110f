/-
The signed division by a constant.

The multiplier of a divisor with the sign of the other side lacks a multiple of
the numerator. What is added for it is a constant made of a word of 64 bits: one
is the number one at every width, but minus one is minus one only where the
width is at most 64.
-/

import EvmBackend.TargetLowering.UnsignedDivision

namespace EvmBackend.TargetLowering

open APInt Reciprocals Option

variable {W : Nat}

theorem ofInt_toInt_mul (word : BitVec W) (factor : Int) :
    word * BitVec.ofInt W factor = BitVec.ofInt W (word.toInt * factor) := by
  rw [BitVec.ofInt_mul, BitVec.ofInt_toInt]

theorem value_signed {mask : BitVec W} (value : Int) (shift : Nat) (wide : 3 ≤ W)
    (low : -(2 ^ (W - 1) : Nat) ≤ value) (high : value < (2 ^ (W - 1) : Nat))
    (masked : (1 : BitVec W) &&& mask = 1) :
    let shifted := (BitVec.ofInt W value).sshiftRight shift
    shifted + (shifted >>> (W - 1) &&& mask) =
      BitVec.ofInt W (value / 2 ^ shift + if value < 0 then 1 else 0) := by
  intro shifted
  have positive : 0 < W := by omega
  have some : (0 : Int) < 2 ^ shift := by positivity
  have nonneg := Int.ediv_nonneg_iff_of_pos some (a := value)
  have quotient : shifted = BitVec.ofInt W (value / 2 ^ shift) := by
    change (BitVec.ofInt W value).sshiftRight shift = _
    rw [BitVec.sshiftRight_eq, toInt_ofInt_of_range positive low high, Int.shiftRight_eq_div_pow]
    push_cast
    rfl
  have bit : shifted >>> (W - 1) = if value < 0 then 1 else 0 := by
    apply BitVec.eq_of_toNat_eq
    have within : (BitVec.ofInt W (value / 2 ^ shift)).toInt = value / 2 ^ shift := by
      apply toInt_ofInt_of_range positive
      · apply (Int.le_ediv_iff_mul_le some).mpr
        nlinarith
      · apply (Int.ediv_lt_iff_lt_mul some).mpr
        nlinarith
    rw [toNat_signBit wide, isNegative_eq, quotient, within]
    by_cases negative : value < 0
    · rw [if_pos negative, decide_eq_true (by omega), APInt.toNat_one positive]
      rfl
    · rw [if_neg negative, decide_eq_false (by omega)]
      exact (BitVec.toNat_ofNat 0 W).symm
  rw [bit, quotient]
  by_cases negative : value < 0
  · rw [if_pos negative, if_pos negative, masked, BitVec.ofInt_add]
    rfl
  · rw [if_neg negative, if_neg negative, add_zero]
    have dropped : (0 : BitVec W) &&& mask = 0 := BitVec.zero_and
    rw [dropped]
    exact BitVec.add_zero _

def numeratorFactor (d m : BitVec W) : Int :=
  if isStrictlyPositive d && isNegative m then 1
  else if isNegative d && isStrictlyPositive m then -1
  else 0

def signOf (d : BitVec W) : Int := if isNegative d then -1 else 1

section Element

variable {d : BitVec W} {magics : ms W} (wide : 3 ≤ W) (nonzero : d ≠ 0)
  (holds : SignedMagic d magics)

include wide nonzero holds

theorem numeratorFactor_spec :
    magics.m.toInt + numeratorFactor d magics.m * (2 ^ W : Nat) =
        signOf d * (2 ^ (W + magics.s) / (abs d).toNat + 1 : Nat) ∧
      (numeratorFactor d magics.m = -1 ↔
        isNegative d = true ∧ 2 ^ (W - 1) ≤ 2 ^ (W + magics.s) / (abs d).toNat) := by
  have positive : 0 < W := by omega
  have double := two_pow_pred positive
  have fits := holds.fits
  have word := holds.multiplier
  have some := toInt_ne_zero nonzero
  generalize 2 ^ (W + magics.s) / (abs d).toNat = quotient at fits word ⊢
  have natural : (BitVec.ofNat W (quotient + 1)).toNat = quotient + 1 := toNat_ofNat_lt fits
  have value := BitVec.toInt_eq_toNat_cond magics.m
  unfold numeratorFactor signOf
  rw [isStrictlyPositive_eq, isStrictlyPositive_eq, isNegative_eq, isNegative_eq]
  simp only [Bool.and_eq_true, decide_eq_true_eq]
  by_cases sign : d.toInt < 0
  · have negated : (-BitVec.ofNat W (quotient + 1)).toNat = 2 ^ W - (quotient + 1) := by
      rw [BitVec.toNat_neg, natural, Nat.mod_eq_of_lt (by omega)]
    rw [isNegative_eq, decide_eq_true sign, if_pos rfl] at word
    rw [word, negated, ← word] at value
    generalize magics.m.toInt = M at value ⊢
    rw [if_neg (by omega), if_pos sign]
    by_cases top : 2 ^ (W - 1) ≤ quotient
    · rw [if_pos (by omega)] at value
      rw [if_pos (by omega)]
      omega
    · rw [if_neg (by omega)] at value
      rw [if_neg (by omega)]
      omega
  · rw [isNegative_eq, decide_eq_false sign, if_neg Bool.false_ne_true] at word
    rw [word, natural, ← word] at value
    generalize magics.m.toInt = M at value ⊢
    rw [if_neg sign]
    by_cases small : 2 * (quotient + 1) < 2 ^ W
    · rw [if_pos small] at value
      rw [if_neg (by omega), if_neg (by omega)]
      omega
    · rw [if_neg small] at value
      rw [if_pos (by omega)]
      omega

end Element

def Unit (factor : Int) : Prop := factor = -1 ∨ factor = 0 ∨ factor = 1

theorem numeratorFactor_unit (d m : BitVec W) : Unit (numeratorFactor d m) := by
  unfold numeratorFactor Unit
  split
  · omega
  · split <;> omega

theorem getConstant_unit {factor : Int} (wide : 3 ≤ W) (unit : Unit factor) :
    getConstant W (BitVec.ofInt 64 factor) = some ((BitVec.ofInt 64 factor).setWidth W) := by
  unfold getConstant
  apply if_pos
  by_cases short : 64 ≤ W
  · exact .inl short
  · right
    have eight : (2 : Int) ^ 3 ≤ 2 ^ W := pow_le_pow_right₀ (by decide) wide
    rcases unit with rfl | rfl | rfl
    · have shifted : (BitVec.ofInt 64 (-1)).sshiftRight W = BitVec.ofInt 64 (-1) := by
        have value : (BitVec.ofInt 64 (-1)).toInt = -1 := by decide
        have floor : (-1 : Int) / 2 ^ W = -1 := Int.ediv_eq_neg_one_of_neg_of_le (by decide) (by omega)
        rw [BitVec.sshiftRight_eq, value, Int.shiftRight_eq_div_pow]
        push_cast
        rw [floor]
        rfl
      rw [shifted]
      decide
    · change ((0 : BitVec 64).sshiftRight W + 1).toNat < 2
      have none : (0 : BitVec 64).sshiftRight W = 0 := BitVec.zero_sshiftRight
      rw [none]
      decide
    · have shifted : (BitVec.ofInt 64 1).sshiftRight W = BitVec.ofInt 64 0 := by
        have value : (BitVec.ofInt 64 1).toInt = 1 := by decide
        have floor : (1 : Int) / 2 ^ W = 0 := Int.ediv_eq_zero_of_lt (by decide) (by omega)
        rw [BitVec.sshiftRight_eq, value, Int.shiftRight_eq_div_pow]
        push_cast
        rw [floor]
        rfl
      rw [shifted]
      decide

theorem setWidth_unit {factor : Int} (unit : Unit factor) (keeps : W ≤ 64 ∨ factor ≠ -1) :
    (BitVec.ofInt 64 factor).setWidth W = BitVec.ofInt W factor := by
  apply BitVec.eq_of_toNat_eq
  rw [BitVec.toNat_setWidth]
  rcases keeps with narrow | other
  · have divides : ((2 ^ W : Nat) : Int) ∣ ((2 ^ 64 : Nat) : Int) :=
      Int.natCast_dvd_natCast.mpr (pow_dvd_pow 2 narrow)
    have some : (2 : Int) ^ W ≠ 0 := by positivity
    rw [BitVec.toNat_ofInt, BitVec.toNat_ofInt]
    zify
    push_cast at divides ⊢
    rw [Int.toNat_of_nonneg (Int.emod_nonneg _ some), Int.toNat_of_nonneg (Int.emod_nonneg _ (by decide))]
    exact Int.emod_emod_of_dvd _ divides
  · rcases unit with rfl | rfl | rfl
    · exact absurd rfl other
    · rfl
    · rfl

theorem one_and_mask : (1 : BitVec W) &&& (BitVec.ofInt 64 (-1)).setWidth W = 1 := by
  apply BitVec.eq_of_getLsbD_eq
  intro index below
  by_cases zero : index = 0
  · simp [zero]
  · simp [zero]

def elementOf (d : BitVec W) (magics : ms W) : SDIVElement W where
  MagicFactor := magics.m
  Factor := (BitVec.ofInt 64 (numeratorFactor d magics.m)).setWidth W
  Shift := magics.s
  ShiftMask := (BitVec.ofInt 64 (-1)).setWidth W

section Divisor

variable {d : BitVec W} {rounds : Nat} (wide : 3 ≤ W) (nonzero : d ≠ 0)

include wide

theorem toInt_one : (1 : BitVec W).toInt = 1 := BitVec.toInt_one (by omega)

theorem toInt_neg_one : (-1 : BitVec W).toInt = -1 := by
  have ones : (-1 : BitVec W) = BitVec.allOnes W := BitVec.neg_one_eq_allOnes
  rw [ones, BitVec.toInt_allOnes, if_pos (by omega)]

theorem getSExtValue_unit (unit : d = 1 ∨ d = -1) : Unit (getSExtValue d) := by
  have small : d.toInt = 1 ∨ d.toInt = -1 := by
    rcases unit with rfl | rfl
    · exact .inl (toInt_one wide)
    · exact .inr (toInt_neg_one wide)
  have eight : 2 ^ 3 ≤ 2 ^ min 64 W := Nat.pow_le_pow_right (by decide) (by omega)
  have same : getSExtValue d = d.toInt := by
    unfold getSExtValue
    rw [BitVec.toInt_signExtend]
    apply Int.bmod_eq_of_le
    · omega
    · omega
  unfold Unit
  omega

include nonzero

theorem two_le_abs (one : d ≠ 1) (minusOne : d ≠ -1) : 2 ≤ (abs d).toNat := by
  have some := toInt_ne_zero nonzero
  have other : d.toInt ≠ 1 := fun same => one (BitVec.eq_of_toInt_eq (same.trans (toInt_one wide).symm))
  have another : d.toInt ≠ -1 := fun same =>
    minusOne (BitVec.eq_of_toInt_eq (same.trans (toInt_neg_one wide).symm))
  rw [toNat_abs]
  omega

theorem BuildSDIVPattern_spec (enough : W ≤ rounds) :
    ∃ element, BuildSDIVPattern rounds d = some (some element) ∧ element.Shift < W ∧
      (d ≠ 1 → d ≠ -1 → ∃ magics, SignedMagic d magics ∧ element = elementOf d magics) := by
  obtain ⟨magics, found, spec⟩ := magic_terminates wide nonzero enough
  have ones : (-1 : BitVec W) = BitVec.allOnes W := BitVec.neg_one_eq_allOnes
  unfold BuildSDIVPattern
  rw [if_neg nonzero]
  simp only [found, bind_eq_bind, bind_some, ← ones]
  by_cases unit : d = 1 ∨ d = -1
  · have taken : (d == 1 || d == -1) = true := by
      rcases unit with same | same
      · rw [same, beq_self_eq_true, Bool.true_or]
      · rw [same, beq_self_eq_true, Bool.or_true]
    simp only [taken, if_true]
    rw [getConstant_unit wide (getSExtValue_unit wide unit), bind_some,
      getConstant_unit wide (.inr (.inl rfl)), bind_some]
    refine ⟨_, rfl, ?_, fun one minusOne => absurd unit (by rintro (same | same) <;> contradiction)⟩
    change 0 < W
    omega
  · have one : d ≠ 1 := fun same => unit (.inl same)
    have minusOne : d ≠ -1 := fun same => unit (.inr same)
    have taken : (d == 1 || d == -1) = false := by
      rw [beq_eq_false_iff_ne.mpr one, beq_eq_false_iff_ne.mpr minusOne, Bool.false_or]
    have magic := spec (two_le_abs wide nonzero one minusOne)
    have factor := getConstant_unit wide (numeratorFactor_unit d magics.m)
    unfold numeratorFactor at factor
    simp only [taken, Bool.false_eq_true, if_false]
    rw [factor, bind_some, getConstant_unit wide (.inl rfl), bind_some]
    refine ⟨_, rfl, ?_, fun _ _ => ⟨magics, magic, rfl⟩⟩
    have shift := magic.shift
    change magics.s < W
    omega

end Divisor

/-! ### Quotients -/

def SDIVElement.rounded (element : SDIVElement W) (Q : BitVec W) : BitVec W :=
  let Q := Q.sshiftRight element.Shift
  Q + (Q >>> (W - 1) &&& element.ShiftMask)

def SDIVElement.quotient (element : SDIVElement W) (operand : BitVec W) : BitVec W :=
  element.rounded
    (BitVec.ofInt W (operand.toInt * element.MagicFactor.toInt / 2 ^ W) + operand * element.Factor)

theorem sdiv_eq_ofInt (left right : BitVec W) :
    left.sdiv right = BitVec.ofInt W (left.toInt.tdiv right.toInt) := by
  apply BitVec.eq_of_toInt_eq
  rw [BitVec.toInt_sdiv, BitVec.toInt_ofInt]

theorem toInt_eq_signOf_mul (d : BitVec W) : d.toInt = signOf d * (abs d).toNat := by
  rw [toNat_abs, signOf, isNegative_eq]
  by_cases negative : d.toInt < 0
  · rw [decide_eq_true negative, if_pos rfl]
    omega
  · rw [decide_eq_false negative, if_neg Bool.false_ne_true]
    omega

theorem signOf_mul_bounds (d operand : BitVec W) :
    -((2 ^ (W - 1) : Nat) : Int) ≤ signOf d * operand.toInt ∧ signOf d * operand.toInt < limitOf d := by
  obtain ⟨low, high⟩ := toInt_bounds operand
  unfold signOf limitOf
  cases isNegative d with
  | true =>
      rw [if_pos rfl, Bool.toNat_true]
      omega
  | false =>
      rw [if_neg Bool.false_ne_true, Bool.toNat_false]
      omega

section Quotient

variable {d : BitVec W} {magics : ms W} (wide : 3 ≤ W) (nonzero : d ≠ 0)
  (holds : SignedMagic d magics)

include wide nonzero holds

theorem high_add (operand : BitVec W) :
    operand.toInt * magics.m.toInt / (2 ^ W : Nat) + operand.toInt * numeratorFactor d magics.m =
      signOf d * operand.toInt * (2 ^ (W + magics.s) / (abs d).toNat + 1 : Nat) / (2 ^ W : Nat) := by
  have parts := (numeratorFactor_spec wide nonzero holds).1
  have some : ((2 ^ W : Nat) : Int) ≠ 0 := Int.natCast_ne_zero.mpr (Nat.two_pow_pos W).ne'
  rw [← Int.add_mul_ediv_right _ _ some]
  congr 1
  linear_combination operand.toInt * parts

theorem quotient_eq (keeps : W ≤ 64 ∨ numeratorFactor d magics.m ≠ -1) (operand : BitVec W) :
    (elementOf d magics).quotient operand = operand.sdiv d := by
  have positive : 0 < W := by omega
  have double := two_pow_pred positive
  obtain ⟨low, high⟩ := signOf_mul_bounds d operand
  have fits := holds.fits
  have multiplies := holds.multiplies
  have sum := high_add wide nonzero holds operand
  have scaled : 2 ^ (W + magics.s) = 2 ^ (W - 1) * 2 ^ (magics.s + 1) := by
    rw [← pow_add]
    congr 1
    omega
  have whole := multiplies.tdiv_eq scaled rfl low high
  have factor : (elementOf d magics).Factor = BitVec.ofInt W (numeratorFactor d magics.m) :=
    setWidth_unit (numeratorFactor_unit d magics.m) keeps
  have word : BitVec.ofInt W (operand.toInt * magics.m.toInt / 2 ^ W) + operand * (elementOf d magics).Factor =
      BitVec.ofInt W (signOf d * operand.toInt * (2 ^ (W + magics.s) / (abs d).toNat + 1 : Nat) /
        (2 ^ W : Nat)) := by
    rw [factor, ofInt_toInt_mul, ← BitVec.ofInt_add, ← sum]
    push_cast
    rfl
  have divided : signOf d * operand.toInt * (2 ^ (W + magics.s) / (abs d).toNat + 1 : Nat) / (2 ^ W : Nat) /
      2 ^ magics.s =
        signOf d * operand.toInt * (2 ^ (W + magics.s) / (abs d).toNat + 1 : Nat) /
          (2 ^ (W + magics.s) : Nat) := by
    rw [Int.ediv_ediv_of_nonneg (Int.natCast_nonneg _)]
    congr 1
    push_cast
    ring
  have quotient : operand.toInt.tdiv d.toInt = (signOf d * operand.toInt).tdiv (abs d).toNat := by
    rw [toInt_eq_signOf_mul d]
    unfold signOf
    cases isNegative d with
    | true => rw [if_pos rfl, neg_one_mul, neg_one_mul, Int.tdiv_neg, Int.neg_tdiv]
    | false => rw [if_neg Bool.false_ne_true, one_mul, one_mul]
  have bit := Bool.toNat_le (isNegative d)
  have limit : limitOf d = 2 ^ (W - 1) + (isNegative d).toNat := rfl
  rw [sdiv_eq_ofInt, quotient, ← whole, ← divided]
  unfold SDIVElement.quotient
  change (elementOf d magics).rounded
    (BitVec.ofInt W (operand.toInt * magics.m.toInt / 2 ^ W) + operand * (elementOf d magics).Factor) = _
  rw [word]
  generalize signOf d * operand.toInt = numerator at low high
  have once : 0 < 2 ^ (W + magics.s) / (abs d).toNat + 1 := Nat.succ_pos _
  generalize 2 ^ (W + magics.s) / (abs d).toNat + 1 = multiplier at fits once
  have some : (0 : Int) < (2 ^ W : Nat) := Int.natCast_pos.mpr (Nat.two_pow_pos W)
  have sign : numerator * multiplier / (2 ^ W : Nat) < 0 ↔ numerator < 0 := by
    have nonneg := Int.ediv_nonneg_iff_of_pos some (a := numerator * multiplier)
    have product := mul_nonneg_iff_of_pos_right (c := (multiplier : Int)) (b := numerator) (by omega)
    omega
  have whole : (2 ^ W : Nat) = (2 : Int) * (2 ^ (W - 1) : Nat) := by exact_mod_cast double
  have below : (multiplier : Int) < (2 ^ W : Nat) := by exact_mod_cast fits
  have least : -((2 ^ (W - 1) : Nat) : Int) ≤ numerator * multiplier / (2 ^ W : Nat) := by
    apply (Int.le_ediv_iff_mul_le some).mpr
    nlinarith
  have most : numerator * multiplier / (2 ^ W : Nat) < (2 ^ (W - 1) : Nat) := by
    apply (Int.ediv_lt_iff_lt_mul some).mpr
    have upper : numerator ≤ (2 ^ (W - 1) : Nat) := by omega
    nlinarith
  have rounded := value_signed _ magics.s wide least most one_and_mask
  simp only [sign] at rounded
  exact rounded

/-- Beyond 64 bits minus one is not kept: the numerator that the lost bits move to
the sign gets a positive quotient by a negative divisor. -/
theorem quotient_ne (long : 64 < W) (lost : numeratorFactor d magics.m = -1) :
    (elementOf d magics).quotient (BitVec.ofNat W (2 ^ (W - 65))) ≠
      (BitVec.ofNat W (2 ^ (W - 65))).sdiv d := by
  have positive : 0 < W := by omega
  have double := two_pow_pred positive
  have half : (2 ^ (W - 1) : Nat) = 2 ^ (W - 65) * 2 ^ 64 := by
    rw [← pow_add]
    congr 1
    omega
  have some := Nat.two_pow_pos (W - 65)
  have natural : (BitVec.ofNat W (2 ^ (W - 65))).toInt = (2 ^ (W - 65) : Nat) := by
    rw [BitVec.toInt_eq_toNat_cond, toNat_ofNat_lt (by omega), if_pos (by omega)]
  generalize BitVec.ofNat W (2 ^ (W - 65)) = operand at natural ⊢
  have negative : isNegative d = true := ((numeratorFactor_spec wide nonzero holds).2.mp lost).1
  have sign : signOf d = -1 := by rw [signOf, negative, if_pos rfl]
  have sum := high_add wide nonzero holds operand
  have fits := holds.fits
  have shift := holds.shift
  have factor : (elementOf d magics).Factor = BitVec.ofInt W (2 ^ 64 - 1) := by
    change (BitVec.ofInt 64 (numeratorFactor d magics.m)).setWidth W = BitVec.ofNat W (2 ^ 64 - 1)
    have ones : (BitVec.ofInt 64 (-1)).toNat = 2 ^ 64 - 1 := by decide
    apply BitVec.eq_of_toNat_eq
    rw [lost, BitVec.toNat_setWidth, ones, BitVec.toNat_ofNat]
  have word : BitVec.ofInt W (operand.toInt * magics.m.toInt / 2 ^ W) + operand * (elementOf d magics).Factor =
      BitVec.ofInt W (signOf d * operand.toInt * (2 ^ (W + magics.s) / (abs d).toNat + 1 : Nat) / (2 ^ W : Nat) +
        (2 ^ (W - 1) : Nat)) := by
    rw [factor, ofInt_toInt_mul, ← BitVec.ofInt_add, ← sum, lost, natural, half]
    push_cast
    congr 1
    ring
  have once : 0 < 2 ^ (W + magics.s) / (abs d).toNat + 1 := Nat.succ_pos _
  generalize 2 ^ (W + magics.s) / (abs d).toNat + 1 = multiplier at fits once word
  rw [sign, natural] at word
  have positivePower : (0 : Int) < (2 ^ W : Nat) := Int.natCast_pos.mpr (Nat.two_pow_pos W)
  have below : (multiplier : Int) < (2 ^ W : Nat) := by exact_mod_cast fits
  have someInt : (0 : Int) < (2 ^ (W - 65) : Nat) := by exact_mod_cast some
  have least : -((2 ^ (W - 65) : Nat) : Int) ≤ -1 * (2 ^ (W - 65) : Nat) * multiplier / (2 ^ W : Nat) := by
    apply (Int.le_ediv_iff_mul_le positivePower).mpr
    nlinarith
  have most : -1 * (2 ^ (W - 65) : Nat) * multiplier / (2 ^ W : Nat) < (0 : Int) := by
    apply Int.ediv_neg_of_neg_of_pos _ positivePower
    nlinarith
  generalize (-1 : Int) * (2 ^ (W - 65) : Nat) * multiplier / (2 ^ W : Nat) = high at word least most
  have quarter : 2 ^ magics.s ≤ 2 ^ (W - 2) := Nat.pow_le_pow_right (by decide) (by omega)
  have halves : 2 ^ (W - 1) = 2 * 2 ^ (W - 2) := by
    rw [← pow_succ']
    congr 1
    omega
  have lower : ((2 ^ (W - 2) : Nat) : Int) ≤ high + (2 ^ (W - 1) : Nat) := by omega
  have divided : 1 ≤ (high + (2 ^ (W - 1) : Nat)) / 2 ^ magics.s := by
    have somePower : (0 : Int) < 2 ^ magics.s := by positivity
    apply (Int.le_ediv_iff_mul_le somePower).mpr
    have quarterInt : ((2 ^ magics.s : Nat) : Int) ≤ (2 ^ (W - 2) : Nat) := by exact_mod_cast quarter
    push_cast at quarterInt lower ⊢
    omega
  have bounded : (high + (2 ^ (W - 1) : Nat)) / 2 ^ magics.s < (2 ^ (W - 1) : Nat) := by
    have most := Int.ediv_le_self (2 ^ magics.s) (by omega : 0 ≤ high + (2 ^ (W - 1) : Nat))
    omega
  have rounded := value_signed (high + (2 ^ (W - 1) : Nat)) magics.s wide (by omega) (by omega)
    one_and_mask
  have wrong : (elementOf d magics).quotient operand =
      BitVec.ofInt W ((high + (2 ^ (W - 1) : Nat)) / 2 ^ magics.s) := by
    change (elementOf d magics).rounded
      (BitVec.ofInt W (operand.toInt * magics.m.toInt / 2 ^ W) + operand * (elementOf d magics).Factor) = _
    rw [if_neg (by omega), add_zero] at rounded
    rw [natural, word]
    exact rounded
  have nonpositive : operand.toInt.tdiv d.toInt ≤ 0 := by
    apply Int.tdiv_nonpos_of_nonneg_of_nonpos
    · omega
    · rw [isNegative_eq, decide_eq_true_eq] at negative
      exact negative.le
  have small := Int.natAbs_tdiv_le_natAbs operand.toInt d.toInt
  intro same
  rw [wrong, sdiv_eq_ofInt] at same
  have values := congrArg BitVec.toInt same
  rw [toInt_ofInt_of_range positive (by omega) bounded, toInt_ofInt_of_range positive (by omega) (by omega)]
    at values
  omega

end Quotient

/-- Some power of two has a reciprocal that is exact enough, and a multiplier
below the top bit. -/
def MultiplierFits (d : BitVec W) : Prop :=
  ∃ p, W ≤ p ∧ 2 ^ p < 2 ^ (W - 1) * (abs d).toNat ∧
    belowMultiple (limitOf d) (abs d).toNat * ((abs d).toNat - 2 ^ p % (abs d).toNat) < 2 ^ p

/-- The constant that is added keeps its value, or is not negative. -/
def Kept (d : BitVec W) : Prop := W ≤ 64 ∨ 0 ≤ d.toInt ∨ MultiplierFits d

theorem multiplierFits_iff {d : BitVec W} {magics : ms W} (holds : SignedMagic d magics) :
    MultiplierFits d ↔ 2 ^ (W + magics.s) / (abs d).toNat < 2 ^ (W - 1) := by
  have positive := holds.multiplies.range.positive
  rw [Nat.div_lt_iff_lt_mul positive]
  constructor
  · rintro ⟨p, above, below, chosen⟩
    apply lt_of_le_of_lt _ below
    apply Nat.pow_le_pow_right (by decide)
    by_contra later
    rcases holds.missed with first | missed
    · omega
    · exact Nat.not_lt_of_le missed (chosen_of_le positive chosen (by omega))
  · intro below
    exact ⟨W + magics.s, Nat.le_add_right _ _, below, holds.multiplies.chosen⟩

theorem kept_iff {d : BitVec W} {magics : ms W} (wide : 3 ≤ W) (nonzero : d ≠ 0)
    (holds : SignedMagic d magics) : Kept d ↔ W ≤ 64 ∨ numeratorFactor d magics.m ≠ -1 := by
  have lost := (numeratorFactor_spec wide nonzero holds).2
  have fits := multiplierFits_iff holds
  rw [isNegative_eq, decide_eq_true_eq] at lost
  unfold Kept
  rw [fits, ne_eq, lost]
  constructor
  · intro kept
    omega
  · intro kept
    omega

def mulhs (left right : BitVec W) : BitVec W := BitVec.ofInt W (left.toInt * right.toInt / 2 ^ W)

theorem BuildSDIV_value {rounds : Nat} (target : Target) (IsAfterLegalization : Bool) {N1 : Constant W}
    (wide : 3 ≤ W) (enough : W ≤ rounds) (typeLegal : target.isTypeLegal)
    (legal : target.supports IsAfterLegalization .MULHS ∨ target.supports IsAfterLegalization .SMUL_LOHI)
    (nonzero : ∀ d ∈ N1.elements, d ≠ 0) :
    ∃ node, BuildSDIV rounds target IsAfterLegalization N1 = some (some node) ∧
      ∀ element d, N1.elements[element]? = some d → d ≠ 1 → d ≠ -1 →
        ∃ magics, SignedMagic d magics ∧ ∀ operand,
          node.value operand element = some ((elementOf d magics).quotient operand) := by
  have each : ∀ d ∈ N1.elements, ∃ element, BuildSDIVPattern rounds d = some (some element) ∧
      element.Shift < W ∧
        (d ≠ 1 → d ≠ -1 → ∃ magics, SignedMagic d magics ∧ element = elementOf d magics) :=
    fun d member => BuildSDIVPattern_spec wide (nonzero d member) enough
  obtain ⟨built, matched, all⟩ := matchUnaryPredicate_built each
  obtain ⟨Q, multiplied, product⟩ := highHalf_value mulhs (fun _ _ => rfl) (fun _ _ => rfl) legal
    .operand (.constant (built.map (·.MagicFactor)))
  unfold BuildSDIV
  simp only [if_pos typeLegal, matched, bind_eq_bind, bind_some, multiplied]
  refine ⟨_, rfl, fun element d found one minusOne => ?_⟩
  obtain ⟨chosen, foundBuilt, shift, spec⟩ := forall₂_getElem all found
  obtain ⟨magics, holds, rfl⟩ := spec one minusOne
  refine ⟨magics, holds, fun operand => ?_⟩
  have high : Q.value operand element = some (mulhs operand (elementOf d magics).MagicFactor) := by
    apply product operand element
    · rfl
    · rw [SDNode.value, List.getElem?_map, foundBuilt, map_some]
  have last : W - 1 < W := by omega
  simp only [SDNode.value, high, List.getElem?_map, foundBuilt, map_some, bind_eq_bind,
    bind_some, ISD.value, ISD.shifted, if_pos shift, if_pos last]
  rfl

end EvmBackend.TargetLowering
