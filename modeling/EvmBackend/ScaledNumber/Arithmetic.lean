/-
Products and quotients of digits are the exact ones, rounded to the width, and
comparing two scaled numbers compares what they stand for.
-/

import EvmBackend.ScaledNumber

namespace EvmBackend.ScaledNumber

open Rounding

variable {Width LHS RHS L R : Nat}

/-! ### Products -/

theorem getL_eq (N : Nat) : getL N = N % 2 ^ 32 := Nat.and_two_pow_sub_one_eq_mod N 32

theorem getU_eq (N : Nat) : getU N = N / 2 ^ 32 := Nat.shiftRight_eq_div_pow N 32

theorem addWithCarry_spec {N Upper Lower : Nat} (lower : Lower < 2 ^ 64)
    (fits : Upper * 2 ^ 64 + Lower + N * 2 ^ 32 < 2 ^ 128) :
    (addWithCarry N (Upper, Lower)).1 * 2 ^ 64 + (addWithCarry N (Upper, Lower)).2 =
      Upper * 2 ^ 64 + Lower + N * 2 ^ 32 ∧
      (addWithCarry N (Upper, Lower)).2 < 2 ^ 64 := by
  unfold addWithCarry
  dsimp only
  rw [getL_eq, getU_eq, Nat.shiftLeft_eq]
  split
  · omega
  · omega

theorem product_eq (LHS RHS : Nat) : LHS * RHS =
    getU LHS * getU RHS * 2 ^ 64 + getL LHS * getL RHS + getU LHS * getL RHS * 2 ^ 32 + getL LHS * getU
      RHS * 2 ^ 32 := by
  rw [getU_eq, getU_eq, getL_eq, getL_eq]
  calc LHS * RHS = (2 ^ 32 * (LHS / 2 ^ 32) + LHS % 2 ^ 32) * (2 ^ 32 * (RHS / 2 ^ 32) + RHS % 2 ^ 32) := by
        rw [Nat.div_add_mod, Nat.div_add_mod]
    _ = _ := by ring

theorem cross_products (left : LHS < 2 ^ 64) (right : RHS < 2 ^ 64) :
    let digits := addWithCarry (getL LHS * getU RHS % 2 ^ 64)
      (addWithCarry (getU LHS * getL RHS % 2 ^ 64) (getU LHS * getU RHS % 2 ^ 64, getL LHS * getL RHS % 2 ^ 64))
    digits.1 * 2 ^ 64 + digits.2 = LHS * RHS ∧ digits.2 < 2 ^ 64 := by
  have whole := product_eq LHS RHS
  have bound : LHS * RHS ≤ (2 ^ 64 - 1) * (2 ^ 64 - 1) := Nat.mul_le_mul (by omega) (by omega)
  have small : ∀ {N : Nat}, N < 2 ^ 64 → getU N ≤ 2 ^ 32 - 1 ∧ getL N ≤ 2 ^ 32 - 1 := by
    intro N less
    rw [getU_eq, getL_eq]
    omega
  obtain ⟨upperLeft, lowerLeft⟩ := small left
  obtain ⟨upperRight, lowerRight⟩ := small right
  have p1 := Nat.mul_le_mul upperLeft upperRight
  have p2 := Nat.mul_le_mul upperLeft lowerRight
  have p3 := Nat.mul_le_mul lowerLeft upperRight
  have p4 := Nat.mul_le_mul lowerLeft lowerRight
  generalize getU LHS * getU RHS = P1 at *
  generalize getU LHS * getL RHS = P2 at *
  generalize getL LHS * getU RHS = P3 at *
  generalize getL LHS * getL RHS = P4 at *
  rw [Nat.mod_eq_of_lt (by omega : P1 < 2 ^ 64), Nat.mod_eq_of_lt (by omega : P2 < 2 ^ 64),
    Nat.mod_eq_of_lt (by omega : P3 < 2 ^ 64), Nat.mod_eq_of_lt (by omega : P4 < 2 ^ 64)]
  obtain ⟨first, lower⟩ :=
    addWithCarry_spec (by omega : P4 < 2 ^ 64) (by omega : P1 * 2 ^ 64 + P4 + P2 * 2 ^ 32 < 2 ^ 128)
  obtain ⟨second, last⟩ := addWithCarry_spec lower
    (by omega : (addWithCarry P2 (P1, P4)).1 * 2 ^ 64 + (addWithCarry P2 (P1, P4)).2 + P3 * 2 ^ 32 < 2 ^ 128)
  refine ⟨?_, last⟩
  rw [second, first, whole]

theorem leading_digits {Upper Lower : Nat} (some : Upper ≠ 0) (upper : Upper < 2 ^ 64) (lower : Lower < 2 ^ 64) :
    let LeadingZeros := countLeadingZeros 64 Upper
    let Shift := 64 - LeadingZeros
    0 < Shift ∧
      (if LeadingZeros ≠ 0 then Upper <<< LeadingZeros % 2 ^ 64 ||| Lower >>> Shift else Upper) =
        (Upper * 2 ^ 64 + Lower) / 2 ^ Shift ∧
      2 ^ 63 ≤ (Upper * 2 ^ 64 + Lower) / 2 ^ Shift ∧ (Upper * 2 ^ 64 + Lower) / 2 ^ Shift < 2 ^ 64 ∧
      (Upper * 2 ^ 64 + Lower) % 2 ^ Shift = Lower % 2 ^ Shift := by
  intro LeadingZeros Shift
  have zeros : LeadingZeros + Upper.log2 + 1 = 64 := countLeadingZeros_spec some upper
  have power := Nat.log2_self_le some
  have next := Nat.lt_log2_self (n := Upper)
  have shift : Shift = Upper.log2 + 1 := by omega
  have whole : 2 ^ 64 = 2 ^ LeadingZeros * 2 ^ Shift := by
    rw [← Nat.pow_add]
    congr 1
    omega
  have positive : 0 < 2 ^ Shift := Nat.two_pow_pos _
  have quotient : (Upper * 2 ^ 64 + Lower) / 2 ^ Shift = Upper * 2 ^ LeadingZeros + Lower / 2 ^ Shift := by
    rw [whole, ← Nat.mul_assoc, Nat.mul_comm _ (2 ^ Shift), Nat.mul_add_div positive]
  have least : 2 ^ 63 ≤ Upper * 2 ^ LeadingZeros := by
    have split : 2 ^ 63 = 2 ^ Upper.log2 * 2 ^ LeadingZeros := by
      rw [← Nat.pow_add]
      congr 1
      omega
    rw [split]
    exact Nat.mul_le_mul_right _ power
  have room : Upper * 2 ^ LeadingZeros + 2 ^ LeadingZeros ≤ 2 ^ 64 := by
    rw [whole, shift, ← Nat.succ_mul, Nat.mul_comm (2 ^ LeadingZeros)]
    exact Nat.mul_le_mul_right _ next
  have rest : Lower / 2 ^ Shift < 2 ^ LeadingZeros := by
    rw [Nat.div_lt_iff_lt_mul positive, ← whole]
    exact lower
  have some' : 0 < 2 ^ LeadingZeros := Nat.two_pow_pos _
  refine ⟨by omega, ?_, quotient ▸ least.trans (Nat.le_add_right _ _), by rw [quotient]; omega, ?_⟩
  · by_cases normal : LeadingZeros = 0
    · have all : Shift = 64 := by omega
      rw [if_neg (not_not_intro normal), all, Nat.mul_comm, Nat.mul_add_div (by decide),
        Nat.div_eq_of_lt lower, Nat.add_zero]
    · rw [if_pos normal, quotient, Nat.shiftLeft_eq, Nat.mod_eq_of_lt (by omega),
        Nat.shiftRight_eq_div_pow, Nat.mul_comm,
        ← Nat.two_pow_add_eq_or_of_lt rest]
  · rw [whole, ← Nat.mul_assoc, Nat.mul_comm _ (2 ^ Shift), Nat.mul_add_mod]

theorem multiply64_rounds (left : LHS < 2 ^ 64) (right : RHS < 2 ^ 64) :
    Rounds 64 (multiply64 LHS RHS) (LHS * RHS : Nat) := by
  obtain ⟨whole, lower⟩ := cross_products left right
  unfold multiply64
  dsimp only at whole lower ⊢
  generalize addWithCarry (getL LHS * getU RHS % 2 ^ 64)
    (addWithCarry (getU LHS * getL RHS % 2 ^ 64)
      (getU LHS * getU RHS % 2 ^ 64, getL LHS * getL RHS % 2 ^ 64)) = digits at *
  obtain ⟨Upper, Lower⟩ := digits
  dsimp only at whole lower ⊢
  have bound : LHS * RHS ≤ (2 ^ 64 - 1) * (2 ^ 64 - 1) := Nat.mul_le_mul (by omega) (by omega)
  by_cases none : Upper = 0
  · rw [if_pos none]
    refine rounds_exact lower ?_
    rw [← whole, none]
    simp [value]
  · rw [if_neg none]
    obtain ⟨some, digits, low, high, rest⟩ := leading_digits none (by omega) lower
    rw [digits]
    refine rounds_getRounded (by decide) (Nat.two_pow_pos _) low high ?_ high ?_
    · rw [← whole, zpow_natCast, Nat.cast_pow, Nat.cast_ofNat, div_mul_cancel₀ _ (pow_ne_zero _ two_ne_zero)]
    · have shift : 64 - countLeadingZeros 64 Upper - 1 + 1 = 64 - countLeadingZeros 64 Upper := by omega
      rw [nearest_eq_floor _ (Nat.two_pow_pos _), rest, decide_eq_true some.ne', Bool.true_and, hasBit_eq, shift]
      simp only [decide_eq_true_eq]

theorem getProduct_rounds (width : Width = 32 ∨ Width = 64) (left : LHS < 2 ^ Width) (right : RHS < 2 ^ Width) :
    Rounds Width (getProduct Width LHS RHS) (LHS * RHS : Nat) := by
  unfold getProduct
  by_cases narrow : Width ≤ 32 ∨ (LHS ≤ 2 ^ 32 - 1 ∧ RHS ≤ 2 ^ 32 - 1)
  · have bound : LHS * RHS ≤ (2 ^ 32 - 1) * (2 ^ 32 - 1) := by
      rcases narrow with small | ⟨small, small'⟩
      · obtain rfl : Width = 32 := by omega
        exact Nat.mul_le_mul (by omega) (by omega)
      · exact Nat.mul_le_mul small small'
    rw [if_pos narrow, Nat.mod_eq_of_lt (by omega : LHS * RHS < 2 ^ 64)]
    by_cases fits : Width = 64 ∨ LHS * RHS ≤ 2 ^ Width - 1
    · have digits : LHS * RHS < 2 ^ Width := by
        rcases fits with rfl | below
        · omega
        · have positive := Nat.two_pow_pos Width
          omega
      unfold getAdjusted
      rw [if_pos fits]
      refine rounds_exact digits ?_
      unfold value
      rw [zpow_zero, mul_one]
    · obtain rfl : Width = 32 := by omega
      have adjusted : Rounds 32 (getAdjusted 32 (LHS * RHS / 1) 0) (LHS * RHS : Nat) :=
        rounds_getAdjusted Nat.one_pos
        (by rw [Nat.div_one]; omega) (by rw [Nat.div_one]; omega)
          (by rw [Nat.cast_one, div_one, zpow_zero, mul_one])
      rwa [Nat.div_one] at adjusted
  · rw [if_neg narrow]
    obtain rfl : Width = 64 := by omega
    exact multiply64_rounds left right

/-! ### Quotients -/

variable {Dividend Divisor : Nat}

theorem getHalf_le (small : Divisor < 2 ^ 64) (Remainder : Nat) :
    getHalf Divisor ≤ Remainder ↔ Divisor ≤ 2 * Remainder := by
  unfold getHalf
  rw [Nat.shiftRight_eq_div_pow, Nat.and_one_is_mod]
  omega

theorem shift_leadingZeros (some : Dividend ≠ 0) (small : Dividend < 2 ^ 64) :
    Dividend <<< countLeadingZeros 64 Dividend % 2 ^ 64 = Dividend * 2 ^ countLeadingZeros 64 Dividend ∧
      2 ^ 63 ≤ Dividend * 2 ^ countLeadingZeros 64 Dividend ∧
        Dividend * 2 ^ countLeadingZeros 64 Dividend < 2 ^ 64 := by
  have zeros := countLeadingZeros_spec some small
  have power := Nat.log2_self_le some
  have next := Nat.lt_log2_self (n := Dividend)
  generalize countLeadingZeros 64 Dividend = LeadingZeros at *
  have least : 2 ^ 63 = 2 ^ Dividend.log2 * 2 ^ LeadingZeros := by
    rw [← Nat.pow_add]
    congr 1
    omega
  have whole : 2 ^ 64 = 2 ^ (Dividend.log2 + 1) * 2 ^ LeadingZeros := by
    rw [← Nat.pow_add]
    congr 1
    omega
  have low : 2 ^ 63 ≤ Dividend * 2 ^ LeadingZeros := least ▸ Nat.mul_le_mul_right _ power
  have high : Dividend * 2 ^ LeadingZeros < 2 ^ 64 := whole ▸ Nat.mul_lt_mul_of_pos_right next (Nat.two_pow_pos _)
  exact ⟨by rw [Nat.shiftLeft_eq, Nat.mod_eq_of_lt high], low, high⟩

theorem shifted_quotient (Dividend Divisor zeros : Nat) :
    (Dividend : ℚ) / Divisor = (Dividend * 2 ^ zeros : Nat) / Divisor * 2 ^ (-(zeros : ℤ)) := by
  rw [zpow_neg, zpow_natCast]
  push_cast
  field_simp

theorem divide32_rounds (dividend : Dividend ≠ 0) (divisor : Divisor ≠ 0) (left : Dividend < 2 ^ 32)
    (right : Divisor < 2 ^ 32) :
    Rounds 32 (divide32 Dividend Divisor) (Dividend / Divisor) := by
  obtain ⟨shifted, low, high⟩ := shift_leadingZeros dividend (by omega)
  have positive : 0 < Divisor := Nat.pos_of_ne_zero divisor
  unfold divide32
  dsimp only
  rw [shifted]
  have exactly := shifted_quotient Dividend Divisor (countLeadingZeros 64 Dividend)
  generalize Dividend * 2 ^ countLeadingZeros 64 Dividend = Dividend64 at *
  generalize (-(countLeadingZeros 64 Dividend : ℤ)) = Shift at *
  have bounded : Dividend64 / Divisor < 2 ^ 64 := (Nat.div_le_self _ _).trans_lt high
  have large : 2 ^ 31 ≤ Dividend64 / Divisor := by
    rw [Nat.le_div_iff_mul_le positive]
    omega
  by_cases wide : Dividend64 / Divisor > 2 ^ 32 - 1
  · rw [if_pos wide]
    exact rounds_getAdjusted positive wide bounded exactly
  · rw [if_neg wide]
    refine rounds_getRounded (by decide) positive large (by omega) exactly (by omega) ?_
    rw [nearest_eq_floor _ positive]
    simp only [ge_iff_le, decide_eq_true_eq, getHalf_le (by omega : Divisor < 2 ^ 64)]

theorem countTrailingZeros_spec {N : Nat} (some : N ≠ 0) (small : N < 2 ^ 64) :
    N = N >>> countTrailingZeros N * 2 ^ countTrailingZeros N := by
  have clear : ∀ bit < countTrailingZeros N, N.testBit bit = false := by
    unfold countTrailingZeros
    cases found : (List.range 64).findIdx? fun bit => N.testBit bit with
    | none =>
        refine absurd (Nat.eq_of_testBit_eq fun bit => ?_) some
        rw [Nat.zero_testBit]
        rcases Nat.lt_or_ge bit 64 with inside | outside
        · exact List.findIdx?_eq_none_iff.mp found bit (List.mem_range.mpr inside)
        · exact Nat.testBit_lt_two_pow (small.trans_le (Nat.pow_le_pow_right (by decide) outside))
    | some first =>
        intro bit less
        obtain ⟨inside, -, before⟩ := List.findIdx?_eq_some_iff_getElem.mp found
        have unset := before bit less
        rw [List.getElem_range] at unset
        exact Bool.eq_false_iff.mpr unset
  generalize countTrailingZeros N = zeros at clear ⊢
  have rest : N % 2 ^ zeros = 0 := by
    refine Nat.eq_of_testBit_eq fun bit => ?_
    rw [Nat.testBit_mod_two_pow, Nat.zero_testBit]
    by_cases below : bit < zeros
    · rw [clear bit below, Bool.and_false]
    · rw [decide_eq_false below, Bool.false_and]
  have division := Nat.div_add_mod N (2 ^ zeros)
  rw [rest, Nat.add_zero, Nat.mul_comm] at division
  rw [Nat.shiftRight_eq_div_pow]
  exact division.symm

theorem longDivide_round {Quotient : Nat} (small : Divisor < 2 ^ 64) (rest : Dividend < Divisor)
    (room : Quotient >>> 63 = 0)
    (some : Dividend ≠ 0) (rounds : Nat) (Shift : Int) :
    ∃ bit remainder, longDivide (rounds + 1) Divisor Quotient Dividend Shift =
        longDivide rounds Divisor (2 * Quotient + bit) remainder (Shift - 1) ∧
      bit ≤ 1 ∧ remainder < Divisor ∧ bit * Divisor + remainder = 2 * Dividend := by
  rw [Nat.shiftRight_eq_div_pow] at room
  have doubled : Quotient <<< 1 % 2 ^ 64 = 2 * Quotient := by
    rw [Nat.shiftLeft_eq, Nat.mod_eq_of_lt (by omega)]
    omega
  have odd : 2 * Quotient ||| 1 = 2 * Quotient + 1 :=
    (Nat.two_pow_add_eq_or_of_lt (by decide : 1 < 2 ^ 1) Quotient).symm
  conv =>
    enter [1, bit, 1, remainder]
    rw [longDivide]
  dsimp only
  rw [if_pos ⟨by rw [Nat.shiftRight_eq_div_pow]; exact room, some⟩, doubled, odd, Nat.shiftLeft_eq,
    Nat.shiftRight_eq_div_pow]
  by_cases beyond : Divisor ≤ 2 * Dividend
  · refine ⟨1, 2 * Dividend - Divisor, ?_, Nat.le_refl _, by omega, by omega⟩
    have wrapped : (Dividend * 2 ^ 1 % 2 ^ 64 + 2 ^ 64 - Divisor) % 2 ^ 64 = 2 * Dividend - Divisor := by omega
    rw [if_pos (by omega), wrapped]
  · refine ⟨0, 2 * Dividend, ?_, by decide, by omega, by omega⟩
    have wrapped : Dividend * 2 ^ 1 % 2 ^ 64 = 2 * Dividend := by omega
    rw [if_neg (by omega), wrapped, Nat.add_zero]

theorem longDivide_spec {rounds Quotient whole done : Nat} (top : 2 ^ 63 ≤ whole) (small : Divisor < 2 ^ 64)
    (rest : Dividend < Divisor) (state : Quotient * Divisor + Dividend = whole * 2 ^ done)
    (fits : Quotient < 2 ^ 64)
    (enough : 64 < rounds + done) (Shift : Int) :
    ∃ quotient remainder steps : Nat, longDivide rounds Divisor Quotient Dividend Shift =
      some (quotient, remainder, Shift - steps) ∧
      remainder < Divisor ∧ quotient < 2 ^ 64 ∧ quotient * Divisor + remainder =
        (Quotient * Divisor + Dividend) * 2 ^ steps ∧
      (2 ^ 63 ≤ quotient ∨ remainder = 0) := by
  induction rounds generalizing Quotient Dividend done Shift with
  | zero =>
      -- after more than 64 rounds there would be more than 64 bits
      have powers : 2 ^ 65 ≤ 2 ^ done := Nat.pow_le_pow_right (by decide) (by omega)
      have many := Nat.mul_le_mul top powers
      have few := Nat.mul_le_mul (Nat.le_sub_one_of_lt fits) (Nat.le_sub_one_of_lt small)
      omega
  | succ rounds ih =>
      by_cases goes : Quotient >>> 63 = 0 ∧ Dividend ≠ 0
      · obtain ⟨bit, remainder, round, isBit, below, next⟩ :=
          longDivide_round small rest goes.1 goes.2 rounds Shift
        have half := goes.1
        rw [Nat.shiftRight_eq_div_pow] at half
        have advanced : (2 * Quotient + bit) * Divisor + remainder = 2 * (Quotient * Divisor + Dividend) := by
          rw [Nat.add_mul, Nat.mul_assoc]
          omega
        obtain ⟨quotient, last, steps, ran, less, filled, product, full⟩ := ih below
          (by rw [advanced, state, Nat.pow_succ]; ring : (2 * Quotient + bit) * Divisor + remainder =
            whole * 2 ^ (done + 1))
          (by omega) (by omega) (Shift - 1)
        refine ⟨quotient, last, steps + 1, ?_, less, filled, ?_, full⟩
        · rw [round, ran]
          congr 3
          push_cast
          ring
        · rw [product, advanced, Nat.pow_succ]
          ring
      · refine ⟨Quotient, Dividend, 0, ?_, rest, fits, by rw [Nat.pow_zero, Nat.mul_one], ?_⟩
        · unfold longDivide
          rw [if_neg goes, Int.natCast_zero, Int.sub_zero]
        · rw [Nat.shiftRight_eq_div_pow] at goes
          omega

theorem divide64_rounds (dividend : Dividend ≠ 0) (divisor : Divisor ≠ 0) (left : Dividend < 2 ^ 64)
    (right : Divisor < 2 ^ 64) :
    ∃ result, divide64 Dividend Divisor = some result ∧ Rounds 64 result (Dividend / Divisor) := by
  have trailing := countTrailingZeros_spec divisor right
  obtain ⟨shifted, low, high⟩ := shift_leadingZeros dividend left
  unfold divide64
  dsimp only
  rw [shifted]
  generalize countTrailingZeros Divisor = trailingZeros at *
  generalize Divisor >>> trailingZeros = Odd at *
  have positive : 0 < Odd := by
    refine Nat.pos_of_ne_zero fun zero => divisor ?_
    rw [trailing, zero, Nat.zero_mul]
  have below : Odd < 2 ^ 64 :=
    ((Nat.le_mul_of_pos_right Odd (Nat.two_pow_pos _)).trans_eq trailing.symm).trans_lt right
  have scaled : (Dividend : ℚ) / Divisor = Dividend / Odd * 2 ^ (-(trailingZeros : ℤ)) := by
    rw [trailing, zpow_neg, zpow_natCast]
    push_cast
    field_simp
  by_cases one : Odd = 1
  · rw [if_pos one]
    refine ⟨_, rfl, rounds_exact left ?_⟩
    rw [scaled, one, Nat.cast_one, div_one]
    rfl
  · rw [if_neg one]
    have moved := shifted_quotient Dividend Odd (countLeadingZeros 64 Dividend)
    generalize Dividend * 2 ^ countLeadingZeros 64 Dividend = whole at *
    generalize countLeadingZeros 64 Dividend = leadingZeros at *
    have start : whole / Odd * Odd + whole % Odd = whole * 2 ^ 0 := by
      rw [Nat.mul_comm, Nat.div_add_mod, Nat.pow_zero, Nat.mul_one]
    obtain ⟨quotient, remainder, steps, ran, less, filled, product, full⟩ :=
      longDivide_spec low below (Nat.mod_lt whole positive)
      start ((Nat.div_le_self _ _).trans_lt high) (by decide : 64 < 65 + 0) (-(trailingZeros : ℤ) - leadingZeros)
    rw [start, Nat.pow_zero, Nat.mul_one] at product
    have exactly : (Dividend : ℚ) / Divisor =
        (quotient * Odd + remainder : Nat) / Odd * 2 ^ (-(trailingZeros : ℤ) - leadingZeros - steps) := by
      have two : (2 : ℚ) ≠ 0 := two_ne_zero
      rw [scaled, moved, product, zpow_sub₀ two, sub_eq_add_neg, zpow_add₀ two, zpow_natCast]
      push_cast
      field_simp
    rw [ran, Option.map_some]
    refine ⟨_, rfl, ?_⟩
    dsimp only
    have half : (remainder ≥ getHalf Odd) ↔ Odd ≤ 2 * remainder := getHalf_le below remainder
    rcases full with many | none
    · have digits : (quotient * Odd + remainder) / Odd = quotient := by
        rw [Nat.mul_comm, Nat.mul_add_div positive, Nat.div_eq_of_lt less, Nat.add_zero]
      have rest : (quotient * Odd + remainder) % Odd = remainder := by
        rw [Nat.mul_comm, Nat.mul_add_mod, Nat.mod_eq_of_lt less]
      refine rounds_getRounded (by decide) positive (digits.symm ▸ many) (digits.symm ▸ filled) exactly filled ?_
      rw [nearest_eq_floor _ positive, digits, rest]
      simp only [decide_eq_true_eq, half]
    · have stays : decide (remainder ≥ getHalf Odd) = false := decide_eq_false (by rw [half]; omega)
      rw [stays]
      refine rounds_exact filled ?_
      rw [exactly, none, Nat.add_zero, Nat.cast_mul, mul_div_cancel_right₀ _ (Nat.cast_ne_zero.mpr positive.ne')]
      rfl

theorem getQuotient_rounds (width : Width = 32 ∨ Width = 64) (dividend : Dividend ≠ 0) (divisor : Divisor ≠ 0)
    (left : Dividend < 2 ^ Width) (right : Divisor < 2 ^ Width) :
    ∃ result, getQuotient Width Dividend Divisor = some result ∧ Rounds Width result (Dividend / Divisor) := by
  unfold getQuotient
  rw [if_neg dividend, if_neg divisor]
  rcases width with rfl | rfl
  · rw [if_neg (by decide)]
    exact ⟨_, rfl, divide32_rounds dividend divisor left right⟩
  · rw [if_pos rfl]
    exact divide64_rounds dividend divisor left right

/-! ### Comparing -/

variable {LScale RScale : Int}

def order (left right : ℚ) : Int := if left < right then -1 else if right < left then 1 else 0

theorem getLgFloor_eq (some : L ≠ 0) (small : L < 2 ^ Width) (Scale : Int) :
    getLgFloor Width L Scale = Scale + L.log2 := by
  have zeros := countLeadingZeros_spec some small
  have floor : Width - countLeadingZeros Width L - 1 = L.log2 := by omega
  unfold getLgFloor getLgImpl
  rw [if_neg some]
  dsimp only
  rw [floor]
  by_cases power : L = 1 <<< L.log2
  · rw [if_pos power]
    simp
  · rw [if_neg power]
    cases hasBit L (L.log2 - 1) with
    | false | true => simp

theorem compareImpl_eq (L R : Nat) {steps : Nat} (near : steps < 64) :
    compareImpl L R steps = some (if L < R * 2 ^ steps then -1 else if R * 2 ^ steps < L then 1 else 0) := by
  have positive := Nat.two_pow_pos steps
  unfold compareImpl
  rw [if_neg (by omega), Int.toNat_natCast]
  dsimp only
  rw [Nat.shiftRight_eq_div_pow, Nat.shiftLeft_eq]
  rcases Nat.lt_trichotomy (L / 2 ^ steps) R with less | same | more
  · have below := (Nat.div_lt_iff_lt_mul positive).mp less
    rw [if_pos less, if_pos below]
  · have notBelow : ¬L < R * 2 ^ steps := fun below => ((Nat.div_lt_iff_lt_mul positive).mpr below).ne same
    rw [if_neg same.not_lt, if_neg same.not_gt, if_neg notBelow, same]
  · have above : R * 2 ^ steps < L := by
      have next := (Nat.le_div_iff_mul_le positive).mp more
      rw [Nat.succ_mul] at next
      omega
    rw [if_neg more.not_gt, if_pos more, if_neg above.not_gt, if_pos above]

theorem order_shift (L R : Nat) (Scale : Int) (steps : Nat) :
    order (L * 2 ^ Scale) (R * 2 ^ (Scale + steps)) = if L < R * 2 ^ steps then -1
      else if R * 2 ^ steps < L then 1 else 0 := by
  have unit : (0 : ℚ) < 2 ^ Scale := zpow_pos two_pos Scale
  have moved : (R : ℚ) * 2 ^ (Scale + steps) = (R * 2 ^ steps : Nat) * 2 ^ Scale := by
    rw [zpow_add₀ two_ne_zero, zpow_natCast]
    push_cast
    ring
  unfold order
  rw [moved]
  simp only [mul_lt_mul_iff_left₀ unit, Nat.cast_lt]

theorem order_swap (left right : ℚ) : order left right = -order right left := by
  unfold order
  rcases lt_trichotomy left right with less | rfl | more
  · rw [if_pos less, if_neg less.not_gt, if_pos less]
  · rw [if_neg (lt_irrefl left), if_neg (lt_irrefl left), neg_zero]
  · rw [if_neg more.not_gt, if_pos more, if_pos more]
    rfl

theorem value_lt_of_log (some : R ≠ 0) (less : LScale + L.log2 < RScale + R.log2) :
    (L : ℚ) * 2 ^ LScale < R * 2 ^ RScale := by
  have two : (2 : ℚ) ≠ 0 := two_ne_zero
  have leftBound : (L : ℚ) < 2 ^ (L.log2 + 1) := by exact_mod_cast Nat.lt_log2_self (n := L)
  have rightBound : (2 : ℚ) ^ R.log2 ≤ R := by exact_mod_cast Nat.log2_self_le some
  calc (L : ℚ) * 2 ^ LScale < 2 ^ (L.log2 + 1) * 2 ^ LScale :=
    mul_lt_mul_of_pos_right leftBound (zpow_pos two_pos _)
    _ = 2 ^ (LScale + L.log2 + 1) := by
        rw [add_assoc, zpow_add₀ two, mul_comm, ← Nat.cast_add_one, zpow_natCast]
    _ ≤ 2 ^ (RScale + R.log2) := zpow_le_zpow_right₀ one_le_two less
    _ = 2 ^ R.log2 * 2 ^ RScale := by rw [zpow_add₀ two, zpow_natCast, mul_comm]
    _ ≤ R * 2 ^ RScale := mul_le_mul_of_nonneg_right rightBound (zpow_pos two_pos _).le

theorem compare_order (width : Width ≤ 64) (left : L < 2 ^ Width) (right : R < 2 ^ Width) (LScale RScale : Int) :
    compare Width L LScale R RScale = some (order (value (L, LScale)) (value (R, RScale))) := by
  have positive : ∀ {N : Nat} (Scale : Int), N ≠ 0 → (0 : ℚ) < value (N, Scale) := fun Scale nonzero =>
    mul_pos (Nat.cast_pos.mpr (Nat.pos_of_ne_zero nonzero)) (zpow_pos two_pos Scale)
  have none : ∀ Scale, value (0, Scale) = 0 := fun Scale => by
    unfold value
    rw [Nat.cast_zero, zero_mul]
  unfold compare
  by_cases zeroL : L = 0
  · rw [if_pos zeroL, zeroL, none]
    by_cases zeroR : R = 0
    · rw [zeroR, none, if_neg (not_not_intro rfl)]
      rfl
    · rw [if_pos zeroR, order, if_pos (positive RScale zeroR)]
  · rw [if_neg zeroL]
    by_cases zeroR : R = 0
    · have above := positive LScale zeroL
      rw [if_pos zeroR, zeroR, none, order, if_neg above.not_gt, if_pos above]
    · have logL := countLeadingZeros_spec zeroL left
      have logR := countLeadingZeros_spec zeroR right
      rw [if_neg zeroR]
      dsimp only
      rw [getLgFloor_eq zeroL left, getLgFloor_eq zeroR right]
      rcases lt_trichotomy (LScale + L.log2) (RScale + R.log2) with less | same | more
      · have below : value (L, LScale) < value (R, RScale) := value_lt_of_log zeroR less
        rw [if_pos less.ne, if_pos less, order, if_pos below]
      · rw [if_neg (not_not_intro same)]
        unfold value
        dsimp only
        by_cases lower : LScale < RScale
        · obtain ⟨steps, difference⟩ := Int.eq_ofNat_of_zero_le (Int.sub_nonneg_of_le lower.le)
          have scale : RScale = LScale + steps := by omega
          rw [if_pos lower, difference, compareImpl_eq L R (by omega), scale, order_shift]
        · obtain ⟨steps, difference⟩ := Int.eq_ofNat_of_zero_le (Int.sub_nonneg_of_le (Int.not_lt.mp lower))
          have scale : LScale = RScale + steps := by omega
          rw [if_neg lower, difference, compareImpl_eq R L (by omega), Option.map_some, scale, order_swap,
            order_shift]
      · have above : value (R, RScale) < value (L, LScale) := value_lt_of_log zeroL more
        rw [if_pos more.ne', if_neg more.not_gt, order, if_neg above.not_gt, if_pos above]

/-- Products, quotients and comparisons of digits of 32 or 64 bits are those of the numbers they stand for. -/
theorem scaledNumber_arithmetic (width : Width = 32 ∨ Width = 64) (left : L < 2 ^ Width) (right : R < 2 ^ Width) :
    (Rounds Width (getProduct Width L R) (L * R : Nat) ∧
      (Representable Width (L * R : Nat) → value (getProduct Width L R) = (L * R : Nat))) ∧
    (L ≠ 0 → R ≠ 0 → ∃ result, getQuotient Width L R = some result ∧ Rounds Width result (L / R) ∧
      (Representable Width (L / R) → value result = L / R)) ∧
    ∀ LScale RScale : Int, compare Width L LScale R RScale =
      some (order (value (L, LScale)) (value (R, RScale))) := by
  refine ⟨?_, fun dividend divisor => ?_, compare_order (by omega) left right⟩
  · have rounds := getProduct_rounds width left right
    exact ⟨rounds, fun exactly => rounds.rounded.trans (roundTo_representable exactly)⟩
  · obtain ⟨result, ran, rounds⟩ := getQuotient_rounds width dividend divisor left right
    exact ⟨result, ran, rounds, fun exactly => rounds.rounded.trans (roundTo_representable exactly)⟩

theorem scaledNumber_arithmetic_ofLargest :
    (Rounds 64 (getProduct 64 (2 ^ 64 - 1) 3) ((2 ^ 64 - 1) * 3 : Nat) ∧
      (Representable 64 ((2 ^ 64 - 1) * 3 : Nat) →
        value (getProduct 64 (2 ^ 64 - 1) 3) = ((2 ^ 64 - 1) * 3 : Nat))) ∧
    (2 ^ 64 - 1 ≠ 0 → 3 ≠ 0 → ∃ result, getQuotient 64 (2 ^ 64 - 1) 3 = some result ∧
      Rounds 64 result ((2 ^ 64 - 1 : Nat) / (3 : Nat)) ∧
      (Representable 64 ((2 ^ 64 - 1 : Nat) / (3 : Nat)) → value result = (2 ^ 64 - 1 : Nat) / (3 : Nat))) ∧
    ∀ LScale RScale : Int, compare 64 (2 ^ 64 - 1) LScale 3 RScale =
      some (order (value (2 ^ 64 - 1, LScale)) (value (3, RScale))) :=
  scaledNumber_arithmetic (.inr rfl) (by decide) (by decide)

end EvmBackend.ScaledNumber
