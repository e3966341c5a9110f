/-
Quotients rounded to the nearest integer, and numbers rounded to a significand of
a fixed width; ties go up.
-/

import Mathlib.Algebra.BigOperators.Group.List.Basic
import Mathlib.Algebra.Order.Round
import Mathlib.Data.Int.Log
import Mathlib.Data.Rat.Floor
import Mathlib.Tactic.FieldSimp
import Mathlib.Tactic.Linarith
import Mathlib.Tactic.Ring

namespace EvmBackend.Rounding

def nearest (number divisor : Nat) : Nat := (number + divisor / 2) / divisor

variable {number divisor quotient : Nat}

theorem nearest_bounds (number : Nat) (positive : 0 < divisor) :
    2 * (divisor * nearest number divisor) ≤ 2 * number + divisor ∧
      2 * number < 2 * (divisor * nearest number divisor) + divisor := by
  unfold nearest
  have division := Nat.div_add_mod (number + divisor / 2) divisor
  have rest := Nat.mod_lt (number + divisor / 2) positive
  generalize divisor * ((number + divisor / 2) / divisor) = product at division ⊢
  omega

theorem nearest_le (positive : 0 < divisor) {factor : Nat} (below : number ≤ divisor * factor) :
    nearest number divisor ≤ factor := by
  obtain ⟨low, -⟩ := nearest_bounds number positive
  by_contra above
  have product := Nat.mul_le_mul_left divisor (Nat.lt_of_not_le above)
  rw [Nat.mul_succ] at product
  omega

theorem sum_nearest (shares : List Nat) (total : Nat) (positive : 0 < divisor) :
    2 * (divisor * (shares.map fun share => nearest (share * total) divisor).sum) ≤
        2 * (shares.sum * total) + divisor * shares.length ∧
      2 * (shares.sum * total) ≤
        2 * (divisor * (shares.map fun share => nearest (share * total) divisor).sum) + divisor
          * shares.length := by
  induction shares with
  | nil => simp
  | cons share shares ih =>
      obtain ⟨low, high⟩ := nearest_bounds (share * total) positive
      rw [List.map_cons, List.sum_cons, List.sum_cons, List.length_cons, Nat.mul_add, Nat.add_mul, Nat.mul_succ]
      omega

theorem sum_nearest_of_sum (shares : List Nat) (total : Nat) (positive : 0 < divisor)
    (whole : shares.sum = divisor) :
    2 * (shares.map fun share => nearest (share * total) divisor).sum ≤ 2 * total + shares.length ∧
      2 * total ≤ 2 * (shares.map fun share => nearest (share * total) divisor).sum + shares.length := by
  obtain ⟨low, high⟩ := sum_nearest shares total positive
  rw [whole] at low high
  constructor
  · refine Nat.le_of_mul_le_mul_left ?_ positive
    rw [Nat.mul_add, ← Nat.mul_assoc, ← Nat.mul_assoc, Nat.mul_comm divisor 2, Nat.mul_assoc, Nat.mul_assoc]
    exact low
  · refine Nat.le_of_mul_le_mul_left ?_ positive
    rw [Nat.mul_add, ← Nat.mul_assoc, ← Nat.mul_assoc, Nat.mul_comm divisor 2, Nat.mul_assoc, Nat.mul_assoc]
    exact high

theorem div_two_digits (upper lower base : Nat) (positive : 0 < divisor) :
    (upper * base + lower) / divisor = upper / divisor * base + (upper % divisor * base + lower) / divisor := by
  have digits : upper * base + lower = divisor * (upper / divisor * base) + (upper % divisor * base + lower) := by
    calc upper * base + lower = (divisor * (upper / divisor) + upper % divisor) * base + lower := by
          rw [Nat.div_add_mod]
      _ = _ := by ring
  rw [digits, Nat.mul_add_div positive]

theorem lower_quotient_lt {upper lower base : Nat} (positive : 0 < divisor) (digit : lower < base) :
    (upper % divisor * base + lower) / divisor < base := by
  rw [Nat.div_lt_iff_lt_mul positive]
  have rest := Nat.mod_lt upper positive
  calc upper % divisor * base + lower < (upper % divisor + 1) * base := by
        rw [Nat.succ_mul]
        omega
    _ ≤ divisor * base := Nat.mul_le_mul_right base rest
    _ = base * divisor := Nat.mul_comm _ _

theorem nearest_eq_floor (number : Nat) (positive : 0 < divisor) :
    nearest number divisor = number / divisor + if divisor ≤ 2 * (number % divisor) then 1 else 0 := by
  have rest := Nat.mod_lt number positive
  have small : number % divisor + divisor / 2 < 2 * divisor := by omega
  unfold nearest
  calc (number + divisor / 2) / divisor
      = (divisor * (number / divisor) + (number % divisor + divisor / 2)) / divisor := by
        rw [← Nat.add_assoc, Nat.div_add_mod]
    _ = number / divisor + (number % divisor + divisor / 2) / divisor := Nat.mul_add_div positive _ _
    _ = _ := by
        congr 1
        by_cases half : divisor ≤ 2 * (number % divisor)
        · rw [if_pos half]
          exact Nat.div_eq_of_lt_le (by omega) (by omega)
        · rw [if_neg half]
          exact Nat.div_eq_of_lt (by omega)

theorem nearest_div (number : Nat) (divisor : Nat) {step : Nat} (even : 2 ∣ step) :
    nearest (number / divisor) step = nearest number (divisor * step) := by
  rcases Nat.eq_zero_or_pos divisor with rfl | positive
  · rw [Nat.div_zero, Nat.zero_mul]
    unfold nearest
    rw [Nat.div_zero, Nat.zero_add]
    rcases Nat.eq_zero_or_pos step with rfl | some
    · rfl
    · exact Nat.div_eq_of_lt (Nat.div_lt_self some (by decide))
  · unfold nearest
    rw [Nat.mul_div_assoc divisor even, ← Nat.div_div_eq_div_mul, Nat.add_mul_div_left _ _ positive]

def roundTo (width : Nat) (x : ℚ) : ℚ := round (x / 2 ^ (Int.log 2 x + 1 - width)) * 2 ^ (Int.log 2 x + 1 - width)

def Representable (width : Nat) (x : ℚ) : Prop :=
  ∃ (digits : Nat) (scale : ℤ), digits < 2 ^ width ∧ x = digits * 2 ^ scale

theorem nearest_eq_round (number : Nat) (positive : 0 < divisor) :
    (nearest number divisor : ℤ) = round ((number : ℚ) / divisor) := by
  obtain ⟨low, high⟩ := nearest_bounds number positive
  have some : (0 : ℚ) < divisor := Nat.cast_pos.mpr positive
  have lowCast : (2 : ℚ) * (divisor * nearest number divisor) ≤ 2 * number + divisor := by exact_mod_cast low
  have highCast : (2 : ℚ) * number < 2 * (divisor * nearest number divisor) + divisor := by exact_mod_cast high
  symm
  rw [round_eq, Int.floor_eq_iff, Int.cast_natCast]
  constructor
  · rw [← sub_le_iff_le_add, le_div_iff₀ some]
    linarith
  · rw [div_add' _ _ _ some.ne', div_lt_iff₀ some]
    linarith

theorem roundTo_of_bounds {width : Nat} (wide : 0 < width) {scale : ℤ} {x : ℚ}
    (low : 2 ^ (width - 1) * 2 ^ scale ≤ x)
    (high : x < 2 ^ width * 2 ^ scale) : roundTo width x = round (x / 2 ^ scale) * 2 ^ scale := by
  have two : (2 : ℚ) ≠ 0 := two_ne_zero
  have positive : 0 < x := lt_of_lt_of_le (mul_pos (pow_pos two_pos _) (zpow_pos two_pos _)) low
  have log : Int.log 2 x = scale + width - 1 := by
    apply le_antisymm
    · have below := (Int.lt_zpow_iff_log_lt (R := ℚ) (by decide : 1 < 2) (x := scale + width) positive).mp (by
        rw [Nat.cast_ofNat, zpow_add₀ two, zpow_natCast, mul_comm]
        exact high)
      omega
    · refine (Int.zpow_le_iff_le_log (R := ℚ) (by decide : 1 < 2) positive).mp ?_
      have exponent : scale + width - 1 = scale + ((width - 1 : Nat) : ℤ) := by omega
      rw [Nat.cast_ofNat, exponent, zpow_add₀ two, zpow_natCast, mul_comm]
      exact low
  unfold roundTo
  rw [log, sub_add_cancel, add_sub_cancel_right]

theorem roundTo_quotient {width : Nat} (wide : 0 < width) {scale : ℤ} {x : ℚ} (positive : 0 < divisor)
    (low : 2 ^ (width - 1) ≤ number / divisor) (high : number / divisor < 2 ^ width)
    (value : x = number / divisor * 2 ^ scale) : roundTo width x = nearest number divisor * 2 ^ scale := by
  have some : (0 : ℚ) < divisor := Nat.cast_pos.mpr positive
  have unit : (0 : ℚ) < 2 ^ scale := zpow_pos two_pos scale
  have lowCast : (2 : ℚ) ^ (width - 1) * divisor ≤ number := by
    exact_mod_cast (Nat.le_div_iff_mul_le positive).mp low
  have highCast : (number : ℚ) < 2 ^ width * divisor := by
    exact_mod_cast (Nat.div_lt_iff_lt_mul positive).mp high
  have quotient : x / 2 ^ scale = (number : ℚ) / divisor := by
    rw [value, mul_div_cancel_right₀ _ unit.ne']
  have above : 2 ^ (width - 1) * 2 ^ scale ≤ x := by
    rw [value]
    exact mul_le_mul_of_nonneg_right ((le_div_iff₀ some).mpr lowCast) unit.le
  have below : x < 2 ^ width * 2 ^ scale := by
    rw [value]
    exact mul_lt_mul_of_pos_right ((div_lt_iff₀ some).mpr highCast) unit
  rw [roundTo_of_bounds wide above below, quotient, ← nearest_eq_round number positive, Int.cast_natCast]

theorem roundTo_zero (width : Nat) : roundTo width 0 = 0 := by
  unfold roundTo
  rw [zero_div, round_zero, Int.cast_zero, zero_mul]

theorem roundTo_representable {width : Nat} {x : ℚ} (exactly : Representable width x) : roundTo width x = x := by
  obtain ⟨digits, scale, small, rfl⟩ := exactly
  rcases Nat.eq_zero_or_pos digits with rfl | some
  · rw [Nat.cast_zero, zero_mul]
    exact roundTo_zero width
  have two : (2 : ℚ) ≠ 0 := two_ne_zero
  have unit : (0 : ℚ) < 2 ^ scale := zpow_pos two_pos scale
  have positive : (0 : ℚ) < digits * 2 ^ scale := mul_pos (Nat.cast_pos.mpr some) unit
  have below : Int.log 2 ((digits : ℚ) * 2 ^ scale) < scale + width := by
    refine (Int.lt_zpow_iff_log_lt (R := ℚ) (by decide : 1 < 2) positive).mp ?_
    rw [Nat.cast_ofNat, zpow_add₀ two, zpow_natCast, mul_comm]
    exact mul_lt_mul_of_pos_left (by exact_mod_cast small) unit
  unfold roundTo
  generalize Int.log 2 ((digits : ℚ) * 2 ^ scale) = log at below ⊢
  obtain ⟨shift, same⟩ : ∃ shift : Nat, scale = (log + 1 - width) + shift :=
    ⟨(scale - (log + 1 - width)).toNat, by omega⟩
  have whole : (digits : ℚ) * 2 ^ scale / 2 ^ (log + 1 - width) = ((digits * 2 ^ shift : Nat) : ℚ) := by
    rw [same, zpow_add₀ two, zpow_natCast]
    push_cast
    field_simp
  rw [whole, round_natCast, Int.cast_natCast, ← whole, div_mul_cancel₀]
  exact (zpow_pos two_pos _).ne'

end EvmBackend.Rounding
