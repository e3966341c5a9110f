/-
Multiples of a constant, told by a product with an inverse.

Modulo a power of two the product with the inverse of an odd number permutes the
values, and the multiples of that number are those that become small. For an
even number the low bits of the product are moved to the top, where they make
every value that is no multiple large.
-/

import Mathlib.Tactic.Ring
import Mathlib.Tactic.Linarith
import Mathlib.Tactic.LinearCombination

namespace EvmBackend.InverseMultiples

def rotated (width amount value : Nat) : Nat :=
  value / 2 ^ amount + value % 2 ^ amount * 2 ^ (width - amount)

variable {width amount odd inverse value bound : Nat}

theorem rotated_of_multiple (multiple : Nat) :
    rotated width amount (multiple * 2 ^ amount) = multiple := by
  unfold rotated
  rw [Nat.mul_div_cancel _ (Nat.two_pow_pos amount), Nat.mul_mod_left, Nat.zero_mul, Nat.add_zero]

theorem eq_of_rotated_le (small : bound < 2 ^ (width - amount))
    (rotatedSmall : rotated width amount value ≤ bound) :
    value = rotated width amount value * 2 ^ amount := by
  have none : value % 2 ^ amount = 0 := by
    by_contra some
    have large : 1 * 2 ^ (width - amount) ≤ value % 2 ^ amount * 2 ^ (width - amount) :=
      Nat.mul_le_mul_right _ (Nat.pos_of_ne_zero some)
    have nonneg := Nat.zero_le (value / 2 ^ amount)
    unfold rotated at rotatedSmall
    omega
  unfold rotated
  rw [none, Nat.zero_mul, Nat.add_zero, Nat.div_mul_cancel (Nat.dvd_of_mod_eq_zero none)]

theorem rotated_le_iff (below : amount ≤ width) (inverseIs : inverse * odd % 2 ^ width = 1 % 2 ^ width)
    (valueSmall : value < 2 ^ width) (bounded : bound * (odd * 2 ^ amount) < 2 ^ width) (some : 0 < odd) :
    rotated width amount (value * inverse % 2 ^ width) ≤ bound ↔
      ∃ factor ≤ bound, value = factor * (odd * 2 ^ amount) := by
  have split : 2 ^ width = 2 ^ (width - amount) * 2 ^ amount := by
    rw [← pow_add, Nat.sub_add_cancel below]
  have boundSmall : bound * 2 ^ amount < 2 ^ width := by
    calc bound * 2 ^ amount ≤ bound * (odd * 2 ^ amount) :=
          Nat.mul_le_mul_left _ (Nat.le_mul_of_pos_left _ some)
      _ < 2 ^ width := bounded
  have small : bound < 2 ^ (width - amount) := by
    rw [split] at boundSmall
    exact Nat.lt_of_mul_lt_mul_right boundSmall
  constructor
  · intro rotatedSmall
    have product := eq_of_rotated_le small rotatedSmall
    refine ⟨_, rotatedSmall, ?_⟩
    generalize rotated width amount (value * inverse % 2 ^ width) = factor at product rotatedSmall
    have back : value * inverse * odd % 2 ^ width = value := by
      rw [Nat.mul_assoc, Nat.mul_mod, inverseIs, ← Nat.mul_mod, Nat.mul_one, Nat.mod_eq_of_lt valueSmall]
    have factorSmall : factor * (odd * 2 ^ amount) < 2 ^ width :=
      (Nat.mul_le_mul_right _ rotatedSmall).trans_lt bounded
    calc value = value * inverse * odd % 2 ^ width := back.symm
      _ = (value * inverse % 2 ^ width) * odd % 2 ^ width := (Nat.mod_mul_mod ..).symm
      _ = factor * (odd * 2 ^ amount) % 2 ^ width := by
          rw [product]
          congr 1
          ring
      _ = factor * (odd * 2 ^ amount) := Nat.mod_eq_of_lt factorSmall
  · rintro ⟨factor, factorSmall, rfl⟩
    have shifted : factor * 2 ^ amount < 2 ^ width :=
      (Nat.mul_le_mul_right _ factorSmall).trans_lt boundSmall
    have product : factor * (odd * 2 ^ amount) * inverse % 2 ^ width = factor * 2 ^ amount := by
      have order : factor * (odd * 2 ^ amount) * inverse = factor * 2 ^ amount * (inverse * odd) := by ring
      rw [order, Nat.mul_mod, inverseIs, ← Nat.mul_mod, Nat.mul_one, Nat.mod_eq_of_lt shifted]
    rw [product, rotated_of_multiple]
    exact factorSmall

def lastFactor (largest divisor remainder : Nat) : Nat :=
  if largest % divisor < remainder then largest / divisor - 1 else largest / divisor

theorem lastFactor_bounds {largest divisor remainder : Nat} (less : remainder < divisor)
    (most : divisor ≤ largest) :
    lastFactor largest divisor remainder * divisor + remainder ≤ largest ∧
      largest < (lastFactor largest divisor remainder + 1) * divisor + remainder := by
  have parts := Nat.div_add_mod largest divisor
  have small := Nat.mod_lt largest (Nat.zero_lt_of_lt less)
  have once : 1 ≤ largest / divisor := (Nat.one_le_div_iff (Nat.zero_lt_of_lt less)).mpr most
  unfold lastFactor
  by_cases short : largest % divisor < remainder
  · obtain ⟨fewer, whole⟩ : ∃ fewer, largest / divisor = fewer + 1 := ⟨largest / divisor - 1, by omega⟩
    rw [if_pos short, whole, Nat.add_sub_cancel]
    rw [whole, Nat.mul_comm, Nat.add_mul, Nat.one_mul] at parts
    rw [Nat.add_mul, Nat.one_mul]
    omega
  · rw [if_neg short, Nat.add_mul, Nat.one_mul]
    rw [Nat.mul_comm] at parts
    omega

theorem mod_eq_iff {number remainder : Nat} (below : amount ≤ width)
    (inverseIs : inverse * odd % 2 ^ width = 1 % 2 ^ width) (some : 0 < odd)
    (numberSmall : number < 2 ^ width) (less : remainder < odd * 2 ^ amount)
    (most : odd * 2 ^ amount ≤ 2 ^ width - 1) :
    rotated width amount ((2 ^ width - remainder + number) % 2 ^ width * inverse % 2 ^ width) ≤
        lastFactor (2 ^ width - 1) (odd * 2 ^ amount) remainder ↔
      number % (odd * 2 ^ amount) = remainder := by
  have positive := Nat.two_pow_pos width
  obtain ⟨fits, next⟩ := lastFactor_bounds less most
  rw [rotated_le_iff below inverseIs (Nat.mod_lt _ positive) (by omega) some]
  generalize odd * 2 ^ amount = divisor at less most fits next ⊢
  generalize lastFactor (2 ^ width - 1) divisor remainder = bound at fits next ⊢
  constructor
  · rintro ⟨factor, factorSmall, whole⟩
    have product := Nat.mul_le_mul_right divisor factorSmall
    by_cases above : remainder ≤ number
    · have wraps : 2 ^ width - remainder + number = 2 ^ width + (number - remainder) := by omega
      rw [wraps, Nat.add_mod_left, Nat.mod_eq_of_lt (by omega)] at whole
      have split : number = remainder + factor * divisor := by omega
      rw [split, Nat.add_mul_mod_self_right, Nat.mod_eq_of_lt less]
    · rw [Nat.mod_eq_of_lt (by omega)] at whole
      omega
  · intro rest
    have parts := Nat.div_add_mod number divisor
    rw [Nat.mul_comm] at parts
    have wraps : 2 ^ width - remainder + number = 2 ^ width + (number - remainder) := by omega
    refine ⟨number / divisor, ?_, ?_⟩
    · by_contra large
      have product := Nat.mul_le_mul_right divisor (Nat.lt_of_not_le large)
      rw [Nat.succ_eq_add_one] at product
      omega
    · rw [wraps, Nat.add_mod_left, Nat.mod_eq_of_lt (by omega)]
      omega

/-- Moved up by the largest multiple, the multiples on both sides of zero are the
first ones, unless the least number is a multiple itself. -/
theorem shifted_multiple_iff {divisor half : Nat} {number : Int} (positive : 0 < divisor)
    (low : -(half : Int) ≤ number) (high : number < half) (notHalf : ¬ divisor ∣ half) :
    (∃ factor ≤ 2 * ((half - 1) / divisor),
        (number + ((half - 1) / divisor * divisor : Nat)) % (2 * half : Nat) =
          (factor * divisor : Nat)) ↔
      (divisor : Int) ∣ number := by
  have some : 0 < half := by omega
  have most := Nat.div_mul_le_self (half - 1) divisor
  have beyond := Nat.lt_div_mul_add (a := half - 1) positive
  generalize (half - 1) / divisor = last at most beyond ⊢
  constructor
  · rintro ⟨factor, small, shifted⟩
    have product := Nat.mul_le_mul_right divisor small
    rw [Nat.mul_assoc] at product
    have bottom : 0 ≤ number + (last * divisor : Nat) := by
      by_contra negative
      rw [← Int.add_emod_right, Int.emod_eq_of_lt (by omega) (by omega)] at shifted
      omega
    rw [Int.emod_eq_of_lt bottom (by omega)] at shifted
    refine ⟨factor - last, ?_⟩
    push_cast at shifted
    linear_combination shifted
  · rintro ⟨factor, rfl⟩
    have next : ((last + 1) * divisor : Nat) ≠ half :=
      fun same => notHalf ⟨last + 1, by rw [← same, Nat.mul_comm]⟩
    rw [Nat.add_mul, Nat.one_mul] at next
    have upper : factor ≤ last := by
      by_contra above
      have product := Int.mul_le_mul_of_nonneg_left (show (last : Int) + 1 ≤ factor by omega)
        (Int.natCast_nonneg divisor)
      rw [Int.mul_add, Int.mul_one, Int.mul_comm, ← Int.natCast_mul] at product
      omega
    have lower : -(last : Int) ≤ factor := by
      by_contra under
      have product := Int.mul_le_mul_of_nonneg_left (show factor ≤ -((last : Int) + 1) by omega)
        (Int.natCast_nonneg divisor)
      rw [Int.mul_neg, Int.mul_add, Int.mul_one, Int.mul_comm (divisor : Int) last, ← Int.natCast_mul] at product
      omega
    obtain ⟨moved, same⟩ := Int.eq_ofNat_of_zero_le (show 0 ≤ factor + last by omega)
    have small : moved ≤ 2 * last := by omega
    have product := Nat.mul_le_mul_right divisor small
    rw [Nat.mul_assoc] at product
    have sum : (divisor : Int) * factor + (last * divisor : Nat) = (moved * divisor : Nat) := by
      push_cast
      rw [← same]
      ring
    refine ⟨moved, small, ?_⟩
    rw [sum, Int.emod_eq_of_lt (by omega) (by omega)]

end EvmBackend.InverseMultiples
