/-
The coefficients of the Euclidean algorithm.

Two neighbouring remainders are multiples of the value, up to the modulus, and
their coefficients alternate in sign, so that the products of each remainder with
the other's coefficient add up to the modulus. A coefficient that belongs to a
remainder with a smaller one after it is therefore at most half of the modulus.
-/

import Mathlib.Tactic.Ring
import Mathlib.Tactic.LinearCombination
import Mathlib.Data.Int.GCD

namespace EvmBackend.Coefficients

/-- Two remainders of the algorithm, the larger first, and their coefficients. -/
structure Remainders (modulus value upper lower : Nat) (first second : Int) : Prop where
  order : lower < upper
  upperIs : (modulus : Int) ∣ value * first - upper
  lowerIs : (modulus : Int) ∣ value * second - lower
  opposite : first ≤ 0 ∧ 0 ≤ second ∨ 0 ≤ first ∧ second ≤ 0
  total : upper * second.natAbs + lower * first.natAbs = modulus
  half : 2 * first.natAbs ≤ modulus
  gcd : upper.gcd lower = modulus.gcd value

variable {modulus value upper lower : Nat} {first second : Int}

theorem start (below : value < modulus) : Remainders modulus value modulus value 0 1 where
  order := below
  upperIs := ⟨-1, by ring⟩
  lowerIs := ⟨0, by ring⟩
  opposite := .inl ⟨Int.le_refl 0, by decide⟩
  total := by
    rw [Int.natAbs_zero, Int.natAbs_one]
    omega
  half := by
    rw [Int.natAbs_zero]
    omega
  gcd := rfl

section Step

variable (remainders : Remainders modulus value upper lower first second) (some : 0 < lower)

include remainders some

theorem half_next : 2 * second.natAbs ≤ modulus := by
  have order := remainders.order
  have total := remainders.total
  calc 2 * second.natAbs ≤ upper * second.natAbs := Nat.mul_le_mul_right _ (by omega)
    _ ≤ modulus := by omega

omit some in
theorem natAbs_next (quotient : Nat) :
    (first - quotient * second).natAbs = first.natAbs + quotient * second.natAbs := by
  rcases remainders.opposite with ⟨low, high⟩ | ⟨high, low⟩
  · obtain ⟨a, rfl⟩ := Int.exists_eq_neg_ofNat low
    obtain ⟨b, rfl⟩ := Int.eq_ofNat_of_zero_le high
    have sum : -(a : Int) - quotient * b = -((a + quotient * b : Nat) : Int) := by
      push_cast
      ring
    rw [sum, Int.natAbs_neg, Int.natAbs_neg, Int.natAbs_natCast, Int.natAbs_natCast, Int.natAbs_natCast]
  · obtain ⟨a, rfl⟩ := Int.eq_ofNat_of_zero_le high
    obtain ⟨b, rfl⟩ := Int.exists_eq_neg_ofNat low
    have sum : (a : Int) - quotient * -b = ((a + quotient * b : Nat) : Int) := by
      push_cast
      ring
    rw [sum, Int.natAbs_neg, Int.natAbs_natCast, Int.natAbs_natCast, Int.natAbs_natCast]

theorem step : Remainders modulus value lower (upper % lower) second
    (first - (upper / lower : Nat) * second) := by
  have parts := Nat.div_add_mod upper lower
  constructor
  · exact Nat.mod_lt _ some
  · exact remainders.lowerIs
  · have whole : (value : Int) * (first - (upper / lower : Nat) * second) - (upper % lower : Nat) =
        value * first - upper - (upper / lower : Nat) * (value * second - lower) := by
      have partsInt : (lower : Int) * (upper / lower : Nat) + (upper % lower : Nat) = upper := by
        exact_mod_cast parts
      linear_combination -partsInt
    rw [whole]
    exact Int.dvd_sub remainders.upperIs (Dvd.dvd.mul_left remainders.lowerIs _)
  · have quotient : (0 : Int) ≤ (upper / lower : Nat) := Int.natCast_nonneg _
    rcases remainders.opposite with ⟨low, high⟩ | ⟨high, low⟩
    · right
      have product := mul_nonneg quotient high
      exact ⟨high, by omega⟩
    · left
      have product := mul_nonpos_of_nonneg_of_nonpos quotient low
      exact ⟨low, by omega⟩
  · rw [natAbs_next remainders]
    calc lower * (first.natAbs + upper / lower * second.natAbs) + upper % lower * second.natAbs
        = (lower * (upper / lower) + upper % lower) * second.natAbs + lower * first.natAbs := by ring
      _ = modulus := by rw [parts, remainders.total]
  · exact half_next remainders some
  · rw [Nat.gcd_comm, ← Nat.gcd_rec, Nat.gcd_comm, remainders.gcd]

end Step

/-- With a last remainder of one, the coefficient is the inverse, once the modulus
is added to a negative one. -/
theorem inverse (divides : (modulus : Int) ∣ value * first - 1) (half : 2 * first.natAbs ≤ modulus)
    (large : 1 < modulus) :
    ∃ inverse : Nat, (inverse : Int) = (if first < 0 then first + modulus else first) ∧
      inverse < modulus ∧ value * inverse % modulus = 1 := by
  have exact : ∀ inverse : Nat, (inverse : Int) = first ∨ (inverse : Int) = first + modulus →
      value * inverse % modulus = 1 := by
    intro inverse same
    have congruent : (modulus : Int) ∣ value * inverse - 1 := by
      rcases same with same | same
      · rw [same]
        exact divides
      · have sum : (value : Int) * inverse - 1 = value * first - 1 + modulus * value := by
          rw [same]
          ring
        rw [sum]
        exact Int.dvd_add divides (Int.dvd_mul_right _ _)
    have one : (value * inverse : Int) % modulus = 1 % modulus :=
      Int.emod_eq_emod_iff_emod_sub_eq_zero.mpr (Int.emod_eq_zero_of_dvd congruent)
    rw [Int.emod_eq_of_lt (a := 1) (by decide) (by omega)] at one
    exact_mod_cast one
  by_cases negative : first < 0
  · refine ⟨(first + modulus).toNat, ?_, ?_, ?_⟩
    · rw [if_pos negative]
      omega
    · omega
    · exact exact _ (.inr (by omega))
  · refine ⟨first.toNat, ?_, ?_, ?_⟩
    · rw [if_neg negative]
      omega
    · omega
    · exact exact _ (.inl (by omega))

end EvmBackend.Coefficients
