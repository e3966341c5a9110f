/-
The integers nearest to the square root of a number, and Newton's iteration.

The root of a number is never half way between two integers, so the nearest one
is told by the products of neighbours: it stays below the root up to the product
with the next integer, and is the next one above it.
-/

import Mathlib.Analysis.Real.Sqrt
import Mathlib.Algebra.Order.Floor.Ring
import Mathlib.Tactic.Linarith
import Mathlib.Tactic.LinearCombination
import Mathlib.Tactic.Ring
import Mathlib.Data.Nat.Sqrt

namespace EvmBackend.NearestRoot

def IsNearestRoot (number root : Nat) : Prop :=
  ∀ other : Nat, |√(number : ℝ) - root| ≤ |√(number : ℝ) - other|

variable {number root : Nat}

/-! ### Half way between two integers -/

theorem sqrt_lt_half (number root : Nat) : √(number : ℝ) < root + 1 / 2 ↔ number ≤ root * root + root := by
  have positive : (0 : ℝ) < root + 1 / 2 := by positivity
  have square : ((root : ℝ) + 1 / 2) ^ 2 = ((root * root + root : Nat) : ℝ) + 1 / 4 := by
    push_cast
    ring
  rw [Real.sqrt_lt' positive, square]
  constructor
  · intro below
    by_contra above
    have next : ((root * root + root : Nat) : ℝ) + 1 ≤ number := by
      exact_mod_cast Nat.lt_of_not_le above
    linarith
  · intro below
    have cast : (number : ℝ) ≤ (root * root + root : Nat) := Nat.cast_le.mpr below
    linarith

theorem sqrt_ne_half (number root : Nat) : √(number : ℝ) ≠ root + 1 / 2 := by
  intro half
  have square := Real.sq_sqrt (Nat.cast_nonneg (α := ℝ) number)
  rw [half] at square
  have whole : ((4 * number : Nat) : ℝ) = (4 * (root * root + root) + 1 : Nat) := by
    push_cast
    linear_combination -4 * square
  have parity := Nat.cast_injective whole
  omega

theorem isNearestRoot_iff :
    IsNearestRoot number root ↔ √(number : ℝ) < root + 1 / 2 ∧ (root : ℝ) - 1 / 2 < √(number : ℝ) := by
  constructor
  · intro nearest
    constructor
    · apply lt_of_le_of_ne _ (sqrt_ne_half number root)
      have next := nearest (root + 1)
      rw [Nat.cast_succ, ← sq_le_sq] at next
      linarith
    · cases root with
      | zero =>
          have nonneg := Real.sqrt_nonneg (number : ℝ)
          rw [Nat.cast_zero]
          linarith
      | succ less =>
          have previous := nearest less
          have apart := sqrt_ne_half number less
          rw [Nat.cast_succ, ← sq_le_sq] at previous
          rw [Nat.cast_succ]
          apply lt_of_le_of_ne _ (fun same => apart (by linarith))
          linarith
  · rintro ⟨below, above⟩ other
    rcases lt_trichotomy other root with less | rfl | more
    · have cast : (other : ℝ) + 1 ≤ root := by exact_mod_cast less
      rw [abs_le]
      have side := le_abs_self (√(number : ℝ) - other)
      constructor
      · linarith
      · linarith
    · exact le_refl _
    · have cast : (root : ℝ) + 1 ≤ other := by exact_mod_cast more
      rw [abs_le]
      have side := neg_le_abs (√(number : ℝ) - other)
      constructor
      · linarith
      · linarith

theorem isNearestRoot_iff_mul :
    IsNearestRoot number root ↔ number ≤ root * root + root ∧ root * root ≤ number + (root - 1) := by
  rw [isNearestRoot_iff, sqrt_lt_half]
  refine and_congr_right fun below => ?_
  cases root with
  | zero =>
      have nonneg := Real.sqrt_nonneg (number : ℝ)
      rw [Nat.cast_zero]
      constructor
      · intro _
        omega
      · intro _
        linarith
  | succ less =>
      have half : ((less + 1 : Nat) : ℝ) - 1 / 2 = less + 1 / 2 := by
        push_cast
        ring
      have apart := sqrt_ne_half number less
      rw [half, lt_iff_le_and_ne, ← not_lt, sqrt_lt_half, not_le, Nat.add_sub_cancel]
      have square : (less + 1) * (less + 1) = less * less + less + less + 1 := by ring
      rw [square]
      constructor
      · rintro ⟨above, _⟩
        omega
      · intro above
        exact ⟨by omega, apart.symm⟩

theorem isNearestRoot_sqrt : IsNearestRoot number number.sqrt ↔
    number ≤ number.sqrt * number.sqrt + number.sqrt := by
  have floor := Nat.sqrt_le number
  rw [isNearestRoot_iff_mul]
  omega

theorem isNearestRoot_succ_sqrt :
    IsNearestRoot number (number.sqrt + 1) ↔ number.sqrt * number.sqrt + number.sqrt < number := by
  have ceiling := Nat.lt_succ_sqrt number
  have square : (number.sqrt + 1) * (number.sqrt + 1) =
      number.sqrt * number.sqrt + number.sqrt + number.sqrt + 1 := by ring
  rw [Nat.succ_eq_add_one, square] at ceiling
  rw [isNearestRoot_iff_mul, square]
  omega

def nearestRoot (number : Nat) : Nat :=
  if number ≤ number.sqrt * number.sqrt + number.sqrt then number.sqrt else number.sqrt + 1

theorem le_nearestRoot_iff {least : Nat} (positive : 0 < least) :
    least ≤ nearestRoot number ↔ least * least < number + least := by
  have floor := Nat.sqrt_le number
  have ceiling := Nat.lt_succ_sqrt number
  rw [Nat.succ_eq_add_one] at ceiling
  unfold nearestRoot
  by_cases below : number ≤ number.sqrt * number.sqrt + number.sqrt
  · rw [if_pos below]
    constructor
    · intro within
      have square := Nat.mul_le_mul_left least within
      have wider := Nat.mul_le_mul_right number.sqrt within
      nlinarith
    · intro within
      by_contra above
      nlinarith
  · rw [if_neg below]
    constructor
    · intro within
      nlinarith
    · intro within
      by_contra above
      nlinarith

def newtonStep (number guess : Nat) : Nat := (number / guess + guess) / 2

theorem sqrt_le_newtonStep (number : Nat) {guess : Nat} (some : 0 < guess) :
    number.sqrt ≤ newtonStep number guess := by
  have division := Nat.lt_div_mul_add (a := number) some
  have floor := Nat.sqrt_le number
  unfold newtonStep
  generalize number / guess = quotient at division ⊢
  have halves := Nat.div_add_mod (quotient + guess) 2
  have small := Nat.mod_lt (quotient + guess) (by decide : 0 < 2)
  by_contra below
  nlinarith [sq_nonneg ((quotient : ℤ) + 1 - guess)]

theorem le_sqrt_of_le_newtonStep {guess : Nat} (stops : guess ≤ newtonStep number guess) :
    guess ≤ number.sqrt := by
  unfold newtonStep at stops
  have quotient : guess ≤ number / guess := by omega
  exact Nat.le_sqrt.mpr ((Nat.mul_le_mul_right guess quotient).trans (Nat.div_mul_le_self number guess))

end EvmBackend.NearestRoot
