/-
Quadratic probing with the steps 1, 2, 3, ... in a table whose size is a power of
two comes to every place of the table.
-/

import Mathlib.Data.Fintype.EquivFin
import Mathlib.Data.Nat.Prime.Basic
import Mathlib.Tactic.Ring
import Mathlib.Algebra.Order.Ring.Nat

namespace EvmBackend.TriangularProbe

def position (start size : Nat) : Nat → Nat
  | 0 => start % size
  | step + 1 => (position start size step + (step + 1)) % size

variable {start size : Nat}

theorem position_lt (positive : 0 < size) (step : Nat) : position start size step < size := by
  cases step <;> exact Nat.mod_lt _ positive

theorem two_mul_position (start size step : Nat) : ∃ turns,
    2 * position start size step + 2 * (size * turns) = 2 * start + step * (step + 1) := by
  induction step with
  | zero =>
      refine ⟨start / size, ?_⟩
      have split := Nat.mod_add_div start size
      rw [position]
      omega
  | succ step ih =>
      obtain ⟨turns, sum⟩ := ih
      refine ⟨turns + (position start size step + (step + 1)) / size, ?_⟩
      have split := Nat.mod_add_div (position start size step + (step + 1)) size
      rw [position, Nat.mul_add, Nat.mul_add, ← Nat.add_assoc]
      have product : (step + 1) * (step + 1 + 1) = step * (step + 1) + 2 * (step + 1) := by ring
      rw [product]
      omega

/-- One of two factors with an odd sum is odd, so a power of two that divides the
product divides the other one. -/
theorem dvd_of_odd_sum {left right bits : Nat} (divides : 2 ^ bits ∣ left * right)
    (odd : (left + right) % 2 = 1) : 2 ^ bits ∣ left ∨ 2 ^ bits ∣ right := by
  rcases Nat.mod_two_eq_zero_or_one left with even | leftOdd
  · left
    have coprime : Nat.Coprime (2 ^ bits) right := by
      apply Nat.Coprime.pow_left
      rw [Nat.coprime_two_left, Nat.odd_iff]
      omega
    exact coprime.dvd_of_dvd_mul_right divides
  · right
    have coprime : Nat.Coprime (2 ^ bits) left := by
      apply Nat.Coprime.pow_left
      rw [Nat.coprime_two_left, Nat.odd_iff]
      omega
    exact coprime.dvd_of_dvd_mul_left divides

theorem position_injective {bits first second : Nat} (order : first < second)
    (below : second < 2 ^ bits)
    (same : position start (2 ^ bits) first = position start (2 ^ bits) second) : False := by
  obtain ⟨firstTurns, firstSum⟩ := two_mul_position start (2 ^ bits) first
  obtain ⟨secondTurns, secondSum⟩ := two_mul_position start (2 ^ bits) second
  obtain ⟨more, rfl⟩ := Nat.exists_eq_add_of_lt order
  have expanded : (first + more + 1) * (first + more + 1 + 1) =
      first * (first + 1) + (more + 1) * (2 * first + more + 2) := by ring
  rw [expanded] at secondSum
  have turns : 2 * (2 ^ bits * secondTurns) =
      2 * (2 ^ bits * firstTurns) + (more + 1) * (2 * first + more + 2) := by omega
  have divides : 2 ^ (bits + 1) ∣ (more + 1) * (2 * first + more + 2) := by
    have whole : 2 ^ (bits + 1) ∣
        2 * (2 ^ bits * firstTurns) + (more + 1) * (2 * first + more + 2) :=
      ⟨secondTurns, by rw [← turns, pow_succ]; ring⟩
    have part : 2 ^ (bits + 1) ∣ 2 * (2 ^ bits * firstTurns) :=
      ⟨firstTurns, by rw [pow_succ]; ring⟩
    exact (Nat.dvd_add_right part).mp whole
  rcases dvd_of_odd_sum divides (by omega) with step | sum
  · have bound := Nat.le_of_dvd (by omega) step
    omega
  · have bound := Nat.le_of_dvd (by omega) sum
    omega

theorem exists_position (bits start : Nat) {index : Nat} (inside : index < 2 ^ bits) :
    ∃ step, step < 2 ^ bits ∧ position start (2 ^ bits) step = index := by
  have positive := Nat.two_pow_pos bits
  let place : Fin (2 ^ bits) → Fin (2 ^ bits) := fun step =>
    ⟨position start (2 ^ bits) step, position_lt positive step⟩
  have injective : Function.Injective place := by
    intro first second same
    have positions : position start (2 ^ bits) first = position start (2 ^ bits) second :=
      congrArg Fin.val same
    rcases Nat.lt_trichotomy first second with less | equal | greater
    · exact (position_injective less second.isLt positions).elim
    · exact Fin.ext equal
    · exact (position_injective greater first.isLt positions.symm).elim
  obtain ⟨step, reached⟩ := (Finite.injective_iff_surjective.mp injective) ⟨index, inside⟩
  exact ⟨step, step.isLt, congrArg Fin.val reached⟩

end EvmBackend.TriangularProbe
