/-
Long division, one digit of the quotient at a time, in any base.

A digit of the quotient is first guessed from the leading digits alone. Two
facts about leading parts bound the guess from both sides; with a divisor whose
leading digit is at least half the base, the guess that survives the test with
one more digit is the digit itself or one more.
-/

import Mathlib.Data.Nat.Digits.Defs
import Mathlib.Tactic.Ring
import Mathlib.Tactic.Linarith

namespace EvmBackend.LongDivision

section Leading

variable {number divisor scale top divisorTop factor : Nat}

theorem div_lt_of_top (number_lt : number < (top + 1) * scale) (le_divisor : divisorTop * scale ≤ divisor)
    (large : top < factor * divisorTop) : number / divisor < factor := by
  apply Nat.div_lt_of_lt_mul
  calc number < (top + 1) * scale := number_lt
    _ ≤ factor * divisorTop * scale := Nat.mul_le_mul_right _ large
    _ = factor * (divisorTop * scale) := Nat.mul_assoc _ _ _
    _ ≤ factor * divisor := Nat.mul_le_mul_left _ le_divisor
    _ = divisor * factor := Nat.mul_comm _ _

theorem le_div_of_top (le_number : top * scale ≤ number) (divisor_le : divisor ≤ (divisorTop + 1) * scale)
    (positive : 0 < divisor) (small : factor * (divisorTop + 1) ≤ top) : factor ≤ number / divisor := by
  rw [Nat.le_div_iff_mul_le positive]
  calc factor * divisor ≤ factor * ((divisorTop + 1) * scale) := Nat.mul_le_mul_left _ divisor_le
    _ = factor * (divisorTop + 1) * scale := (Nat.mul_assoc _ _ _).symm
    _ ≤ top * scale := Nat.mul_le_mul_right _ small
    _ ≤ number := le_number

end Leading

/-! ### The trial digit -/

/-- Three leading digits of the number and two of the divisor, above digits
that weigh less than `scale` together. The quotient has one digit, and the
divisor is normal. -/
structure Window (base scale number divisor u2 u1 u0 v1 v2 : Nat) : Prop where
  below : number < base * divisor
  le_number : ((u2 * base + u1) * base + u0) * scale ≤ number
  number_lt : number < ((u2 * base + u1) * base + u0 + 1) * scale
  le_divisor : (v1 * base + v2) * scale ≤ divisor
  divisor_lt : divisor < (v1 * base + v2 + 1) * scale
  u1_lt : u1 < base
  u0_lt : u0 < base
  v1_lt : v1 < base
  v2_lt : v2 < base
  normal : base ≤ 2 * v1

def Guess (base u2 u1 v1 qp rp : Nat) : Prop := qp * v1 + rp = u2 * base + u1

def TooLarge (base u0 v2 qp rp : Nat) : Prop := qp = base ∨ qp * v2 > base * rp + u0

namespace Window

variable {base scale number divisor u2 u1 u0 v1 v2 qp rp : Nat}

section

variable (window : Window base scale number divisor u2 u1 u0 v1 v2)

include window

theorem divisor_pos : 0 < divisor := by
  by_contra zero
  have below := window.below
  rw [Nat.eq_zero_of_not_pos zero, Nat.mul_zero] at below
  exact Nat.not_lt_zero _ below

theorem v1_pos : 0 < v1 := by
  have large := window.normal
  have some := window.v1_lt
  omega

theorem base_le_top : base ≤ v1 * base + v2 :=
  (Nat.le_mul_of_pos_left _ window.v1_pos).trans (Nat.le_add_right _ _)

theorem lt_of_top_le {factor : Nat} (fits : factor * (v1 * base + v2) ≤ (u2 * base + u1) * base + u0) :
    factor ≤ base := by
  have chain : factor * (v1 * base + v2) * scale < base * (v1 * base + v2 + 1) * scale := by
    calc factor * (v1 * base + v2) * scale ≤ ((u2 * base + u1) * base + u0) * scale :=
          Nat.mul_le_mul_right _ fits
      _ ≤ number := window.le_number
      _ < base * divisor := window.below
      _ ≤ base * ((v1 * base + v2 + 1) * scale) := Nat.mul_le_mul_left _ window.divisor_lt.le
      _ = base * (v1 * base + v2 + 1) * scale := (Nat.mul_assoc _ _ _).symm
  have small := Nat.lt_of_mul_lt_mul_right chain
  have large := window.base_le_top
  by_contra beyond
  have more : (base + 1) * (v1 * base + v2) ≤ factor * (v1 * base + v2) :=
    Nat.mul_le_mul_right _ (by omega)
  nlinarith

section

variable (guess : Guess base u2 u1 v1 qp rp)

include guess

theorem guess_le : qp ≤ base + 1 ∧ (qp = base + 1 → rp + v1 < base) := by
  have leading : u2 ≤ v1 := by
    have chain : u2 * (base * base * scale) < (v1 + 1) * (base * base * scale) := by
      calc u2 * (base * base * scale) ≤ ((u2 * base + u1) * base + u0) * scale := by
            have : ((u2 * base + u1) * base + u0) * scale =
              u2 * (base * base * scale) + (u1 * base + u0) * scale := by ring
            omega
        _ ≤ number := window.le_number
        _ < base * divisor := window.below
        _ ≤ base * ((v1 * base + v2 + 1) * scale) := Nat.mul_le_mul_left _ window.divisor_lt.le
        _ ≤ base * ((v1 * base + base) * scale) :=
            Nat.mul_le_mul_left _ (Nat.mul_le_mul_right _ (by have := window.v2_lt; omega))
        _ = (v1 + 1) * (base * base * scale) := by ring
    exact Nat.le_of_lt_succ (Nat.lt_of_mul_lt_mul_right chain)
  have total : qp * v1 + rp ≤ v1 * base + u1 := by
    rw [show qp * v1 + rp = u2 * base + u1 from guess]
    exact Nat.add_le_add_right (Nat.mul_le_mul_right _ leading) _
  have digit := window.u1_lt
  have normal := window.normal
  constructor
  · by_contra beyond
    have more : (base + 2) * v1 ≤ qp * v1 := Nat.mul_le_mul_right _ (by omega)
    nlinarith
  · intro exactly
    rw [exactly] at total
    nlinarith

theorem div_le_guess (rest : rp < v1) : number / divisor ≤ qp := by
  have leading : number < (u2 * base + u1 + 1) * (base * scale) := by
    calc number < ((u2 * base + u1) * base + u0 + 1) * scale := window.number_lt
      _ ≤ ((u2 * base + u1) * base + base) * scale :=
          Nat.mul_le_mul_right _ (by have := window.u0_lt; omega)
      _ = (u2 * base + u1 + 1) * (base * scale) := by ring
  have divides : v1 * (base * scale) ≤ divisor := by
    calc v1 * (base * scale) = v1 * base * scale := (Nat.mul_assoc _ _ _).symm
      _ ≤ (v1 * base + v2) * scale := Nat.mul_le_mul_right _ (Nat.le_add_right _ _)
      _ ≤ divisor := window.le_divisor
  apply Nat.le_of_lt_succ
  apply div_lt_of_top leading divides
  rw [← show qp * v1 + rp = u2 * base + u1 from guess, Nat.succ_mul]
  omega

theorem div_lt_of_tooLarge (large : TooLarge base u0 v2 qp rp) :
    number / divisor < qp := by
  rcases large with same | large
  · rw [same]
    apply Nat.div_lt_of_lt_mul
    rw [Nat.mul_comm]
    exact window.below
  · apply div_lt_of_top window.number_lt window.le_divisor
    rw [← show qp * v1 + rp = u2 * base + u1 from guess]
    calc (qp * v1 + rp) * base + u0 = qp * v1 * base + (base * rp + u0) := by ring
      _ < qp * v1 * base + qp * v2 := Nat.add_lt_add_left large _
      _ = qp * (v1 * base + v2) := by ring

theorem passed (fits : ¬ TooLarge base u0 v2 qp rp) :
    qp < base ∧ qp ≤ number / divisor + 1 := by
  obtain ⟨different, small⟩ := not_or.mp fits
  have leading : qp * (v1 * base + v2) ≤ (u2 * base + u1) * base + u0 := by
    rw [← show qp * v1 + rp = u2 * base + u1 from guess]
    calc qp * (v1 * base + v2) = qp * v1 * base + qp * v2 := by ring
      _ ≤ qp * v1 * base + (base * rp + u0) := Nat.add_le_add_left (Nat.le_of_not_lt small) _
      _ = (qp * v1 + rp) * base + u0 := by ring
  have bounded : qp < base := lt_of_le_of_ne (window.lt_of_top_le leading) different
  refine ⟨bounded, ?_⟩
  cases qp with
  | zero => exact Nat.zero_le _
  | succ less =>
      apply Nat.succ_le_succ
      apply le_div_of_top window.le_number window.divisor_lt.le window.divisor_pos
      have large := window.base_le_top
      calc less * (v1 * base + v2 + 1) = less * (v1 * base + v2) + less := by ring
        _ ≤ less * (v1 * base + v2) + (v1 * base + v2) := by omega
        _ = (less + 1) * (v1 * base + v2) := by ring
        _ ≤ (u2 * base + u1) * base + u0 := leading

theorem guess_le_add_two : qp ≤ number / divisor + 2 := by
  by_contra beyond
  have two : 2 ≤ qp := (Nat.le_add_left 2 _).trans (Nat.lt_of_not_le beyond).le
  obtain ⟨less, rfl⟩ := Nat.exists_eq_add_of_le' two
  have bounded := (window.guess_le guess).1
  have normal := window.normal
  have leading : (u2 * base + u1) * (base * scale) ≤ number := by
    calc (u2 * base + u1) * (base * scale) = (u2 * base + u1) * base * scale :=
          (Nat.mul_assoc _ _ _).symm
      _ ≤ ((u2 * base + u1) * base + u0) * scale := Nat.mul_le_mul_right _ (Nat.le_add_right _ _)
      _ ≤ number := window.le_number
  have divides : divisor ≤ (v1 + 1) * (base * scale) := by
    calc divisor ≤ (v1 * base + v2 + 1) * scale := window.divisor_lt.le
      _ ≤ (v1 * base + base) * scale :=
          Nat.mul_le_mul_right _ (by have := window.v2_lt; omega)
      _ = (v1 + 1) * (base * scale) := by ring
  have small : less * (v1 + 1) ≤ u2 * base + u1 := by
    rw [← show (less + 2) * v1 + rp = u2 * base + u1 from guess]
    calc less * (v1 + 1) = less * v1 + less := by ring
      _ ≤ less * v1 + 2 * v1 := by omega
      _ = (less + 2) * v1 := by ring
      _ ≤ (less + 2) * v1 + rp := Nat.le_add_right _ _
  have reached := le_div_of_top leading divides window.divisor_pos small
  omega

theorem trial (rest : rp < v1) {digit : Nat}
    (first : ¬ TooLarge base u0 v2 qp rp → digit = qp)
    (second : TooLarge base u0 v2 qp rp →
      ¬ (rp + v1 < base ∧ TooLarge base u0 v2 (qp - 1) (rp + v1)) → digit = qp - 1)
    (third : TooLarge base u0 v2 qp rp → rp + v1 < base →
      TooLarge base u0 v2 (qp - 1) (rp + v1) → digit = qp - 2) :
    number / divisor ≤ digit ∧ digit ≤ number / divisor + 1 ∧ digit < base := by
  have bounded := window.guess_le guess
  have natural := Nat.zero_le (number / divisor)
  by_cases large : TooLarge base u0 v2 qp rp
  · have above := window.div_lt_of_tooLarge guess large
    have less : Guess base u2 u1 v1 (qp - 1) (rp + v1) := by
      obtain ⟨before, rfl⟩ := Nat.exists_eq_add_of_lt (Nat.zero_lt_of_lt above)
      rw [Guess, ← show (0 + before + 1) * v1 + rp = u2 * base + u1 from guess, Nat.add_sub_cancel]
      ring
    by_cases both : rp + v1 < base ∧ TooLarge base u0 v2 (qp - 1) (rp + v1)
    · have farther := window.div_lt_of_tooLarge less both.2
      have near := window.guess_le_add_two guess
      rw [third large both.1 both.2]
      omega
    · rw [second large both]
      have passes : ¬ TooLarge base u0 v2 (qp - 1) (rp + v1) := by
        by_cases short : rp + v1 < base
        · exact fun again => both ⟨short, again⟩
        · -- the remainder has outgrown the digits, so the product cannot exceed it
          have digits : qp - 1 < base := by
            have two := bounded.2
            omega
          have product : (qp - 1) * v2 ≤ base * (rp + v1) := by
            calc (qp - 1) * v2 ≤ base * base := Nat.mul_le_mul digits.le window.v2_lt.le
              _ ≤ base * (rp + v1) := Nat.mul_le_mul_left _ (Nat.le_of_not_lt short)
          intro again
          rcases again with same | beyond <;> omega
      have upper := window.passed less passes
      omega
  · rw [first large]
    exact ⟨window.div_le_guess guess rest, (window.passed guess large).2, (window.passed guess large).1⟩

end

end

end Window

end EvmBackend.LongDivision
