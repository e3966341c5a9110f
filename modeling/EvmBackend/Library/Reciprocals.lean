/-
Division by a constant as multiplication by a rounded-up reciprocal.

A multiplier for a divisor exceeds the exact reciprocal of a power by an error.
Where the error times the numerator stays below the power, as often as the
numerator is away from the next multiple of the divisor, the product divided by
the power is the quotient.
-/

import Mathlib.Tactic.Ring
import Mathlib.Tactic.Linarith
import Mathlib.Tactic.LinearCombination
import Mathlib.Data.Nat.Prime.Basic

namespace EvmBackend.Reciprocals

variable {power divisor multiplier error number : Nat}

section Multiplier

variable (positive : 0 < divisor) (reciprocal : multiplier * divisor = power + error)

include positive reciprocal

theorem quotient_le : number / divisor * power ≤ multiplier * number := by
  have parts := Nat.div_add_mod number divisor
  apply Nat.le_of_mul_le_mul_right _ positive
  calc number / divisor * power * divisor = divisor * (number / divisor) * power := by ring
    _ ≤ number * power := Nat.mul_le_mul_right _ (by omega)
    _ ≤ number * power + number * error := Nat.le_add_right _ _
    _ = multiplier * number * divisor := by linear_combination number * reciprocal.symm

theorem scaled_product (number : Nat) :
    multiplier * number * divisor + power * (divisor - number % divisor) =
      (number / divisor + 1) * power * divisor + number * error := by
  have parts := Nat.div_add_mod number divisor
  have small := Nat.mod_lt number positive
  obtain ⟨rest, whole⟩ := Nat.exists_eq_add_of_le small.le
  have distance : divisor - number % divisor = rest := by omega
  rw [distance]
  have shifted : number + rest = (number / divisor + 1) * divisor := by
    rw [Nat.add_mul, Nat.one_mul, Nat.mul_comm (number / divisor)]
    omega
  linear_combination number * reciprocal + power * shifted

theorem product_div_power (small : number * error < power * (divisor - number % divisor)) :
    multiplier * number / power = number / divisor := by
  have scaled := scaled_product positive reciprocal number
  apply Nat.div_eq_of_lt_le (quotient_le positive reciprocal)
  apply Nat.lt_of_mul_lt_mul_right (a := divisor)
  omega

theorem product_le (small : number * error ≤ power * (divisor - number % divisor)) :
    multiplier * number ≤ (number / divisor + 1) * power := by
  have scaled := scaled_product positive reciprocal number
  apply Nat.le_of_mul_le_mul_right _ positive
  omega

omit positive in
theorem quotient_lt (some : 0 < number) (wrong : 0 < error) :
    number / divisor * power < multiplier * number := by
  have parts := Nat.div_add_mod number divisor
  have more := Nat.mul_pos some wrong
  apply Nat.lt_of_mul_lt_mul_right (a := divisor)
  calc number / divisor * power * divisor = divisor * (number / divisor) * power := by ring
    _ ≤ number * power := Nat.mul_le_mul_right _ (by omega)
    _ < number * power + number * error := Nat.lt_add_of_pos_right more
    _ = multiplier * number * divisor := by linear_combination number * reciprocal.symm

end Multiplier

/-- The error is small up to the bound it was chosen for, and up to twice the
bound for numbers that are not just below a multiple. -/
theorem error_lt {bound : Nat} (positive : 0 < divisor) (chosen : bound * error < power)
    (close : number ≤ bound ∨ number ≤ 2 * bound ∧ number % divisor + 2 ≤ divisor) :
    number * error < power * (divisor - number % divisor) := by
  have small := Nat.mod_lt number positive
  rcases close with within | ⟨twice, away⟩
  · calc number * error ≤ bound * error := Nat.mul_le_mul_right _ within
      _ < power := chosen
      _ ≤ power * (divisor - number % divisor) := Nat.le_mul_of_pos_right _ (by omega)
  · calc number * error ≤ 2 * bound * error := Nat.mul_le_mul_right _ twice
      _ = 2 * (bound * error) := Nat.mul_assoc _ _ _
      _ < 2 * power := Nat.mul_lt_mul_of_pos_left chosen (by decide)
      _ = power * 2 := Nat.mul_comm _ _
      _ ≤ power * (divisor - number % divisor) := Nat.mul_le_mul_left _ (by omega)

section Doubling

variable {carry : Nat} (value : Nat) (positive : 0 < divisor) (bit : carry ≤ 1)

include positive bit

theorem double_of_le (beyond : divisor ≤ 2 * (value % divisor) + carry) :
    (2 * value + carry) / divisor = 2 * (value / divisor) + 1 ∧
      (2 * value + carry) % divisor = 2 * (value % divisor) + carry - divisor := by
  have parts := Nat.div_add_mod value divisor
  have small := Nat.mod_lt value positive
  have whole : 2 * value + carry = 2 * (value % divisor) + carry - divisor +
      divisor * (2 * (value / divisor) + 1) := by
    rw [Nat.mul_add, Nat.mul_left_comm, Nat.mul_one]
    omega
  have remains : 2 * (value % divisor) + carry - divisor < divisor := by omega
  rw [whole, Nat.add_mul_div_left _ _ positive, Nat.add_mul_mod_self_left, Nat.div_eq_of_lt remains,
    Nat.mod_eq_of_lt remains]
  exact ⟨Nat.zero_add _, rfl⟩

omit bit in
theorem double_of_lt (under : 2 * (value % divisor) + carry < divisor) :
    (2 * value + carry) / divisor = 2 * (value / divisor) ∧
      (2 * value + carry) % divisor = 2 * (value % divisor) + carry := by
  have parts := Nat.div_add_mod value divisor
  have whole : 2 * value + carry = 2 * (value % divisor) + carry + divisor * (2 * (value / divisor)) := by
    rw [Nat.mul_left_comm]
    omega
  rw [whole, Nat.add_mul_div_left _ _ positive, Nat.add_mul_mod_self_left, Nat.div_eq_of_lt under,
    Nat.mod_eq_of_lt under]
  exact ⟨Nat.zero_add _, rfl⟩

end Doubling

theorem chosen_of_le {bound exponent higher : Nat} (positive : 0 < divisor)
    (chosen : bound * (divisor - 2 ^ exponent % divisor) < 2 ^ exponent) (above : exponent ≤ higher) :
    bound * (divisor - 2 ^ higher % divisor) < 2 ^ higher := by
  induction higher, above using Nat.le_induction with
  | base => exact chosen
  | succ higher _ ih =>
      have small := Nat.mod_lt (2 ^ higher) positive
      have error : divisor - 2 ^ (higher + 1) % divisor ≤ 2 * (divisor - 2 ^ higher % divisor) := by
        have double : 2 ^ (higher + 1) % divisor = (2 * (2 ^ higher % divisor)) % divisor := by
          rw [pow_succ', Nat.mul_mod_mod]
        have least : 2 * (2 ^ higher % divisor) ≤ 2 * (2 ^ higher % divisor) % divisor + divisor := by
          have parts := Nat.div_add_mod (2 * (2 ^ higher % divisor)) divisor
          have once : 2 * (2 ^ higher % divisor) / divisor < 2 :=
            (Nat.div_lt_iff_lt_mul positive).mpr (by omega)
          have multiple := Nat.mul_le_mul_left divisor (Nat.le_of_lt_succ once)
          omega
        omega
      calc bound * (divisor - 2 ^ (higher + 1) % divisor)
          ≤ bound * (2 * (divisor - 2 ^ higher % divisor)) := Nat.mul_le_mul_left _ error
        _ = 2 * (bound * (divisor - 2 ^ higher % divisor)) := Nat.mul_left_comm _ _ _
        _ < 2 * 2 ^ higher := Nat.mul_lt_mul_of_pos_left ih (by decide)
        _ = 2 ^ (higher + 1) := (pow_succ' 2 higher).symm

theorem not_chosen_iff {bound : Nat} (positive : 0 < bound) :
    (power / bound < error ∨ power / bound = error ∧ power % bound = 0) ↔ power ≤ bound * error := by
  have parts := Nat.div_add_mod power bound
  have small := Nat.mod_lt power positive
  constructor
  · rintro (less | ⟨same, zero⟩)
    · have more := Nat.mul_le_mul_left bound less
      rw [Nat.mul_succ] at more
      omega
    · rw [same, zero] at parts
      omega
  · intro large
    by_cases less : power / bound < error
    · exact .inl less
    · have fewer := Nat.mul_le_mul_left bound (Nat.le_of_not_lt less)
      have zero : power % bound = 0 := by omega
      refine .inr ⟨?_, zero⟩
      apply Nat.eq_of_mul_eq_mul_left positive
      omega

theorem even_of_dvd_two_pow {exponent : Nat} (large : 2 ≤ divisor) (divides : divisor ∣ 2 ^ exponent) :
    2 ∣ divisor := by
  obtain ⟨log, _, rfl⟩ := (Nat.dvd_prime_pow Nat.prime_two).mp divides
  cases log with
  | zero => omega
  | succ log => exact ⟨2 ^ log, pow_succ' 2 log⟩

theorem mod_of_near (number : Nat) {multiple : Nat} (divides : divisor ∣ multiple) (low : multiple ≤ number)
    (high : number < multiple + divisor) : number % divisor = number - multiple := by
  obtain ⟨times, rfl⟩ := divides
  obtain ⟨rest, rfl⟩ := Nat.exists_eq_add_of_le low
  rw [Nat.mul_add_mod_self_left, Nat.mod_eq_of_lt (by omega), Nat.add_sub_cancel_left]

/-! ### Signed numerators -/

/-- The largest number below the limit that is just below a multiple. -/
def belowMultiple (limit divisor : Nat) : Nat := limit - 1 - limit % divisor

/-- The numerators of a division by a number of one sign, from `half` values of
each sign: all below the limit, and as many more as there are on the other side. -/
structure Range (half limit divisor : Nat) : Prop where
  large : 4 ≤ half
  two : 2 ∣ half
  positive : 0 < divisor
  limited : limit = half ∧ divisor < half ∨ limit = half + 1 ∧ divisor ≤ half

section Range

variable {half limit : Nat} (range : Range half limit divisor)

include range

theorem Range.belowMultiple_add : belowMultiple limit divisor + 1 + limit % divisor = limit := by
  have small := Nat.mod_lt limit range.positive
  have limited := range.limited
  unfold belowMultiple
  omega

theorem Range.divisor_le : divisor ≤ belowMultiple limit divisor + 1 := by
  have sum := range.belowMultiple_add
  have parts := Nat.div_add_mod limit divisor
  have limited := range.limited
  have once : 1 ≤ limit / divisor := (Nat.one_le_div_iff range.positive).mpr (by omega)
  have multiple := Nat.mul_le_mul_left divisor once
  omega

theorem Range.two_le_belowMultiple : 2 ≤ belowMultiple limit divisor := by
  have sum := range.belowMultiple_add
  have least := range.divisor_le
  have small := Nat.mod_lt limit range.positive
  have limited := range.limited
  have large := range.large
  omega

theorem Range.belowMultiple_half (whole : divisor = half) : belowMultiple limit divisor = half - 1 := by
  have limited := range.limited
  have large := range.large
  have limitIs : limit = 1 + half := by omega
  unfold belowMultiple
  rw [limitIs, whole, Nat.add_mod_right, Nat.mod_eq_of_lt (by omega)]
  omega

theorem Range.mul_lt : belowMultiple limit divisor * divisor < half * half := by
  have sum := range.belowMultiple_add
  have large := range.large
  have limited := range.limited
  by_cases whole : divisor = half
  · rw [range.belowMultiple_half whole, whole]
    exact Nat.mul_lt_mul_of_pos_right (by omega) (by omega)
  · calc belowMultiple limit divisor * divisor ≤ half * divisor := Nat.mul_le_mul_right _ (by omega)
      _ < half * half := Nat.mul_lt_mul_of_pos_left (by omega) (by omega)

theorem Range.next_div_lt (missed : power ≤ belowMultiple limit divisor * (divisor - power % divisor))
    (below : 2 * power ≤ half * half) : 2 * power / belowMultiple limit divisor < 2 * half := by
  have large := range.large
  have limited := range.limited
  have some := range.two_le_belowMultiple
  apply (Nat.div_lt_iff_lt_mul (by omega)).mpr
  by_cases whole : divisor = half
  · rw [range.belowMultiple_half whole]
    obtain ⟨less, rfl⟩ : ∃ less, half = less + 1 := ⟨half - 1, by omega⟩
    rw [Nat.add_sub_cancel]
    nlinarith
  · calc 2 * power ≤ 2 * (belowMultiple limit divisor * divisor) :=
        Nat.mul_le_mul_left _ (missed.trans (Nat.mul_le_mul_left _ (Nat.sub_le _ _)))
      _ = 2 * divisor * belowMultiple limit divisor := by ring
      _ < 2 * half * belowMultiple limit divisor := Nat.mul_lt_mul_of_pos_right (by omega) (by omega)

theorem Range.belowMultiple_lt (even : 2 ∣ divisor) : belowMultiple limit divisor < half := by
  have sum := range.belowMultiple_add
  have two := range.two
  have parity := Nat.mod_mod_of_dvd limit even
  have limited := range.limited
  omega

theorem Range.next_multiplier_lt {exponent : Nat} (large : 2 ≤ divisor)
    (missed : 2 ^ exponent ≤ belowMultiple limit divisor * (divisor - 2 ^ exponent % divisor)) :
    2 * 2 ^ exponent / divisor + 1 < 2 * half := by
  have sum := range.belowMultiple_add
  have some := range.large
  have limited := range.limited
  have enough : 2 * 2 ^ exponent < (2 * half - 1) * divisor := by
    obtain ⟨less, rfl⟩ : ∃ less, half = less + 1 := ⟨half - 1, by omega⟩
    have before : 2 * (less + 1) - 1 = 2 * less + 1 := by omega
    rw [before]
    by_cases whole : 2 ^ exponent % divisor = 0
    · have even := even_of_dvd_two_pow large (Nat.dvd_of_mod_eq_zero whole)
      have small := range.belowMultiple_lt even
      rw [whole, Nat.sub_zero] at missed
      nlinarith
    · have narrower : belowMultiple limit divisor * (divisor - 2 ^ exponent % divisor) ≤
          (less + 1) * (divisor - 1) := Nat.mul_le_mul (by omega) (by omega)
      obtain ⟨rest, rfl⟩ : ∃ rest, divisor = rest + 1 := ⟨divisor - 1, by omega⟩
      rw [Nat.add_sub_cancel] at narrower
      have restSmall : rest ≤ less := by omega
      nlinarith
  have divided := (Nat.div_lt_iff_lt_mul range.positive).mpr enough
  omega

end Range

structure Multiplies (half limit divisor multiplier error power : Nat) : Prop where
  range : Range half limit divisor
  reciprocal : multiplier * divisor = power + error
  chosen : belowMultiple limit divisor * error < power

section Multiplies

variable {half limit : Nat} (multiplies : Multiplies half limit divisor multiplier error power)

include multiplies

theorem Multiplies.error_lt (below : number < limit ∨ number = limit ∧ limit % divisor + 2 ≤ divisor) :
    number * error < power * (divisor - number % divisor) := by
  have range := multiplies.range
  have sum := range.belowMultiple_add
  have least := range.divisor_le
  have small := Nat.mod_lt limit range.positive
  apply Reciprocals.error_lt range.positive multiplies.chosen
  by_cases within : number ≤ belowMultiple limit divisor
  · exact .inl within
  · right
    have parts := Nat.div_add_mod limit divisor
    have multiple : divisor ∣ belowMultiple limit divisor + 1 := ⟨limit / divisor, by omega⟩
    have rest := mod_of_near number multiple (by omega) (by omega)
    omega

theorem Multiplies.div_eq (number : Nat) (below : number < limit) :
    multiplier * number / power = number / divisor :=
  product_div_power multiplies.range.positive multiplies.reciprocal (multiplies.error_lt (.inl below))

/-- One numerator lies on the limit. Just below a multiple, the divisor divides
the power and its exponent's excess, so that the error is at most the excess. -/
theorem Multiplies.error_le (number : Nat) {excess : Nat} (scaled : power = half * excess)
    (rounded : error = divisor - power % divisor) (below : number ≤ half) :
    number * error ≤ power * (divisor - number % divisor) := by
  have range := multiplies.range
  have limited := range.limited
  have positive := range.positive
  have small := Nat.mod_lt limit positive
  by_cases close : number < limit ∨ number = limit ∧ limit % divisor + 2 ≤ divisor
  · exact (multiplies.error_lt close).le
  · obtain ⟨rfl, rfl⟩ : number = half ∧ limit = half := by omega
    have rest : limit % divisor + 1 = divisor := by omega
    have divides : divisor ∣ power + excess := by
      have whole : divisor ∣ limit + 1 := by
        have parts := Nat.div_add_mod limit divisor
        exact ⟨limit / divisor + 1, by rw [Nat.mul_add, Nat.mul_one]; omega⟩
      have product := Dvd.dvd.mul_right whole excess
      rw [Nat.add_mul, Nat.one_mul, ← scaled] at product
      exact product
    have excessPositive : 0 < excess := by
      apply Nat.pos_of_ne_zero
      intro zero
      have chosen := multiplies.chosen
      rw [scaled, zero, Nat.mul_zero] at chosen
      exact Nat.not_lt_zero _ chosen
    have most : error ≤ excess := by
      obtain ⟨times, product⟩ := divides
      have parts := Nat.div_add_mod power divisor
      have further : power / divisor < times := by
        apply Nat.lt_of_mul_lt_mul_left (a := divisor)
        omega
      have next := Nat.mul_le_mul_left divisor further
      rw [Nat.mul_succ] at next
      omega
    calc limit * error ≤ limit * excess := Nat.mul_le_mul_left _ most
      _ = power := scaled.symm
      _ ≤ power * (divisor - limit % divisor) := Nat.le_mul_of_pos_right _ (by
          have remains := Nat.mod_lt limit positive
          omega)

theorem Multiplies.tdiv_eq {excess : Nat} {value : Int} (scaled : power = half * excess)
    (rounded : error = divisor - power % divisor) (low : -(half : Int) ≤ value) (high : value < limit) :
    value * multiplier / power + (if value < 0 then 1 else 0) = value.tdiv divisor := by
  have positive := multiplies.range.positive
  have powerPositive : 0 < power := Nat.pos_of_ne_zero fun zero => by
    have chosen := multiplies.chosen
    omega
  by_cases negative : value < 0
  · obtain ⟨number, rfl⟩ : ∃ number : Nat, value = -number := ⟨value.natAbs, by omega⟩
    have some : 0 < number := by omega
    have wrong : 0 < error := by
      have remains := Nat.mod_lt power positive
      omega
    have above := quotient_lt multiplies.reciprocal some wrong
    have within := product_le positive multiplies.reciprocal
      (multiplies.error_le number scaled rounded (by omega))
    have floor : (-number : Int) * multiplier / power = -((number / divisor : Nat) : Int) - 1 := by
      generalize number / divisor = quotient at above within ⊢
      have parted : (quotient + 1 : Int) * power - multiplier * number + power * (-quotient - 1) =
          -number * multiplier := by ring
      zify at above within powerPositive
      exact (Int.ediv_emod_unique powerPositive |>.mpr ⟨parted, by linarith, by linarith⟩).1
    rw [if_pos negative, floor, Int.neg_tdiv, ← Int.ofNat_tdiv]
    ring
  · obtain ⟨number, rfl⟩ : ∃ number : Nat, value = number := ⟨value.toNat, by omega⟩
    have quotient := multiplies.div_eq number (by omega)
    rw [if_neg negative, add_zero, ← Int.ofNat_tdiv, ← quotient, Nat.mul_comm]
    push_cast
    rfl

end Multiplies

/-! ### Unsigned numerators -/

def lastMultiple (largest divisor : Nat) : Nat := largest - largest % divisor

/-- How far the power is from the next multiple, itself one if it is a multiple. -/
def shortfall (power divisor : Nat) : Nat := divisor - 1 - (power - 1) % divisor

theorem lastMultiple_add (largest divisor : Nat) :
    lastMultiple largest divisor + largest % divisor = largest := by
  have small := Nat.mod_le largest divisor
  unfold lastMultiple
  omega

/-- The quotient of the power by the divisor, rounded up. -/
def multiplierFor (power divisor : Nat) : Nat := (power - 1) / divisor + 1

structure Numerators (largest divisor : Nat) : Prop where
  three : 3 ≤ largest
  positive : 0 < divisor
  most : divisor ≤ largest

theorem multiplierFor_mul (positive : 0 < divisor) (some : 0 < power) :
    multiplierFor power divisor * divisor = power + shortfall power divisor := by
  have parts := Nat.div_add_mod (power - 1) divisor
  have small := Nat.mod_lt (power - 1) positive
  unfold multiplierFor shortfall
  rw [Nat.add_mul, Nat.one_mul, Nat.mul_comm]
  omega

theorem multiplierFor_double (power divisor : Nat) (positive : 0 < divisor) (some : 0 < power) :
    multiplierFor (2 * power) divisor ≤ 2 * multiplierFor power divisor := by
  have parts := Nat.div_add_mod (power - 1) divisor
  have small := Nat.mod_lt (power - 1) positive
  unfold multiplierFor
  have bounded : (2 * power - 1) / divisor < 2 * ((power - 1) / divisor + 1) := by
    apply (Nat.div_lt_iff_lt_mul positive).mpr
    rw [Nat.mul_assoc, Nat.add_mul, Nat.one_mul, Nat.mul_comm _ divisor]
    omega
  omega

theorem shortfall_of_dvd (positive : 0 < divisor) (some : 0 < power) (divides : divisor ∣ power) :
    shortfall power divisor = 0 := by
  obtain ⟨times, rfl⟩ := divides
  have once : 0 < times := Nat.pos_of_mul_pos_left some
  obtain ⟨less, rfl⟩ : ∃ less, times = less + 1 := ⟨times - 1, by omega⟩
  have rest : divisor * (less + 1) - 1 = divisor - 1 + divisor * less := by
    rw [Nat.mul_succ]
    omega
  unfold shortfall
  rw [rest, Nat.add_mul_mod_self_left, Nat.mod_eq_of_lt (by omega), Nat.sub_self]

section Numerators

variable {largest : Nat} (numerators : Numerators largest divisor)

include numerators

theorem Numerators.divisor_le : divisor ≤ lastMultiple largest divisor := by
  have sum := lastMultiple_add largest divisor
  have parts := Nat.div_add_mod largest divisor
  have once : 1 ≤ largest / divisor := (Nat.one_le_div_iff numerators.positive).mpr numerators.most
  have multiple := Nat.mul_le_mul_left divisor once
  omega

theorem Numerators.two_le_lastMultiple : 2 ≤ lastMultiple largest divisor := by
  have sum := lastMultiple_add largest divisor
  have least := numerators.divisor_le
  have small := Nat.mod_lt largest numerators.positive
  have three := numerators.three
  omega

theorem Numerators.next_div_lt {half : Nat} (bounded : largest < 2 * half)
    (missed : power ≤ lastMultiple largest divisor * shortfall power divisor)
    (below : power ≤ half * half) : 2 * power / lastMultiple largest divisor < 2 * half := by
  have some := numerators.two_le_lastMultiple
  have least := numerators.divisor_le
  have positive := numerators.positive
  apply (Nat.div_lt_iff_lt_mul (by omega)).mpr
  by_cases large : half < divisor
  · calc 2 * power ≤ 2 * (half * half) := Nat.mul_le_mul_left _ below
      _ = 2 * half * half := by ring
      _ < 2 * half * lastMultiple largest divisor := Nat.mul_lt_mul_of_pos_left (by omega) (by omega)
  · have error : shortfall power divisor ≤ divisor - 1 := Nat.sub_le _ _
    calc 2 * power ≤ 2 * (lastMultiple largest divisor * (divisor - 1)) :=
        Nat.mul_le_mul_left _ (missed.trans (Nat.mul_le_mul_left _ error))
      _ = 2 * (divisor - 1) * lastMultiple largest divisor := by ring
      _ < 2 * half * lastMultiple largest divisor := Nat.mul_lt_mul_of_pos_right (by omega) (by omega)

theorem Numerators.multiplierFor_le (some : 0 < power)
    (missed : power ≤ lastMultiple largest divisor * shortfall power divisor) :
    multiplierFor power divisor ≤ lastMultiple largest divisor := by
  have positive := numerators.positive
  have error : shortfall power divisor ≤ divisor - 1 := Nat.sub_le _ _
  apply Nat.le_of_lt_succ
  apply Nat.lt_of_mul_lt_mul_right (a := divisor)
  calc multiplierFor power divisor * divisor = power + shortfall power divisor :=
        multiplierFor_mul positive some
    _ ≤ lastMultiple largest divisor * shortfall power divisor + shortfall power divisor :=
        Nat.add_le_add_right missed _
    _ = (lastMultiple largest divisor + 1) * shortfall power divisor := by ring
    _ < (lastMultiple largest divisor + 1) * divisor := Nat.mul_lt_mul_of_pos_left (by omega) (by omega)

theorem Numerators.div_eq {exponent width : Nat} (whole : largest + 1 = 2 ^ width)
    (above : width ≤ exponent)
    (chosen : lastMultiple largest divisor * shortfall (2 ^ exponent) divisor < 2 ^ exponent)
    (within : number ≤ largest) :
    multiplierFor (2 ^ exponent) divisor * number / 2 ^ exponent = number / divisor := by
  have positive := numerators.positive
  have sum := lastMultiple_add largest divisor
  have least := numerators.divisor_le
  have small := Nat.mod_lt largest positive
  have some := Nat.two_pow_pos exponent
  apply product_div_power positive (multiplierFor_mul positive some)
  by_cases last : largest % divisor + 1 = divisor
  · have divides : divisor ∣ 2 ^ width := by
      rw [← whole]
      have parts := Nat.div_add_mod largest divisor
      exact ⟨largest / divisor + 1, by rw [Nat.mul_add, Nat.mul_one]; omega⟩
    rw [shortfall_of_dvd positive some (divides.trans (pow_dvd_pow 2 above)), Nat.mul_zero]
    exact Nat.mul_pos some (Nat.sub_pos_of_lt (Nat.mod_lt _ positive))
  · apply error_lt positive chosen
    by_cases inside : number ≤ lastMultiple largest divisor
    · exact .inl inside
    · right
      have parts := Nat.div_add_mod largest divisor
      have multiple : divisor ∣ lastMultiple largest divisor := ⟨largest / divisor, by omega⟩
      have rest := mod_of_near number multiple (Nat.le_of_not_le inside) (by omega)
      omega

end Numerators

end EvmBackend.Reciprocals
