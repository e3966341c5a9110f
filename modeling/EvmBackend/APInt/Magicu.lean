/-
The search for the multiplier of an unsigned division.

Before the power whose reciprocal is exact enough, the multiplier is at most the
bound, so that the words hold it; one more round makes it at most twice as
large, and the add flag says that the word has lost the highest bit.
-/

import EvmBackend.APInt.Magic

namespace EvmBackend.APInt

open Reciprocals BitVec

variable {W : Nat}

def Short (W bound divisor p : Nat) : Prop :=
  p + 1 = W ∨ 2 ^ p ≤ bound * shortfall (2 ^ p) divisor

structure SearchingUp (nc d : BitVec W) (search : Search W) : Prop where
  started : W ≤ search.p + 1
  below : search.p < 2 * W
  first : Holds nc search.q1 search.r1 (2 ^ search.p)
  second : Holds d search.q2 search.r2 (2 ^ search.p - 1)
  fits : search.a = false
  short : Short W nc.toNat d.toNat search.p

structure FoundUp (nc d : BitVec W) (found : Search W) : Prop where
  started : W ≤ found.p
  below : found.p ≤ 2 * W
  second : Holds d found.q2 found.r2 (2 ^ found.p - 1)
  flag : found.a = decide (2 ^ W ≤ multiplierFor (2 ^ found.p) d.toNat)
  chosen : nc.toNat * shortfall (2 ^ found.p) d.toNat < 2 ^ found.p
  short : Short W nc.toNat d.toNat (found.p - 1)

section Words

variable {divisor q r : BitVec W} {value : Nat} (positive : 0 < divisor.toNat)
  (holds : Holds divisor q r value)

include positive holds

theorem Holds.next_bound :
    Holds divisor (if divisor - r ≤ r then (q + q + 1, r + r - divisor) else (q + q, r + r)).1
      (if divisor - r ≤ r then (q + q + 1, r + r - divisor) else (q + q, r + r)).2 (2 * value) := by
  have below := Nat.mod_lt value positive
  have remains := holds.remains positive
  have rest : (divisor - r).toNat = divisor.toNat - r.toNat := toNat_sub_of_le (by omega)
  by_cases beyond : divisor.toNat - r.toNat ≤ r.toNat
  · have next := holds.above positive (Nat.zero_le 1) (by omega)
    rw [BitVec.add_zero] at next
    rw [if_pos (by rw [le_def, rest]; exact beyond)]
    exact next
  · have next := holds.under positive 0 (by omega)
    rw [BitVec.add_zero] at next
    rw [if_neg (by rw [le_def, rest]; exact beyond)]
    exact next

end Words

theorem chosen_of_double {nc d : BitVec W} (positive : 0 < d.toNat) :
    nc.toNat * shortfall (2 ^ (2 * W)) d.toNat < 2 ^ (2 * W) := by
  have error : shortfall (2 ^ (2 * W)) d.toNat < d.toNat := by
    unfold shortfall
    omega
  rw [Nat.two_mul, pow_add] at error ⊢
  exact Nat.mul_lt_mul_of_lt_of_lt nc.isLt (error.trans d.isLt)

section Search

variable {nc d : BitVec W} {largest p : Nat} (wide : 3 ≤ W) (bounded : largest < 2 ^ W)
  (numerators : Numerators largest d.toNat) (bound : nc.toNat = lastMultiple largest d.toNat)

include wide bounded numerators bound

omit bounded in
theorem Short.multiplierFor_lt (short : Short W nc.toNat d.toNat p) :
    multiplierFor (2 ^ p) d.toNat < 2 ^ W := by
  rcases short with first | short
  · have double := two_pow_pred (W := W) (by omega)
    have exponent : p = W - 1 := by omega
    have large : 2 ^ 2 ≤ 2 ^ (W - 1) := Nat.pow_le_pow_right (by decide) (by omega)
    have quotient := Nat.div_le_self (2 ^ (W - 1) - 1) d.toNat
    rw [exponent, multiplierFor]
    omega
  · rw [bound] at short
    have most := numerators.multiplierFor_le (Nat.two_pow_pos p) short
    omega

theorem Short.next_div_lt (short : Short W nc.toNat d.toNat p) (below : p + 1 < 2 * W) :
    2 ^ (p + 1) / nc.toNat < 2 ^ W := by
  have some := numerators.two_le_lastMultiple
  have double := two_pow_pred (W := W) (by omega)
  rcases short with first | short
  · rw [first]
    exact Nat.div_lt_self (Nat.two_pow_pos W) (by omega)
  · rw [bound] at short ⊢
    rw [double] at bounded
    rw [pow_succ', double]
    apply numerators.next_div_lt bounded short
    rw [← pow_add]
    exact Nat.pow_le_pow_right (by decide) (by omega)

omit bounded in
theorem magicuRound_holds {search : Search W} (searching : SearchingUp nc d search) :
    let next := magicuRound nc d search
    Holds nc next.q1 next.r1 (2 ^ next.p) ∧ Holds d next.q2 next.r2 (2 ^ next.p - 1) ∧
      next.a = decide (2 ^ W ≤ multiplierFor (2 ^ next.p) d.toNat) := by
  intro next
  have some := numerators.two_le_lastMultiple
  have power : 2 ^ next.p = 2 * 2 ^ search.p := pow_succ' 2 search.p
  have once := Nat.two_pow_pos search.p
  have odd : 2 ^ next.p - 1 = 2 * (2 ^ search.p - 1) + 1 := by omega
  have first : Holds nc next.q1 next.r1 (2 ^ next.p) := by
    rw [power]
    exact searching.first.next_bound (by omega)
  have small := Nat.mod_lt (2 ^ search.p - 1) numerators.positive
  have remains := searching.second.remains numerators.positive
  have fits := searching.short.multiplierFor_lt wide numerators bound
  unfold multiplierFor at fits ⊢
  have double := two_pow_pred (W := W) (by omega)
  have quotient : search.q2.toNat = (2 ^ search.p - 1) / d.toNat := by
    rw [searching.second.quotient, toNat_ofNat_lt (by omega)]
  have rest : (d - search.r2).toNat = d.toNat - search.r2.toNat := toNat_sub_of_le (by omega)
  have one : (search.r2 + 1).toNat = search.r2.toNat + 1 := by
    rw [toNat_add, toNat_one (by omega), Nat.mod_eq_of_lt (by omega)]
  have least := toNat_getSignedMinValue (W := W) wide
  have most : (getSignedMaxValue W).toNat = 2 ^ (W - 1) - 1 := toNat_intMax
  refine ⟨first, ?_⟩
  rw [odd]
  by_cases beyond : d.toNat - search.r2.toNat ≤ search.r2.toNat + 1
  · have second := searching.second.above numerators.positive (Nat.le_refl 1) (by omega)
    have same : next = magicuRound nc d search := rfl
    have taken : d - search.r2 ≤ search.r2 + 1 := by
      rw [le_def, rest, one]
      exact beyond
    obtain ⟨doubled, _⟩ := double_of_le (2 ^ search.p - 1) numerators.positive (Nat.le_refl 1)
      (by omega)
    rw [same, magicuRound, if_pos taken]
    simp only
    refine ⟨second, ?_⟩
    rw [searching.fits, Bool.false_or, decide_eq_decide, le_def, most, quotient, doubled]
    omega
  · have second := searching.second.under numerators.positive 1 (by omega)
    have same : next = magicuRound nc d search := rfl
    have taken : ¬ d - search.r2 ≤ search.r2 + 1 := by
      rw [le_def, rest, one]
      exact beyond
    have under : 2 * ((2 ^ search.p - 1) % d.toNat) + 1 < d.toNat := by omega
    obtain ⟨doubled, _⟩ := double_of_lt (2 ^ search.p - 1) numerators.positive under
    rw [same, magicuRound, if_neg taken]
    simp only
    refine ⟨second, ?_⟩
    rw [searching.fits, Bool.false_or, decide_eq_decide, le_def, least, quotient, doubled]
    omega

theorem magicuRound_test {search : Search W} (searching : SearchingUp nc d search)
    (below : search.p + 1 < 2 * W) :
    let next := magicuRound nc d search
    (next.q1 < d - 1 - next.r2 ∨ next.q1 = d - 1 - next.r2 ∧ next.r1 = 0) ↔
      2 ^ next.p ≤ nc.toNat * shortfall (2 ^ next.p) d.toNat := by
  intro next
  obtain ⟨first, second, _⟩ := magicuRound_holds wide numerators bound searching
  have some := numerators.two_le_lastMultiple
  have positive := numerators.positive
  have small := Nat.mod_lt (2 ^ next.p - 1) positive
  have remains : next.r2.toNat = (2 ^ next.p - 1) % d.toNat := second.remains positive
  have one := toNat_one (W := W) (by omega)
  have less : (d - 1).toNat = d.toNat - 1 := by
    rw [toNat_sub_of_le (by omega), one]
  have delta : (d - 1 - next.r2).toNat = shortfall (2 ^ next.p) d.toNat := by
    rw [toNat_sub_of_le (by omega), less, remains]
    rfl
  rw [missed_iff (by omega) first (searching.short.next_div_lt wide bounded numerators bound below), delta]

theorem magicuLoop_found {rounds : Nat} {search : Search W} (searching : SearchingUp nc d search)
    (enough : 2 * W ≤ search.p + rounds) :
    ∃ found, magicuLoop nc d rounds search = some found ∧ FoundUp nc d found := by
  have below := searching.below
  induction rounds generalizing search with
  | zero => omega
  | succ rounds ih =>
      obtain ⟨first, second, flag⟩ := magicuRound_holds wide numerators bound searching
      have counted : (magicuRound nc d search).p = search.p + 1 := rfl
      have started := searching.started
      rw [magicuLoop]
      by_cases last : search.p + 1 = 2 * W
      · have stops : ¬ (magicuRound nc d search).p < W * 2 := by omega
        simp only [stops, false_and, if_false]
        refine ⟨_, rfl, started, last.le, second, flag, ?_, searching.short⟩
        rw [counted, last]
        exact chosen_of_double numerators.positive
      · have goes : (magicuRound nc d search).p < W * 2 := by omega
        have test := magicuRound_test wide bounded numerators bound searching (by omega)
        by_cases short : 2 ^ (magicuRound nc d search).p ≤
            nc.toNat * shortfall (2 ^ (magicuRound nc d search).p) d.toNat
        · have unset : (magicuRound nc d search).a = false := by
            have fits := Short.multiplierFor_lt wide numerators bound (.inr short)
            rw [flag, decide_eq_false (Nat.not_le_of_lt fits)]
          have later : SearchingUp nc d (magicuRound nc d search) :=
            ⟨Nat.le_succ_of_le started, by omega, first, second, unset, .inr short⟩
          simp only [goes, test, true_and, if_pos short]
          exact ih later (by omega) later.below
        · simp only [goes, test, true_and, if_neg short]
          exact ⟨_, rfl, started, by omega, second, flag, Nat.lt_of_not_le short, searching.short⟩

end Search

/-! ### Unsigned multipliers -/

theorem toNat_getMaxValue_shift (LeadingZeros : Nat) (some : LeadingZeros ≤ W) :
    (getMaxValue W >>> LeadingZeros).toNat = 2 ^ (W - LeadingZeros) - 1 := by
  have positive := Nat.two_pow_pos LeadingZeros
  have above := Nat.two_pow_pos (W - LeadingZeros)
  have split : 2 ^ W = 2 ^ (W - LeadingZeros) * 2 ^ LeadingZeros := by
    rw [← pow_add, Nat.sub_add_cancel some]
  have whole : 2 ^ LeadingZeros * 2 ^ (W - LeadingZeros) = 2 ^ W := by rw [split, Nat.mul_comm]
  have less : 2 ^ LeadingZeros * (2 ^ (W - LeadingZeros) - 1) + 2 ^ LeadingZeros = 2 ^ W := by
    rw [← Nat.mul_succ, Nat.succ_eq_add_one, Nat.sub_add_cancel above, whole]
  rw [toNat_ushiftRight, Nat.shiftRight_eq_div_pow, toNat_getMaxValue]
  apply Nat.div_eq_of_lt_le
  · rw [Nat.mul_comm]
    omega
  · rw [Nat.succ_mul, Nat.mul_comm]
    omega

/-- The multiplier of a divisor, its word and the bit above it, exact for the
numerators with so many zeros at the top. -/
structure UnsignedMagic (LeadingZeros : Nat) (d : BitVec W) (magics : mu W) : Prop where
  shift : magics.s ≤ W
  word : magics.m = BitVec.ofNat W (multiplierFor (2 ^ (W + magics.s)) d.toNat)
  flag : magics.a = decide (2 ^ W ≤ multiplierFor (2 ^ (W + magics.s)) d.toNat)
  exact : ∀ number < 2 ^ (W - LeadingZeros),
    multiplierFor (2 ^ (W + magics.s)) d.toNat * number / 2 ^ (W + magics.s) = number / d.toNat
  short : magics.s = 0 ∨ multiplierFor (2 ^ (W + magics.s - 1)) d.toNat < 2 ^ (W - LeadingZeros) ∧
    ¬ d.toNat ∣ 2 ^ (W + magics.s - 1)

theorem magicu_terminates {LeadingZeros rounds : Nat} {d : BitVec W} (wide : 3 ≤ W)
    (nonzero : d ≠ 0) (fits : d.toNat < 2 ^ (W - LeadingZeros)) (two : LeadingZeros + 2 ≤ W)
    (enough : W + 1 ≤ rounds) :
    ∃ magics, magicu rounds LeadingZeros d = some magics ∧ UnsignedMagic LeadingZeros d magics := by
  have positive := Nat.pos_of_ne_zero (toNat_ne_zero nonzero)
  have largest := toNat_getMaxValue_shift LeadingZeros (by omega : LeadingZeros ≤ W)
  have four : 2 ^ 2 ≤ 2 ^ (W - LeadingZeros) := Nat.pow_le_pow_right (by decide) (by omega)
  have numerators : Numerators (2 ^ (W - LeadingZeros) - 1) d.toNat := ⟨by omega, positive, by omega⟩
  have bounded : 2 ^ (W - LeadingZeros) - 1 < 2 ^ W := by
    rw [← largest]
    exact BitVec.isLt _
  have bound : (getMaxValue W >>> LeadingZeros - (getMaxValue W >>> LeadingZeros - d) % d).toNat =
      lastMultiple (2 ^ (W - LeadingZeros) - 1) d.toNat := by
    have rest : ((getMaxValue W >>> LeadingZeros - d) % d).toNat =
        (2 ^ (W - LeadingZeros) - 1) % d.toNat := by
      rw [toNat_umod, toNat_sub_of_le (by omega), largest, ← Nat.mod_eq_sub_mod (by omega)]
    have small := Nat.mod_le (2 ^ (W - LeadingZeros) - 1) d.toNat
    rw [toNat_sub_of_le (by omega), rest, largest]
    rfl
  have some := numerators.two_le_lastMultiple
  unfold magicu
  simp only [urem_eq nonzero, udiv_eq nonzero, Option.bind_eq_bind, Option.bind_some]
  generalize getMaxValue W >>> LeadingZeros - (getMaxValue W >>> LeadingZeros - d) % d = nc at bound ⊢
  have ncNonzero : nc ≠ 0 := by
    intro zero
    rw [zero] at bound
    have none : (0 : BitVec W).toNat = 0 := toNat_ofNat 0 W
    omega
  have least := toNat_getSignedMinValue wide
  have most : (getSignedMaxValue W).toNat = 2 ^ (W - 1) - 1 := toNat_intMax
  have first := Holds.start (getSignedMinValue W) nc
  have second := Holds.start (getSignedMaxValue W) d
  rw [least] at first
  rw [most] at second
  have last : W - 1 + 1 = W := by omega
  have early : W - 1 < 2 * W := by omega
  have searching : SearchingUp nc d
      { p := W - 1, q1 := getSignedMinValue W / nc,
        r1 := getSignedMinValue W - getSignedMinValue W / nc * nc,
        q2 := getSignedMaxValue W / d,
        r2 := getSignedMaxValue W - getSignedMaxValue W / d * d, a := false } :=
    ⟨last.ge, early, first, second, rfl, .inl last⟩
  have long : 2 * W ≤ W - 1 + rounds := by omega
  obtain ⟨found, loop, holds⟩ := magicuLoop_found wide bounded numerators bound searching long
  simp only [udiv_eq ncNonzero, Option.bind_some, loop]
  refine ⟨_, rfl, ?_⟩
  have started := holds.started
  have below := holds.below
  have power : W + (found.p - W) = found.p := by omega
  constructor
  · change found.p - W ≤ W
    omega
  · simp only [power, multiplierFor]
    rw [holds.second.quotient, ofNat_add]
    rfl
  · simp only [power]
    exact holds.flag
  · intro number within
    simp only [power]
    have whole : 2 ^ (W - LeadingZeros) - 1 + 1 = 2 ^ (W - LeadingZeros) := by omega
    have chosen := holds.chosen
    rw [bound] at chosen
    exact numerators.div_eq whole (by omega) chosen (by omega)
  · simp only [power]
    rcases holds.short with first | short
    · left
      omega
    · right
      rw [bound] at short
      have some := Nat.two_pow_pos (found.p - 1)
      have sum := lastMultiple_add (2 ^ (W - LeadingZeros) - 1) d.toNat
      have multiplier := numerators.multiplierFor_le some short
      refine ⟨by omega, fun divides => ?_⟩
      rw [shortfall_of_dvd positive some divides] at short
      omega

theorem multiplierFor_width {divisor : Nat} (wide : 3 ≤ W) (large : 2 ≤ divisor) :
    multiplierFor (2 ^ W) divisor < 2 ^ W := by
  have half : (2 ^ W - 1) / divisor ≤ (2 ^ W - 1) / 2 := Nat.div_le_div_left large (by decide)
  have eight : 2 ^ 3 ≤ 2 ^ W := Nat.pow_le_pow_right (by decide) wide
  unfold multiplierFor
  omega

section Magic

variable {LeadingZeros : Nat} {d : BitVec W} {magics : mu W} (wide : 3 ≤ W)
  (holds : UnsignedMagic LeadingZeros d magics)

include wide holds

omit wide in
theorem UnsignedMagic.shift_lt (nonzero : d ≠ 0) (fits : magics.a = false) : magics.s < W := by
  have positive := Nat.pos_of_ne_zero (toNat_ne_zero nonzero)
  have flag := holds.flag
  rw [fits] at flag
  have small := of_decide_eq_false flag.symm
  by_contra large
  have last : magics.s = W := by
    have most := holds.shift
    omega
  rw [last, pow_add] at small
  apply small
  have least : (2 ^ W - 1) * d.toNat ≤ 2 ^ W * 2 ^ W - 1 := by
    have bounded := d.isLt
    have some := Nat.two_pow_pos W
    obtain ⟨less, whole⟩ : ∃ less, 2 ^ W = less + 1 := ⟨2 ^ W - 1, by omega⟩
    rw [whole] at bounded ⊢
    rw [Nat.add_sub_cancel]
    have product := Nat.mul_le_mul_left less (Nat.le_of_lt_succ bounded)
    have square : (less + 1) * (less + 1) - 1 = less * less + 2 * less := by
      rw [Nat.add_mul, Nat.mul_add]
      omega
    omega
  have quotient := (Nat.le_div_iff_mul_le positive).mpr least
  unfold multiplierFor
  omega

theorem UnsignedMagic.shift_eq_zero {exponent : Nat} (short : exponent < W)
    (power : d.toNat = 2 ^ exponent) : magics.s = 0 := by
  rcases holds.short with zero | ⟨_, whole⟩
  · exact zero
  · exfalso
    apply whole
    rw [power]
    exact pow_dvd_pow 2 (by have := holds.shift; omega)

theorem UnsignedMagic.multiplier_lt (large : 2 ≤ d.toNat) :
    multiplierFor (2 ^ (W + magics.s)) d.toNat < 2 ^ (W - LeadingZeros + 1) ∨
      magics.s = 0 ∧ multiplierFor (2 ^ W) d.toNat < 2 ^ W := by
  rcases holds.short with zero | ⟨before, _⟩
  · exact .inr ⟨zero, multiplierFor_width wide large⟩
  · left
    have exponent : W + magics.s = W + magics.s - 1 + 1 := by omega
    have double := multiplierFor_double (2 ^ (W + magics.s - 1)) d.toNat (by omega)
      (Nat.two_pow_pos _)
    rw [exponent, pow_succ', pow_succ']
    omega

end Magic

end EvmBackend.APInt
