/-
The multipliers that stand for a division by a constant.

Both searches keep the quotients and the remainders of a power of two by the
divisor and by the largest numerator that matters, in words that wrap, and
double them until the rounded-up reciprocal is exact enough. The unsigned search
stops at twice the width; nothing stops the signed one, so that it is given a
number of rounds.
-/

import EvmBackend.APInt.DivisionValues
import EvmBackend.Library.Reciprocals

namespace EvmBackend.APInt

open Reciprocals BitVec

variable {W : Nat}

def abs (value : BitVec W) : BitVec W := if isNegative value then -value else value

structure ms (W : Nat) where
  m : BitVec W
  s : Nat
  deriving DecidableEq, Repr

structure mu (W : Nat) where
  m : BitVec W
  a : Bool
  s : Nat
  deriving DecidableEq, Repr

/-- The quotient and the remainder of `2 ^ p`, by the bound and by the divisor. -/
structure Search (W : Nat) where
  p : Nat
  q1 : BitVec W
  r1 : BitVec W
  q2 : BitVec W
  r2 : BitVec W
  a : Bool
  deriving DecidableEq, Repr

def doubled (divisor q r : BitVec W) : BitVec W × BitVec W :=
  let q := q <<< 1
  let r := r <<< 1
  if divisor ≤ r then (q + 1, r - divisor) else (q, r)

def magicRound (anc ad : BitVec W) (search : Search W) : Search W :=
  let first := doubled anc search.q1 search.r1
  let second := doubled ad search.q2 search.r2
  { search with
    p := search.p + 1, q1 := first.1, r1 := first.2, q2 := second.1, r2 := second.2 }

def magicLoop (anc ad : BitVec W) : Nat → Search W → Option (Search W)
  | 0, _ => none
  | rounds + 1, search =>
      let next := magicRound anc ad search
      let delta := ad - next.r2
      if next.q1 < delta ∨ next.q1 = delta ∧ next.r1 = 0 then magicLoop anc ad rounds next
      else some next

def magic (rounds : Nat) (d : BitVec W) : Option (ms W) := do
  let signedMin := getSignedMinValue W
  let ad := abs d
  let t := signedMin + d >>> (W - 1)
  let anc := t - 1 - (← urem t ad)
  let q1 ← udiv signedMin anc
  let q2 ← udiv signedMin ad
  let found ← magicLoop anc ad rounds
    { p := W - 1, q1 := q1, r1 := signedMin - q1 * anc, q2 := q2, r2 := signedMin - q2 * ad,
      a := false }
  let m := found.q2 + 1
  some { m := if isNegative d then -m else m, s := found.p - W }

def magicuRound (nc d : BitVec W) (search : Search W) : Search W :=
  let first :=
    if nc - search.r1 ≤ search.r1 then (search.q1 + search.q1 + 1, search.r1 + search.r1 - nc)
    else (search.q1 + search.q1, search.r1 + search.r1)
  let second :=
    if d - search.r2 ≤ search.r2 + 1 then
      (search.q2 + search.q2 + 1, search.r2 + search.r2 + 1 - d,
        decide (getSignedMaxValue W ≤ search.q2))
    else
      (search.q2 + search.q2, search.r2 + search.r2 + 1, decide (getSignedMinValue W ≤ search.q2))
  { p := search.p + 1, q1 := first.1, r1 := first.2, q2 := second.1, r2 := second.2.1,
    a := search.a || second.2.2 }

def magicuLoop (nc d : BitVec W) : Nat → Search W → Option (Search W)
  | 0, _ => none
  | rounds + 1, search =>
      let next := magicuRound nc d search
      let delta := d - 1 - next.r2
      if next.p < W * 2 ∧ (next.q1 < delta ∨ next.q1 = delta ∧ next.r1 = 0) then
        magicuLoop nc d rounds next
      else some next

def magicu (rounds LeadingZeros : Nat) (d : BitVec W) : Option (mu W) := do
  let allOnes := getMaxValue W >>> LeadingZeros
  let signedMin := getSignedMinValue W
  let signedMax := getSignedMaxValue W
  let nc := allOnes - (← urem (allOnes - d) d)
  let q1 ← udiv signedMin nc
  let q2 ← udiv signedMax d
  let found ← magicuLoop nc d rounds
    { p := W - 1, q1 := q1, r1 := signedMin - q1 * nc, q2 := q2, r2 := signedMax - q2 * d,
      a := false }
  some { m := found.q2 + 1, a := found.a, s := found.p - W }

structure Holds (divisor q r : BitVec W) (value : Nat) : Prop where
  quotient : q = BitVec.ofNat W (value / divisor.toNat)
  remainder : r = BitVec.ofNat W (value % divisor.toNat)

theorem shiftLeft_one (word : BitVec W) : word <<< 1 = word + word := by
  apply eq_of_toNat_eq
  rw [BitVec.toNat_shiftLeft, toNat_add, Nat.shiftLeft_eq, pow_one, Nat.mul_two]

theorem toNat_ofNat_lt {value : Nat} (small : value < 2 ^ W) : (BitVec.ofNat W value).toNat = value := by
  rw [toNat_ofNat, Nat.mod_eq_of_lt small]

section Holds

variable {divisor q r : BitVec W} {value : Nat} (positive : 0 < divisor.toNat)
  (holds : Holds divisor q r value)

include positive holds

theorem Holds.remains : r.toNat = value % divisor.toNat := by
  have below := Nat.mod_lt value positive
  rw [holds.remainder, toNat_ofNat_lt (by omega)]

theorem Holds.above {carry : Nat} (bit : carry ≤ 1) (beyond : divisor.toNat ≤ 2 * r.toNat + carry) :
    Holds divisor (q + q + 1) (r + r + BitVec.ofNat W carry - divisor) (2 * value + carry) := by
  rw [holds.remains positive] at beyond
  obtain ⟨next, rest⟩ := double_of_le value positive bit beyond
  constructor
  · rw [next, holds.quotient, Nat.two_mul, ofNat_add, ofNat_add]
    rfl
  · rw [rest, ← ofNat_sub_ofNat_of_le _ _ divisor.isLt beyond, holds.remainder, Nat.two_mul,
      ofNat_add, ofNat_add, ofNat_toNat, setWidth_eq]

theorem Holds.under (carry : Nat) (under : 2 * r.toNat + carry < divisor.toNat) :
    Holds divisor (q + q) (r + r + BitVec.ofNat W carry) (2 * value + carry) := by
  rw [holds.remains positive] at under
  obtain ⟨next, rest⟩ := double_of_lt value positive under
  constructor
  · rw [next, holds.quotient, Nat.two_mul, ofNat_add]
  · rw [rest, holds.remainder, Nat.two_mul, ofNat_add, ofNat_add]

theorem Holds.doubled (small : 2 * divisor.toNat ≤ 2 ^ W) :
    Holds divisor (doubled divisor q r).1 (doubled divisor q r).2 (2 * value) := by
  have below := Nat.mod_lt value positive
  have remains := holds.remains positive
  have twice : (r + r).toNat = 2 * r.toNat := by
    rw [toNat_add, Nat.mod_eq_of_lt (by omega), Nat.two_mul]
  unfold APInt.doubled
  simp only [shiftLeft_one, le_def, twice]
  by_cases beyond : divisor.toNat ≤ 2 * r.toNat
  · have next := holds.above positive (Nat.zero_le 1) beyond
    rw [BitVec.add_zero] at next
    rw [if_pos beyond]
    exact next
  · have next := holds.under positive 0 (Nat.lt_of_not_le beyond)
    rw [BitVec.add_zero] at next
    rw [if_neg beyond]
    exact next

end Holds

theorem Holds.start (word divisor : BitVec W) :
    Holds divisor (word / divisor) (word - word / divisor * divisor) word.toNat := by
  constructor
  · rw [ofNat_div]
  · rw [ofNat_mod]
    symm
    apply BitVec.eq_sub_iff_add_eq.mpr
    apply eq_of_toNat_eq
    rw [toNat_add, toNat_mul, toNat_umod, toNat_udiv, Nat.add_mod_mod,
      Nat.mul_comm, Nat.mod_add_div, Nat.mod_eq_of_lt word.isLt]

theorem toNat_sub_of_le {left right : BitVec W} (smaller : right.toNat ≤ left.toNat) :
    (left - right).toNat = left.toNat - right.toNat :=
  BitVec.toNat_sub_of_le smaller

theorem missed_iff {bound q r delta : BitVec W} {power : Nat} (positive : 0 < bound.toNat)
    (holds : Holds bound q r power) (fits : power / bound.toNat < 2 ^ W) :
    (q < delta ∨ q = delta ∧ r = 0) ↔ power ≤ bound.toNat * delta.toNat := by
  rw [← not_chosen_iff positive, lt_def, toNat_eq, toNat_eq, holds.remains positive,
    holds.quotient, toNat_ofNat_lt fits]
  rfl

/-! ### The signed search -/

def Missed (W bound divisor p : Nat) : Prop :=
  p + 1 = W ∨ 2 ^ p ≤ bound * (divisor - 2 ^ p % divisor)

structure Searching (anc ad : BitVec W) (search : Search W) : Prop where
  started : W ≤ search.p + 1
  first : Holds anc search.q1 search.r1 (2 ^ search.p)
  second : Holds ad search.q2 search.r2 (2 ^ search.p)
  missed : Missed W anc.toNat ad.toNat search.p

structure Found (anc ad : BitVec W) (found : Search W) : Prop where
  started : W ≤ found.p
  second : Holds ad found.q2 found.r2 (2 ^ found.p)
  chosen : anc.toNat * (ad.toNat - 2 ^ found.p % ad.toNat) < 2 ^ found.p
  missed : Missed W anc.toNat ad.toNat (found.p - 1)

section Signed

variable {anc ad : BitVec W} {limit p : Nat} (wide : 3 ≤ W)
  (range : Range (2 ^ (W - 1)) limit ad.toNat) (bound : anc.toNat = belowMultiple limit ad.toNat)

include wide range bound

theorem Missed.lt (missed : Missed W anc.toNat ad.toNat p) : p + 2 < 2 * W := by
  rcases missed with first | missed
  · omega
  · have product := range.mul_lt
    rw [← bound, ← pow_add] at product
    have below : 2 ^ p < 2 ^ (W - 1 + (W - 1)) :=
      missed.trans_lt ((Nat.mul_le_mul_left _ (Nat.sub_le _ _)).trans_lt product)
    have exponents := (Nat.pow_lt_pow_iff_right (by decide)).mp below
    omega

theorem Missed.next_div_lt (missed : Missed W anc.toNat ad.toNat p) :
    2 ^ (p + 1) / anc.toNat < 2 ^ W := by
  have some := range.two_le_belowMultiple
  have double := two_pow_pred (W := W) (by omega)
  have below := missed.lt wide range bound
  rcases missed with first | missed
  · rw [first]
    exact Nat.div_lt_self (Nat.two_pow_pos W) (by omega)
  · rw [bound] at missed ⊢
    rw [pow_succ', double]
    apply range.next_div_lt missed
    rw [← pow_add, ← pow_succ']
    exact Nat.pow_le_pow_right (by decide) (by omega)

theorem Missed.next_multiplier_lt (large : 2 ≤ ad.toNat) (missed : Missed W anc.toNat ad.toNat p) :
    2 ^ (p + 1) / ad.toNat + 1 < 2 ^ W := by
  have double := two_pow_pred (W := W) (by omega)
  rcases missed with first | missed
  · have half : 2 ^ W / ad.toNat ≤ 2 ^ W / 2 := Nat.div_le_div_left large (by decide)
    have some := range.large
    rw [first]
    omega
  · rw [bound] at missed
    rw [pow_succ', double]
    exact range.next_multiplier_lt large missed

theorem two_mul_le : 2 * anc.toNat ≤ 2 ^ W ∧ 2 * ad.toNat ≤ 2 ^ W := by
  have double := two_pow_pred (W := W) (by omega)
  have sum := range.belowMultiple_add
  have limited := range.limited
  by_cases whole : ad.toNat = 2 ^ (W - 1)
  · have half := range.belowMultiple_half whole
    omega
  · omega

theorem magicRound_holds {search : Search W} (searching : Searching anc ad search) :
    let next := magicRound anc ad search
    Holds anc next.q1 next.r1 (2 ^ next.p) ∧ Holds ad next.q2 next.r2 (2 ^ next.p) ∧
      ((next.q1 < ad - next.r2 ∨ next.q1 = ad - next.r2 ∧ next.r1 = 0) ↔
        2 ^ next.p ≤ anc.toNat * (ad.toNat - 2 ^ next.p % ad.toNat)) := by
  intro next
  have ancPositive : 0 < anc.toNat := by
    have some := range.two_le_belowMultiple
    omega
  obtain ⟨smallAnc, smallAd⟩ := two_mul_le wide range bound
  have power : 2 ^ next.p = 2 * 2 ^ search.p := pow_succ' 2 search.p
  have first : Holds anc next.q1 next.r1 (2 ^ next.p) := by
    rw [power]
    exact searching.first.doubled ancPositive smallAnc
  have second : Holds ad next.q2 next.r2 (2 ^ next.p) := by
    rw [power]
    exact searching.second.doubled range.positive smallAd
  have below := Nat.mod_lt (2 ^ next.p) range.positive
  have remains := second.remains range.positive
  have delta : (ad - next.r2).toNat = ad.toNat - 2 ^ next.p % ad.toNat := by
    rw [toNat_sub_of_le (remains.trans_le below.le), remains]
  refine ⟨first, second, ?_⟩
  rw [missed_iff ancPositive first (searching.missed.next_div_lt wide range bound), delta]

theorem magicLoop_found {rounds : Nat} {search : Search W} (searching : Searching anc ad search)
    (enough : 2 * W ≤ search.p + 2 + rounds) :
    ∃ found, magicLoop anc ad rounds search = some found ∧ Found anc ad found := by
  have below := searching.missed.lt wide range bound
  induction rounds generalizing search with
  | zero => omega
  | succ rounds ih =>
      obtain ⟨first, second, test⟩ := magicRound_holds wide range bound searching
      have started := searching.started
      rw [magicLoop]
      by_cases missed : 2 ^ (magicRound anc ad search).p ≤
          anc.toNat * (ad.toNat - 2 ^ (magicRound anc ad search).p % ad.toNat)
      · have later : Searching anc ad (magicRound anc ad search) :=
          ⟨Nat.le_succ_of_le started, first, second, .inr missed⟩
        have counted : (magicRound anc ad search).p = search.p + 1 := rfl
        simp only [test, if_pos missed]
        exact ih later (by omega) (later.missed.lt wide range bound)
      · simp only [test, if_neg missed]
        exact ⟨_, rfl, started, second, Nat.lt_of_not_le missed, searching.missed⟩

end Signed

/-! ### Signed multipliers -/

theorem toNat_abs (value : BitVec W) : (abs value).toNat = value.toInt.natAbs := by
  unfold abs
  rcases toInt_magnitude value with ⟨sign, magnitude⟩ | ⟨sign, magnitude⟩
  · rw [sign, if_pos rfl, magnitude, Int.natAbs_neg, Int.natAbs_natCast]
  · rw [sign, if_neg Bool.false_ne_true, magnitude, Int.natAbs_natCast]

/-- How many numerators there are on the side where the quotients are positive. -/
def limitOf (d : BitVec W) : Nat := 2 ^ (W - 1) + (isNegative d).toNat

section SignedDivisor

variable {d : BitVec W} (wide : 3 ≤ W) (nonzero : d ≠ 0)

include wide

theorem toNat_getSignedMinValue : (getSignedMinValue W).toNat = 2 ^ (W - 1) :=
  toNat_intMin_of_pos (by omega)

theorem toNat_signBit (word : BitVec W) : (word >>> (W - 1)).toNat = (isNegative word).toNat := by
  have double := two_pow_pred (W := W) (by omega)
  have small := word.isLt
  rw [toNat_ushiftRight, Nat.shiftRight_eq_div_pow]
  unfold isNegative
  rw [msb_eq_decide]
  by_cases high : 2 ^ (W - 1) ≤ word.toNat
  · rw [decide_eq_true high, Bool.toNat_true]
    exact Nat.div_eq_of_lt_le (by omega) (by omega)
  · rw [decide_eq_false high]
    exact Nat.div_eq_of_lt (by omega)

theorem toNat_limitOf : (getSignedMinValue W + d >>> (W - 1)).toNat = limitOf d := by
  have double := two_pow_pred (W := W) (by omega)
  have large : 2 ^ 2 ≤ 2 ^ (W - 1) := Nat.pow_le_pow_right (by decide) (by omega)
  have least := Bool.toNat_le (isNegative d)
  rw [toNat_add, toNat_signBit wide, toNat_getSignedMinValue wide, Nat.mod_eq_of_lt (by omega)]
  rfl

include nonzero

theorem divisor_range : Range (2 ^ (W - 1)) (limitOf d) (abs d).toNat := by
  have large : 2 ^ 2 ≤ 2 ^ (W - 1) := Nat.pow_le_pow_right (by decide) (by omega)
  have some := toInt_ne_zero nonzero
  obtain ⟨low, high⟩ := toInt_bounds d
  refine ⟨large, ⟨2 ^ (W - 2), ?_⟩, ?_, ?_⟩
  · rw [← pow_succ']
    congr 1
    omega
  · rw [toNat_abs]
    omega
  · rw [toNat_abs]
    unfold limitOf
    rw [isNegative_eq]
    by_cases negative : d.toInt < 0
    · rw [decide_eq_true negative]
      right
      exact ⟨rfl, by omega⟩
    · rw [decide_eq_false negative]
      left
      exact ⟨rfl, by omega⟩

/-- A divisor has a multiplier; apart from 1 and -1 it is the rounded-up
reciprocal, with the sign of the divisor, and exact enough. -/
structure SignedMagic (d : BitVec W) (magics : ms W) : Prop where
  shift : magics.s + 1 < W
  fits : 2 ^ (W + magics.s) / (abs d).toNat + 1 < 2 ^ W
  multiplier : magics.m =
    if isNegative d then -BitVec.ofNat W (2 ^ (W + magics.s) / (abs d).toNat + 1)
    else BitVec.ofNat W (2 ^ (W + magics.s) / (abs d).toNat + 1)
  multiplies : Multiplies (2 ^ (W - 1)) (limitOf d) (abs d).toNat
    (2 ^ (W + magics.s) / (abs d).toNat + 1)
    ((abs d).toNat - 2 ^ (W + magics.s) % (abs d).toNat) (2 ^ (W + magics.s))
  missed : Missed W (belowMultiple (limitOf d) (abs d).toNat) (abs d).toNat (W + magics.s - 1)

theorem toNat_anc : (getSignedMinValue W + d >>> (W - 1) - 1 -
    (getSignedMinValue W + d >>> (W - 1)) % abs d).toNat = belowMultiple (limitOf d) (abs d).toNat := by
  have range := divisor_range wide nonzero
  have limit := toNat_limitOf (d := d) wide
  have sum := range.belowMultiple_add
  have one := toNat_one (W := W) (by omega)
  have less : (getSignedMinValue W + d >>> (W - 1) - 1).toNat = limitOf d - 1 := by
    rw [toNat_sub_of_le (by rw [one, limit]; omega), one, limit]
  rw [toNat_sub_of_le (by rw [less, toNat_umod, limit]; omega), less, toNat_umod, limit]
  rfl

theorem magic_terminates {rounds : Nat} (enough : W ≤ rounds) :
    ∃ magics, magic rounds d = some magics ∧ (2 ≤ (abs d).toNat → SignedMagic d magics) := by
  have range := divisor_range wide nonzero
  have positive := range.positive
  have some := range.two_le_belowMultiple
  have least := toNat_getSignedMinValue wide
  have bound := toNat_anc wide nonzero
  have adNonzero : abs d ≠ 0 := by
    intro zero
    rw [zero] at positive
    exact Nat.not_lt_zero _ positive
  unfold magic
  simp only [urem_eq adNonzero, udiv_eq adNonzero, Option.bind_eq_bind, Option.bind_some]
  generalize getSignedMinValue W + d >>> (W - 1) - 1 -
    (getSignedMinValue W + d >>> (W - 1)) % abs d = anc at bound ⊢
  have ancNonzero : anc ≠ 0 := by
    intro zero
    rw [zero] at bound
    have none : (0 : BitVec W).toNat = 0 := toNat_ofNat 0 W
    omega
  have first := Holds.start (getSignedMinValue W) anc
  have second := Holds.start (getSignedMinValue W) (abs d)
  rw [least] at first second
  have last : W - 1 + 1 = W := by omega
  have searching : Searching anc (abs d)
      { p := W - 1, q1 := getSignedMinValue W / anc,
        r1 := getSignedMinValue W - getSignedMinValue W / anc * anc,
        q2 := getSignedMinValue W / abs d,
        r2 := getSignedMinValue W - getSignedMinValue W / abs d * abs d, a := false } :=
    ⟨last.ge, first, second, .inl last⟩
  have long : 2 * W ≤ W - 1 + 2 + rounds := by omega
  obtain ⟨found, loop, holds⟩ := magicLoop_found wide range bound searching long
  simp only [udiv_eq ancNonzero, Option.bind_some, loop]
  refine ⟨_, rfl, fun large => ?_⟩
  have started := holds.started
  have power : W + (found.p - W) = found.p := by omega
  have below := holds.missed.lt wide range bound
  have fits := holds.missed.next_multiplier_lt wide range bound large
  have before : found.p - 1 + 1 = found.p := by omega
  rw [before] at fits
  constructor
  · change found.p - W + 1 < W
    omega
  · simp only [power]
    exact fits
  · simp only [power]
    rw [holds.second.quotient, ofNat_add]
    rfl
  · simp only [power]
    have parts := Nat.div_add_mod (2 ^ found.p) (abs d).toNat
    have small := Nat.mod_lt (2 ^ found.p) positive
    refine ⟨range, ?_, ?_⟩
    · rw [Nat.add_mul, Nat.one_mul, Nat.mul_comm]
      omega
    · rw [← bound]
      exact holds.chosen
  · simp only [power]
    rw [← bound]
    exact holds.missed

end SignedDivisor

end EvmBackend.APInt
