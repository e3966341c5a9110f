/-
The operations that tell of an overflow: the flag, the word and the saturated
value, against the exact result.

The flag of the signed multiplication divides the product back by both factors.
In width one minus one is also the least value and its own quotient, so the one
overflow of that width goes unseen.
-/

import EvmBackend.APInt.DivRem

namespace EvmBackend.APInt

open BitVec

variable {W : Nat}

def isAllOnesValue (value : BitVec W) : Bool := value == getMaxValue W

def sdiv_ov (left right : BitVec W) : Option (BitVec W × Bool) := do
  let quotient ← sdiv left right
  some (quotient, isMinSignedValue left && isAllOnesValue right)

def InUnsigned (W : Nat) (value : Int) : Prop := 0 ≤ value ∧ value < (2 ^ W : Nat)

def saturateUnsigned (W : Nat) (value : Int) : Int := max 0 (min value ((2 ^ W : Nat) - 1))

/-- The word is what is left of the value, and the flag tells whether something is lost. -/
structure Exact (InRange : Int → Prop) (result : BitVec W × Bool) (value : Int) : Prop where
  word : result.1 = BitVec.ofInt W value
  flag : result.2 = true ↔ ¬ InRange value

structure ExactSigned (result : BitVec W × Bool) (saturated : BitVec W) (value : Int) : Prop
    extends Exact (InSigned W) result value where
  saturates : saturated.toInt = saturate W value

structure ExactUnsigned (result : BitVec W × Bool) (saturated : BitVec W) (value : Int) : Prop
    extends Exact (InUnsigned W) result value where
  saturates : (saturated.toNat : Int) = saturateUnsigned W value

/-- All the operations but the signed multiplication. A shift by the width or more
still has its word. -/
structure ExactOthers (left right : BitVec W) : Prop where
  sadd : ExactSigned (sadd_ov left right) (sadd_sat left right) (left.toInt + right.toInt)
  ssub : ExactSigned (ssub_ov left right) (ssub_sat left right) (left.toInt - right.toInt)
  sdiv : right ≠ 0 → ∃ result, sdiv_ov left right = some result ∧
    Exact (InSigned W) result (left.toInt.tdiv right.toInt)
  sshl : right.toNat < W →
    ExactSigned (sshl_ov left right) (sshl_sat left right) (left.toInt * 2 ^ right.toNat)
  uadd : ExactUnsigned (uadd_ov left right) (uadd_sat left right) (left.toNat + right.toNat)
  usub : ExactUnsigned (usub_ov left right) (usub_sat left right) (left.toNat - right.toNat)
  umul : ExactUnsigned (umul_ov left right) (umul_sat left right) (left.toNat * right.toNat)
  ushl : right.toNat < W →
    ExactUnsigned (ushl_ov left right) (ushl_sat left right) (left.toNat * 2 ^ right.toNat)
  shifted : (sshl_ov left right).1 = BitVec.ofInt W (left.toInt * 2 ^ right.toNat) ∧
    (ushl_ov left right).1 = BitVec.ofInt W (left.toNat * 2 ^ right.toNat)

structure ExactOperations (left right : BitVec W) : Prop extends ExactOthers left right where
  smul : ExactSigned (smul_ov left right) (smul_sat left right) (left.toInt * right.toInt)

theorem eq_ofInt_of_toInt {word : BitVec W} {value : Int} (wrapped : word.toInt = value.bmod (2 ^ W)) :
    word = BitVec.ofInt W value := by
  apply eq_of_toInt_eq
  rw [wrapped, toInt_ofInt]

theorem eq_ofInt_of_toNat {word : BitVec W} {value : Nat} (wrapped : word.toNat = value % 2 ^ W) :
    word = BitVec.ofInt W value := by
  apply eq_of_toNat_eq
  rw [wrapped, ofInt_natCast, toNat_ofNat]

theorem not_inUnsigned_natCast (value : Nat) : ¬ InUnsigned W value ↔ 2 ^ W ≤ value := by
  unfold InUnsigned
  omega

theorem exactUnsigned_of_le {result : BitVec W × Bool} {saturated : BitVec W} {value : Nat}
    (wrapped : result.1.toNat = value % 2 ^ W) (flag : result.2 = true ↔ 2 ^ W ≤ value)
    (saturates : saturated.toNat = min value (2 ^ W - 1)) : ExactUnsigned result saturated value := by
  have positive := Nat.two_pow_pos W
  refine ⟨⟨eq_ofInt_of_toNat wrapped, flag.trans (not_inUnsigned_natCast value).symm⟩, ?_⟩
  rw [saturates]
  unfold saturateUnsigned
  omega

theorem usub_exact (left right : BitVec W) :
    ExactUnsigned (usub_ov left right) (usub_sat left right) (left.toNat - right.toNat) := by
  have leftBound := left.isLt
  refine ⟨⟨?_, ?_⟩, ?_⟩
  · change left - right = _
    rw [Int.sub_eq_add_neg, ofInt_add, ofInt_neg, ofInt_natCast, ofInt_natCast,
      ofNat_toNat, ofNat_toNat, setWidth_eq, setWidth_eq, BitVec.sub_eq_add_neg]
  · rw [usub_ov_flag]
    unfold InUnsigned
    omega
  · rw [toNat_usub_sat]
    unfold saturateUnsigned
    omega

theorem sdiv_overflows_iff (positive : 0 < W) {left right : BitVec W} (nonzero : right ≠ 0) :
    (isMinSignedValue left && isAllOnesValue right) = true ↔ ¬ InSigned W (left.toInt.tdiv right.toInt) := by
  have divisor := toInt_ne_zero nonzero
  have ones : (getMaxValue W).toInt = -1 := by
    unfold getMaxValue
    rw [toInt_allOnes, if_pos positive]
  have least := toInt_getSignedMinValue positive
  unfold isMinSignedValue isAllOnesValue
  rw [Bool.and_eq_true, beq_iff_eq, beq_iff_eq, ← toInt_inj, ← toInt_inj, least, ones]
  constructor
  · rintro ⟨first, second⟩ inside
    rw [first, second, Int.tdiv_neg, Int.tdiv_one, Int.neg_neg] at inside
    exact absurd inside.2 (lt_irrefl _)
  · intro outside
    by_contra other
    exact outside (inSigned_tdiv left divisor fun first second => other ⟨first, second⟩)

theorem sdiv_exact (positive : 0 < W) {left right : BitVec W} (nonzero : right ≠ 0) :
    ∃ result, sdiv_ov left right = some result ∧
      Exact (InSigned W) result (left.toInt.tdiv right.toInt) := by
  unfold sdiv_ov
  rw [sdiv_eq nonzero]
  exact ⟨_, rfl, rfl, sdiv_overflows_iff positive nonzero⟩

theorem natCast_shifted (value amount : Nat) : (value : Int) * 2 ^ amount = (value * 2 ^ amount : Nat) := by
  push_cast
  rfl

theorem sshl_ov_word (left amount : BitVec W) : (sshl_ov left amount).1 = left <<< amount.toNat := by
  unfold sshl_ov
  split
  · rename_i beyond
    exact (shiftLeft_eq_zero beyond).symm
  · split
    · rfl
    · rfl

theorem ushl_ov_word (left amount : BitVec W) : (ushl_ov left amount).1 = left <<< amount.toNat := by
  unfold ushl_ov
  split
  · rename_i beyond
    exact (shiftLeft_eq_zero beyond).symm
  · rfl

theorem shifted_exact (left amount : BitVec W) :
    (sshl_ov left amount).1 = BitVec.ofInt W (left.toInt * 2 ^ amount.toNat) ∧
      (ushl_ov left amount).1 = BitVec.ofInt W (left.toNat * 2 ^ amount.toNat) := by
  constructor
  · rw [sshl_ov_word]
    exact eq_ofInt_of_toInt (toInt_shiftLeft_bmod left amount.toNat)
  · rw [ushl_ov_word, natCast_shifted]
    apply eq_ofInt_of_toNat
    rw [BitVec.toNat_shiftLeft, Nat.shiftLeft_eq]

theorem others_exact (positive : 0 < W) (left right : BitVec W) : ExactOthers left right where
  sadd := ⟨⟨eq_ofInt_of_toInt (toInt_add left right), sadd_ov_flag positive left right⟩,
    toInt_sadd_sat positive left right⟩
  ssub := ⟨⟨eq_ofInt_of_toInt toInt_sub, ssub_ov_flag positive left right⟩,
    toInt_ssub_sat positive left right⟩
  sdiv := sdiv_exact positive
  sshl below := ⟨⟨eq_ofInt_of_toInt (sshl_ov_value below), sshl_ov_flag below⟩,
    toInt_sshl_sat positive below⟩
  uadd := by
    rw [← Int.natCast_add]
    exact exactUnsigned_of_le (toNat_add left right) (uadd_ov_flag left right)
      (toNat_uadd_sat left right)
  usub := usub_exact left right
  umul := by
    rw [← Int.natCast_mul]
    obtain ⟨word, flag⟩ := umul_ov_spec positive left right
    exact exactUnsigned_of_le word flag (toNat_umul_sat positive left right)
  ushl below := by
    rw [natCast_shifted]
    exact exactUnsigned_of_le (ushl_ov_value below) (ushl_ov_flag below) (toNat_ushl_sat below)
  shifted := shifted_exact left right

/-- In width one the square of minus one is not seen to overflow. -/
theorem minusOneSquared_inexact : ¬ ExactOperations (-1 : BitVec 1) (-1) := by
  intro exact
  have flag := exact.smul.flag.mpr
  exact absurd (flag (by unfold InSigned; decide)) (by decide)

/-- The operations are exact but for that product. -/
theorem overflow_exact_iff (positive : 0 < W) (left right : BitVec W) :
    ExactOthers left right ∧
      (ExactOperations left right ↔ ¬ (W = 1 ∧ left = -1 ∧ right = -1)) := by
  have others := others_exact positive left right
  refine ⟨others, ?_, ?_⟩
  · rintro exact ⟨rfl, rfl, rfl⟩
    have flag := exact.smul.flag.mpr (by unfold InSigned; decide)
    exact absurd flag (by decide)
  · intro wider
    have product : (smul_ov left right).1.toInt = (left.toInt * right.toInt).bmod (2 ^ W) := by
      rw [smul_ov_value, toInt_mul]
    exact ⟨others, ⟨eq_ofInt_of_toInt product, smul_ov_flag positive wider⟩, toInt_smul_sat positive wider⟩

theorem leastSquared_exact : ExactOperations (-128 : BitVec 8) (-128) :=
  (overflow_exact_iff (by decide) _ _).2.mpr (by decide)

end EvmBackend.APInt
