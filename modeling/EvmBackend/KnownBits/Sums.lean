/-
The known bits of sums and differences are as good as they can be.

The greatest and the least values carry as much and as little as any. Where the
bits of both summands and of the carry are known, all sums agree; where one is
not, two sums that differ are made by hand.
-/

import EvmBackend.KnownBits
import EvmBackend.Library.CarryBits

namespace EvmBackend.KnownBits

open APInt CarryBits BitVec

variable {W : Nat}

theorem bitsBelow_getMaxValue {known : KnownBits W} {value : BitVec W} (compatible : known.Compatible value) :
    BitsBelow value known.getMaxValue := by
  intro i set
  by_cases inside : i < W
  · rw [getMaxValue_bit inside]
    cases zero : known.zero.getLsbD i with
    | false => rfl
    | true =>
        rw [(compatible i).1 zero] at set
        cases set
  · rw [getLsbD_of_ge _ _ (Nat.le_of_not_lt inside)] at set
    cases set

theorem bitsBelow_of_getMinValue {known : KnownBits W} {value : BitVec W} (compatible : known.Compatible value) :
    BitsBelow known.getMinValue value := fun i => (compatible i).2

theorem Compatible.flip {known : KnownBits W} {value : BitVec W} {i : Nat} (compatible : known.Compatible value)
    (unknown : (known.zero ||| known.one).getLsbD i = false) : known.Compatible (CarryBits.flip value i) := by
  rw [getLsbD_or, Bool.or_eq_false_iff] at unknown
  intro j
  by_cases same : i = j
  · obtain rfl := same
    rw [unknown.1, unknown.2]
    exact ⟨nofun, nofun⟩
  · rw [flip_of_ne same]
    exact compatible j

theorem Compatible.bit_eq {known : KnownBits W} {value other : BitVec W} {i : Nat}
    (compatible : known.Compatible value) (another : known.Compatible other)
    (isKnown : (known.zero ||| known.one).getLsbD i = true) : value.getLsbD i = other.getLsbD i := by
  rw [getLsbD_or, Bool.or_eq_true] at isKnown
  rcases isKnown with zero | one
  · rw [(compatible i).1 zero, (another i).1 zero]
  · rw [(compatible i).2 one, (another i).2 one]

section Sums

variable {lhs rhs : KnownBits W} {carryZero carryOne : Bool}

structure Summands (lhs rhs : KnownBits W) (carryZero carryOne : Bool) (x y : BitVec W) (c : Bool) : Prop where
  left : lhs.Compatible x
  right : rhs.Compatible y
  low : carryZero = true → c = false
  high : carryOne = true → c = true

theorem greatest_summands (left : lhs.hasConflict = false) (right : rhs.hasConflict = false)
    (carries : (carryZero && carryOne) = false) :
    Summands lhs rhs carryZero carryOne lhs.getMaxValue rhs.getMaxValue !carryZero := by
  refine ⟨compatible_getMaxValue left, compatible_getMaxValue right, ?_, ?_⟩
  · rintro rfl
    rfl
  · rintro rfl
    rw [Bool.and_true] at carries
    rw [carries]
    rfl

theorem least_summands (left : lhs.hasConflict = false) (right : rhs.hasConflict = false)
    (carries : (carryZero && carryOne) = false) :
    Summands lhs rhs carryZero carryOne lhs.getMinValue rhs.getMinValue carryOne := by
  refine ⟨compatible_getMinValue left, compatible_getMinValue right, ?_, fun one => one⟩
  rintro rfl
  rw [Bool.true_and] at carries
  exact carries

def knownBit (lhs rhs : KnownBits W) (carryZero carryOne : Bool) (i : Nat) : Bool :=
  (lhs.zero ||| lhs.one).getLsbD i && (rhs.zero ||| rhs.one).getLsbD i &&
    (!BitVec.carry i lhs.getMaxValue rhs.getMaxValue (!carryZero) ||
      BitVec.carry i lhs.getMinValue rhs.getMinValue carryOne)

theorem carry_eq {x y : BitVec W} {c : Bool} {i : Nat} (summands : Summands lhs rhs carryZero carryOne x y c)
    (isKnown : (!BitVec.carry i lhs.getMaxValue rhs.getMaxValue (!carryZero) ||
      BitVec.carry i lhs.getMinValue rhs.getMinValue carryOne) = true) :
    BitVec.carry i x y c = BitVec.carry i lhs.getMaxValue rhs.getMaxValue !carryZero := by
  have greatest := carry_mono c (!carryZero) (bitsBelow_getMaxValue summands.left)
    (bitsBelow_getMaxValue summands.right) (fun set => by
      cases zero : carryZero with
      | false => rfl
      | true =>
          rw [summands.low zero] at set
          cases set) i
  have least := carry_mono carryOne c (bitsBelow_of_getMinValue summands.left)
    (bitsBelow_of_getMinValue summands.right) summands.high i
  rw [Bool.or_eq_true] at isKnown
  rcases isKnown with none | some
  · rw [Bool.not_eq_true'] at none
    rw [none]
    by_contra carried
    rw [Bool.not_eq_false] at carried
    rw [greatest carried] at none
    cases none
  · rw [least some, greatest (least some)]

theorem sum_bit_of_known {x y : BitVec W} {c : Bool} {i : Nat} (inside : i < W)
    (left : lhs.hasConflict = false) (right : rhs.hasConflict = false)
    (isKnown : knownBit lhs rhs carryZero carryOne i = true)
    (summands : Summands lhs rhs carryZero carryOne x y c) :
    (sum x y c).getLsbD i = (sum lhs.getMaxValue rhs.getMaxValue !carryZero).getLsbD i := by
  unfold knownBit at isKnown
  rw [Bool.and_eq_true, Bool.and_eq_true] at isKnown
  obtain ⟨⟨first, second⟩, third⟩ := isKnown
  rw [sum_bit inside, sum_bit inside, carry_eq summands third,
    summands.left.bit_eq (compatible_getMaxValue left) first,
    summands.right.bit_eq (compatible_getMaxValue right) second]

theorem sums_differ {i : Nat} (inside : i < W) (left : lhs.hasConflict = false) (right : rhs.hasConflict = false)
    (carries : (carryZero && carryOne) = false) (unknown : knownBit lhs rhs carryZero carryOne i = false)
    (bit : Bool) :
    ∃ x y c, Summands lhs rhs carryZero carryOne x y c ∧ (sum x y c).getLsbD i = bit := by
  have greatest := greatest_summands left right carries
  have least := least_summands left right carries
  suffices differ : ∃ x y c x' y' c', Summands lhs rhs carryZero carryOne x y c ∧
      Summands lhs rhs carryZero carryOne x' y' c' ∧ (sum x' y' c').getLsbD i = !(sum x y c).getLsbD i by
    obtain ⟨x, y, c, x', y', c', first, second, opposite⟩ := differ
    by_cases same : (sum x y c).getLsbD i = bit
    · exact ⟨x, y, c, first, same⟩
    · refine ⟨x', y', c', second, ?_⟩
      rw [opposite]
      exact (Bool.eq_not_of_ne (Ne.symm same)).symm
  cases first : (lhs.zero ||| lhs.one).getLsbD i with
  | false =>
      exact ⟨_, _, _, _, _, _, greatest, ⟨greatest.left.flip first, greatest.right, greatest.low, greatest.high⟩,
        sum_flip_left inside _ _ _⟩
  | true =>
      cases second : (rhs.zero ||| rhs.one).getLsbD i with
      | false =>
          exact ⟨_, _, _, _, _, _, greatest,
            ⟨greatest.left, greatest.right.flip second, greatest.low, greatest.high⟩,
            sum_flip_right inside _ _ _⟩
      | true =>
          -- only the carry differs between the greatest and the least values
          unfold knownBit at unknown
          rw [first, second, Bool.true_and, Bool.true_and, Bool.or_eq_false_iff, Bool.not_eq_false'] at unknown
          refine ⟨_, _, _, _, _, _, greatest, least, ?_⟩
          rw [sum_bit inside, sum_bit inside, unknown.1, unknown.2, least.left.bit_eq greatest.left first,
            least.right.bit_eq greatest.right second, Bool.xor_true, Bool.xor_false, Bool.xor_not, Bool.not_not]

/-! ### The functions -/

theorem addend_eq (flag : Bool) (x y : BitVec W) : x + y + addend W flag = sum x y flag := rfl

theorem addCarryFlags_spec (left : lhs.hasConflict = false) (right : rhs.hasConflict = false)
    (carries : (carryZero && carryOne) = false) :
    ∃ out, addCarryFlags lhs rhs carryZero carryOne = some out ∧
      out.Exactly fun value => ∃ x y c, Summands lhs rhs carryZero carryOne x y c ∧ value = sum x y c := by
  have greatest := greatest_summands left right carries
  have least := least_summands left right carries
  have known : ∀ i < W, ((lhs.zero ||| lhs.one) &&& (rhs.zero ||| rhs.one) &&&
      (~~~ (sum lhs.getMaxValue rhs.getMaxValue (!carryZero) ^^^ lhs.zero ^^^ rhs.zero) |||
        (sum lhs.getMinValue rhs.getMinValue carryOne ^^^ lhs.one ^^^ rhs.one))).getLsbD i =
      knownBit lhs rhs carryZero carryOne i := by
    intro i inside
    have low : (sum lhs.getMinValue rhs.getMinValue carryOne ^^^ lhs.one ^^^ rhs.one).getLsbD i =
        BitVec.carry i lhs.getMinValue rhs.getMinValue carryOne := by
      rw [getLsbD_xor, getLsbD_xor, sum_bit inside]
      unfold getMinValue
      generalize BitVec.carry i lhs.one rhs.one carryOne = carry
      generalize lhs.one.getLsbD i = first
      generalize rhs.one.getLsbD i = second
      revert first second carry
      decide
    have high : (sum lhs.getMaxValue rhs.getMaxValue (!carryZero) ^^^ lhs.zero ^^^ rhs.zero).getLsbD i =
        BitVec.carry i lhs.getMaxValue rhs.getMaxValue (!carryZero) := by
      rw [getLsbD_xor, getLsbD_xor, sum_bit inside, getMaxValue_bit inside, getMaxValue_bit inside]
      generalize BitVec.carry i lhs.getMaxValue rhs.getMaxValue (!carryZero) = carry
      generalize lhs.zero.getLsbD i = first
      generalize rhs.zero.getLsbD i = second
      revert first second carry
      decide
    rw [getLsbD_and, getLsbD_and, getLsbD_or (x := ~~~ _), getLsbD_not, high, low,
      decide_eq_true inside, Bool.true_and]
    rfl
  unfold addCarryFlags
  dsimp only [bind, pure]
  rw [addend_eq, addend_eq]
  generalize (lhs.zero ||| lhs.one) &&& (rhs.zero ||| rhs.one) &&&
      (~~~ (sum lhs.getMaxValue rhs.getMaxValue (!carryZero) ^^^ lhs.zero ^^^ rhs.zero) |||
        (sum lhs.getMinValue rhs.getMinValue carryOne ^^^ lhs.one ^^^ rhs.one)) = bits at known ⊢
  have agree : sum lhs.getMaxValue rhs.getMaxValue (!carryZero) &&& bits =
      sum lhs.getMinValue rhs.getMinValue carryOne &&& bits := by
    apply eq_of_getLsbD_eq
    intro i inside
    rw [getLsbD_and, getLsbD_and, known i inside]
    cases isKnown : knownBit lhs rhs carryZero carryOne i with
    | false => rw [Bool.and_false, Bool.and_false]
    | true => rw [sum_bit_of_known inside left right isKnown least]
  rw [(Option.guard_eq_some' ()).mpr (by rw [carries]; rfl), Option.bind_some,
    (Option.guard_eq_some' ()).mpr agree, Option.bind_some, ← agree]
  refine ⟨_, rfl, ?_⟩
  intro i inside
  have bit : ∀ value, (∃ x y c, Summands lhs rhs carryZero carryOne x y c ∧ value = sum x y c) →
      knownBit lhs rhs carryZero carryOne i = true →
        value.getLsbD i = (sum lhs.getMaxValue rhs.getMaxValue !carryZero).getLsbD i := by
    rintro value ⟨x, y, c, summands, rfl⟩ isKnown
    exact sum_bit_of_known inside left right isKnown summands
  dsimp only
  rw [getLsbD_and, getLsbD_and, getLsbD_not, decide_eq_true inside, Bool.true_and,
    known i inside]
  cases isKnown : knownBit lhs rhs carryZero carryOne i with
  | true =>
      rw [Bool.and_true, Bool.and_true]
      constructor
      · constructor
        · intro zero value sums
          rw [bit value sums isKnown]
          exact (Bool.not_eq_true' _).mp zero
        · intro all
          rw [all _ ⟨_, _, _, greatest, rfl⟩]
          rfl
      · constructor
        · intro one value sums
          rw [bit value sums isKnown]
          exact one
        · intro all
          exact all _ ⟨_, _, _, greatest, rfl⟩
  | false =>
      rw [Bool.and_false, Bool.and_false]
      constructor
      · apply iff_of_false Bool.false_ne_true
        intro all
        obtain ⟨x, y, c, summands, one⟩ := sums_differ inside left right carries isKnown true
        rw [all _ ⟨x, y, c, summands, rfl⟩] at one
        cases one
      · apply iff_of_false Bool.false_ne_true
        intro all
        obtain ⟨x, y, c, summands, zero⟩ := sums_differ inside left right carries isKnown false
        rw [all _ ⟨x, y, c, summands, rfl⟩] at zero
        cases zero

end Sums

theorem Exactly.congr {known : KnownBits W} {values others : BitVec W → Prop} (exact : known.Exactly values)
    (same : ∀ value, values value ↔ others value) : known.Exactly others := by
  have equal : values = others := funext fun value => propext (same value)
  rw [← equal]
  exact exact

theorem Exactly.compatible {known : KnownBits W} {values : BitVec W → Prop} (exact : known.Exactly values)
    {value : BitVec W} (member : values value) : known.Compatible value := by
  intro i
  by_cases inside : i < W
  · exact ⟨fun zero => (exact i inside).1.mp zero value member, fun one => (exact i inside).2.mp one value member⟩
  · rw [getLsbD_of_ge known.zero _ (Nat.le_of_not_lt inside),
      getLsbD_of_ge known.one _ (Nat.le_of_not_lt inside)]
    exact ⟨nofun, nofun⟩

theorem compatible_bit_iff (carry : KnownBits 1) (c : Bool) :
    carry.Compatible (BitVec.ofBool c) ↔
      ((carry.zero != 0) = true → c = false) ∧ ((carry.one != 0) = true → c = true) := by
  have nonzero : ∀ bits : BitVec 1, (bits != 0) = bits.getLsbD 0 := by decide
  have only : (BitVec.ofBool c).getLsbD 0 = c := by revert c; decide
  rw [nonzero, nonzero]
  constructor
  · intro compatible
    have bit := compatible 0
    rw [only] at bit
    exact bit
  · intro bit i
    cases i with
    | zero =>
        rw [only]
        exact bit
    | succ i =>
        rw [getLsbD_of_ge carry.zero _ (Nat.le_add_left 1 i),
          getLsbD_of_ge carry.one _ (Nat.le_add_left 1 i)]
        exact ⟨nofun, nofun⟩

theorem computeForAddCarry_spec {lhs rhs : KnownBits W} {carry : KnownBits 1} (left : lhs.hasConflict = false)
    (right : rhs.hasConflict = false) (free : carry.hasConflict = false) :
    ∃ out, computeForAddCarry lhs rhs carry = some out ∧ out.Exactly fun value =>
      ∃ x y, ∃ c : BitVec 1, lhs.Compatible x ∧ rhs.Compatible y ∧ carry.Compatible c ∧
        value = x + y + c.setWidth W := by
  have carries : ((carry.zero != 0) && (carry.one != 0)) = false := by
    obtain ⟨zero, one⟩ := carry
    revert zero one
    decide
  obtain ⟨out, computed, exact⟩ := addCarryFlags_spec left right carries
  refine ⟨out, computed, exact.congr fun value => ?_⟩
  constructor
  · rintro ⟨x, y, c, summands, rfl⟩
    exact ⟨x, y, BitVec.ofBool c, summands.left, summands.right,
      (compatible_bit_iff carry c).mpr ⟨summands.low, summands.high⟩, rfl⟩
  · rintro ⟨x, y, c, first, second, third, rfl⟩
    have only : ∀ c : BitVec 1, c = BitVec.ofBool (c.getLsbD 0) := by decide
    have bit := only c
    rw [bit] at third
    have flags := (compatible_bit_iff carry _).mp third
    refine ⟨x, y, c.getLsbD 0, ⟨first, second, flags.1, flags.2⟩, ?_⟩
    rw [sum, ← bit]

def result (add : Bool) (x y : BitVec W) : BitVec W := if add then x + y else x - y

def exactResult (add : Bool) (x y : BitVec W) : Int := if add then x.toInt + y.toInt else x.toInt - y.toInt

def summand (add : Bool) (y : BitVec W) : BitVec W := if add then y else ~~~ y

def summandKnown (add : Bool) (rhs : KnownBits W) : KnownBits W := if add then rhs else ⟨rhs.one, rhs.zero⟩

theorem summand_summand (add : Bool) (y : BitVec W) : summand add (summand add y) = y := by
  cases add with
  | false => exact not_not
  | true => rfl

theorem compatible_summand_iff (add : Bool) (rhs : KnownBits W) (y : BitVec W) :
    (summandKnown add rhs).Compatible (summand add y) ↔ rhs.Compatible y := by
  cases add with
  | true => exact Iff.rfl
  | false =>
      have bit : ∀ i, (rhs.one.getLsbD i = true → (~~~ y).getLsbD i = false) ∧
          (rhs.zero.getLsbD i = true → (~~~ y).getLsbD i = true) ↔
            (rhs.zero.getLsbD i = true → y.getLsbD i = false) ∧
              (rhs.one.getLsbD i = true → y.getLsbD i = true) := by
        intro i
        by_cases inside : i < W
        · rw [getLsbD_not, decide_eq_true inside, Bool.true_and, Bool.not_eq_false', Bool.not_eq_true']
          exact and_comm
        · rw [getLsbD_of_ge rhs.zero _ (Nat.le_of_not_lt inside),
            getLsbD_of_ge rhs.one _ (Nat.le_of_not_lt inside)]
          exact iff_of_true ⟨nofun, nofun⟩ ⟨nofun, nofun⟩
      exact forall_congr' bit

theorem summandKnown_free {rhs : KnownBits W} (add : Bool) (free : rhs.hasConflict = false) :
    (summandKnown add rhs).hasConflict = false :=
  ((compatible_summand_iff add rhs rhs.getMinValue).mpr (compatible_getMinValue free)).hasConflict

theorem result_eq_sum (add : Bool) (x y : BitVec W) : result add x y = sum x (summand add y) !add := by
  cases add with
  | true =>
      have none : BitVec.setWidth W (BitVec.ofBool false) = 0#W := setWidth_zero W 1
      change x + y = x + y + BitVec.setWidth W (BitVec.ofBool false)
      rw [none, BitVec.add_zero]
  | false =>
      have one : BitVec.setWidth W (BitVec.ofBool true) = 1#W := by
        apply eq_of_toNat_eq
        simp
      change x - y = x + ~~~ y + BitVec.setWidth W (BitVec.ofBool true)
      rw [one, BitVec.sub_eq_add_neg, neg_eq_not_add, BitVec.add_assoc]

theorem computeForAddSub_flags (add : Bool) {lhs rhs : KnownBits W} (left : lhs.hasConflict = false)
    (right : rhs.hasConflict = false) :
    ∃ out, addCarryFlags lhs (summandKnown add rhs) add (!add) = some out ∧ out.Exactly fun value =>
      ∃ x y, lhs.Compatible x ∧ rhs.Compatible y ∧ value = result add x y := by
  obtain ⟨out, computed, exact⟩ := addCarryFlags_spec left (summandKnown_free add right) (Bool.and_not_self add)
  refine ⟨out, computed, exact.congr fun value => ?_⟩
  constructor
  · rintro ⟨x, y, c, summands, rfl⟩
    refine ⟨x, summand add y, summands.left, (compatible_summand_iff add rhs _).mp ?_, ?_⟩
    · rw [summand_summand]
      exact summands.right
    · have carry : c = !add := by
        cases add with
        | true => exact summands.low rfl
        | false => exact summands.high rfl
      rw [result_eq_sum, summand_summand, carry]
  · rintro ⟨x, y, first, second, rfl⟩
    refine ⟨x, summand add y, !add,
      ⟨first, (compatible_summand_iff add rhs y).mpr second, ?_, fun one => one⟩, ?_⟩
    · rintro rfl
      rfl
    · exact result_eq_sum add x y

theorem computeForAddSub_eq (add nsw : Bool) (lhs rhs : KnownBits W) {out : KnownBits W}
    (computed : addCarryFlags lhs (summandKnown add rhs) add (!add) = some out) :
    computeForAddSub add nsw lhs rhs = some
      (if !out.isNegative && !out.isNonNegative && nsw then
        if lhs.isNonNegative && (summandKnown add rhs).isNonNegative then out.makeNonNegative
        else if lhs.isNegative && (summandKnown add rhs).isNegative then out.makeNegative
        else out
      else out) := by
  unfold computeForAddSub summandKnown
  cases add with
  | true =>
      have start : addCarryFlags lhs rhs true false = some out := computed
      simp only [if_true, start, bind, Option.bind_some]
      split_ifs <;> rfl
  | false =>
      have start : addCarryFlags lhs ⟨rhs.one, rhs.zero⟩ false true = some out := computed
      simp only [Bool.false_eq_true, if_false, start, bind, Option.bind_some]
      split_ifs <;> rfl

/-! ### Without signed wrap -/

theorem toInt_result (add : Bool) (x y : BitVec W) (inside : InSigned W (exactResult add x y)) :
    (result add x y).toInt = exactResult add x y := by
  have wrapped : (result add x y).toInt = (exactResult add x y).bmod (2 ^ W) := by
    cases add with
    | true => exact toInt_add x y
    | false => exact toInt_sub
  rw [wrapped]
  by_cases positive : 0 < W
  · exact bmod_of_inSigned positive inside
  · obtain rfl : W = 0 := Nat.eq_zero_of_not_pos positive
    have zero : ∀ z : BitVec 0, z.toInt = 0 := by decide
    unfold exactResult
    rw [zero x, zero y]
    cases add <;> rfl

theorem msb_iff (value : BitVec W) :
    (value.msb = true ↔ value.toInt < 0) ∧ (value.msb = false ↔ 0 ≤ value.toInt) := by
  have sign := isNegative_eq value
  change value.msb = _ at sign
  rw [sign, decide_eq_true_iff, decide_eq_false_iff_not, Int.not_lt]
  exact ⟨Iff.rfl, Iff.rfl⟩

theorem positive_of_msb {value : BitVec W} (set : value.msb = true) : 0 < W := by
  by_contra none
  obtain rfl : W = 0 := Nat.eq_zero_of_not_pos none
  exact Bool.false_ne_true ((msb_of_zero_length rfl value).symm.trans set)

theorem msb_of_isNonNegative {known : KnownBits W} {value : BitVec W} (compatible : known.Compatible value)
    (sign : known.isNonNegative = true) : value.msb = false := by
  unfold isNonNegative at sign
  rw [msb_eq_getLsbD_last] at sign ⊢
  exact (compatible _).1 sign

theorem msb_of_isNegative {known : KnownBits W} {value : BitVec W} (compatible : known.Compatible value)
    (sign : known.isNegative = true) : value.msb = true := by
  unfold KnownBits.isNegative at sign
  rw [msb_eq_getLsbD_last] at sign ⊢
  exact (compatible _).2 sign

theorem Compatible.makeNonNegative {known : KnownBits W} {value : BitVec W} (compatible : known.Compatible value)
    (sign : value.msb = false) : known.makeNonNegative.Compatible value := by
  rw [msb_eq_getLsbD_last] at sign
  intro i
  refine ⟨?_, (compatible i).2⟩
  unfold KnownBits.makeNonNegative getSignedMinValue
  rw [getLsbD_or, getLsbD_intMin, Bool.or_eq_true, decide_eq_true_iff]
  rintro (zero | last)
  · exact (compatible i).1 zero
  · rw [show i = W - 1 by omega]
    exact sign

theorem Compatible.makeNegative {known : KnownBits W} {value : BitVec W} (compatible : known.Compatible value)
    (sign : value.msb = true) : known.makeNegative.Compatible value := by
  rw [msb_eq_getLsbD_last] at sign
  intro i
  refine ⟨(compatible i).1, ?_⟩
  unfold KnownBits.makeNegative getSignedMinValue
  rw [getLsbD_or, getLsbD_intMin, Bool.or_eq_true, decide_eq_true_iff]
  rintro (one | last)
  · exact (compatible i).2 one
  · rw [show i = W - 1 by omega]
    exact sign

theorem msb_summand_false (positive : 0 < W) (y : BitVec W) : (summand false y).msb = !y.msb := by
  change (~~~ y).msb = _
  rw [msb_not, decide_eq_true positive, Bool.true_and]

theorem msb_result_of_summands (add : Bool) {x y : BitVec W} (positive : 0 < W) {sign : Bool}
    (left : x.msb = sign)
    (right : (summand add y).msb = sign) (inside : InSigned W (exactResult add x y)) :
    (result add x y).msb = sign := by
  have value := toInt_result add x y inside
  unfold exactResult at value
  have first := msb_iff x
  have second := msb_iff y
  have third := msb_iff (result add x y)
  cases add with
  | true =>
      rw [if_pos rfl] at value
      change y.msb = sign at right
      cases sign with
      | true =>
          have less := first.1.mp left
          have other := second.1.mp right
          exact third.1.mpr (by omega)
      | false =>
          have less := first.2.mp left
          have other := second.2.mp right
          exact third.2.mpr (by omega)
  | false =>
      rw [if_neg Bool.false_ne_true] at value
      rw [msb_summand_false positive, Bool.not_eq_eq_eq_not] at right
      cases sign with
      | true =>
          have less := first.1.mp left
          have other := second.2.mp right
          exact third.1.mpr (by omega)
      | false =>
          have less := first.2.mp left
          have other := second.1.mp right
          exact third.2.mpr (by omega)

theorem computeForAddSub_nsw (add : Bool) {lhs rhs : KnownBits W} (left : lhs.hasConflict = false)
    (right : rhs.hasConflict = false) :
    ∃ out, computeForAddSub add true lhs rhs = some out ∧ ∀ x y, lhs.Compatible x → rhs.Compatible y →
      InSigned W (exactResult add x y) → out.Compatible (result add x y) := by
  obtain ⟨out, computed, exact⟩ := computeForAddSub_flags add left right
  refine ⟨_, computeForAddSub_eq add true lhs rhs computed, ?_⟩
  intro x y first second inside
  have compatible : out.Compatible (result add x y) := exact.compatible ⟨x, y, first, second, rfl⟩
  have other := (compatible_summand_iff add rhs y).mpr second
  split_ifs with unsolved nonNegative negative
  · rw [Bool.and_eq_true] at nonNegative
    have positive := positive_of_msb nonNegative.1
    exact compatible.makeNonNegative (msb_result_of_summands add positive
      (msb_of_isNonNegative first nonNegative.1) (msb_of_isNonNegative other nonNegative.2) inside)
  · rw [Bool.and_eq_true] at negative
    have positive := positive_of_msb negative.1
    exact compatible.makeNegative (msb_result_of_summands add positive
      (msb_of_isNegative first negative.1) (msb_of_isNegative other negative.2) inside)
  · exact compatible
  · exact compatible

theorem sumsOfKnownBits_optimal (lhs rhs : KnownBits W) (left : lhs.hasConflict = false)
    (right : rhs.hasConflict = false) :
    (∀ carry : KnownBits 1, carry.hasConflict = false →
      ∃ out, computeForAddCarry lhs rhs carry = some out ∧ out.Exactly fun value =>
        ∃ x y, ∃ c : BitVec 1, lhs.Compatible x ∧ rhs.Compatible y ∧ carry.Compatible c ∧
          value = x + y + c.setWidth W) ∧
      ∀ add : Bool,
        (∃ out, computeForAddSub add false lhs rhs = some out ∧ out.Exactly fun value =>
          ∃ x y, lhs.Compatible x ∧ rhs.Compatible y ∧ value = result add x y) ∧
        ∃ out, computeForAddSub add true lhs rhs = some out ∧
          (∀ x y, lhs.Compatible x → rhs.Compatible y → InSigned W (exactResult add x y) →
            out.Compatible (result add x y)) ∧
          ((∃ x y, lhs.Compatible x ∧ rhs.Compatible y ∧ InSigned W (exactResult add x y)) →
            out.hasConflict = false) := by
  constructor
  · intro carry free
    exact computeForAddCarry_spec left right free
  · intro add
    constructor
    · obtain ⟨out, computed, exact⟩ := computeForAddSub_flags add left right
      refine ⟨out, ?_, exact⟩
      rw [computeForAddSub_eq add false lhs rhs computed, Bool.and_false, if_neg Bool.false_ne_true]
    · obtain ⟨out, computed, sound⟩ := computeForAddSub_nsw add left right
      refine ⟨out, computed, sound, ?_⟩
      rintro ⟨x, y, first, second, inside⟩
      exact (sound x y first second inside).hasConflict

/-- One known bit on each side. -/
theorem sumsOfKnownBits_ofOneBit :
    ∃ out, computeForAddSub true false (⟨0b1000#4, 0b0001#4⟩ : KnownBits 4) ⟨0b1000#4, 0b0001#4⟩ = some out ∧
      out.Exactly fun value => ∃ x y, (⟨0b1000#4, 0b0001#4⟩ : KnownBits 4).Compatible x ∧
        (⟨0b1000#4, 0b0001#4⟩ : KnownBits 4).Compatible y ∧ value = result true x y :=
  ((sumsOfKnownBits_optimal ⟨0b1000#4, 0b0001#4⟩ ⟨0b1000#4, 0b0001#4⟩ (by decide) (by decide)).2 true).1

end EvmBackend.KnownBits
