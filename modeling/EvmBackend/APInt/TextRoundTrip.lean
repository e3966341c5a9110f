/-
The text of a value, and that it is read back.
-/

import EvmBackend.APInt.Magic
import EvmBackend.APInt.BitsNeeded
import Mathlib.Data.Nat.Digits.Lemmas

namespace EvmBackend.APInt

open List Option BitVec

variable {W : Nat}

/-! ### The text of a number -/

theorem digitValue_digitChar : ∀ d < 36, digitValue (digitChar d) = some d := by decide

def digitText (radix value : Nat) : List Char := (Nat.digits radix value).reverse.map digitChar

theorem numeral_reverse_map {radix : Nat} {digits : List Nat} (small : ∀ d ∈ digits, d < 36) :
    numeral radix (digits.reverse.map digitChar) = Nat.ofDigits radix digits := by
  induction digits with
  | nil => rfl
  | cons d digits ih =>
      have rest := ih fun d member => small d (mem_cons_of_mem _ member)
      have value := digitValue_digitChar d (small d mem_cons_self)
      unfold numeral at rest ⊢
      rw [reverse_cons, map_append, foldl_append, rest, Nat.ofDigits_cons]
      change appendDigit radix _ (digitChar d) = _
      rw [appendDigit, value, getD_some, Nat.mul_comm, Nat.add_comm]

theorem radix_bounds {radix : Nat} (known : radix ∈ radixes) : 2 ≤ radix ∧ radix ≤ 36 := by
  simp only [radixes, mem_cons, not_mem_nil, or_false] at known
  omega

theorem digitText_numeral {radix value : Nat} (known : radix ∈ radixes) (some : value ≠ 0) :
    Numeral radix (digitText radix value) ∧ numeral radix (digitText radix value) = value := by
  obtain ⟨two, most⟩ := radix_bounds known
  have digits : ∀ d ∈ Nat.digits radix value, d < radix := fun d member => Nat.digits_lt_base two member
  constructor
  · refine ⟨known, ?_, ?_⟩
    · intro empty
      have none := reverse_eq_nil_iff.mp (map_eq_nil_iff.mp empty)
      exact some (Nat.digits_eq_nil_iff_eq_zero.mp none)
    · intro c member
      obtain ⟨d, inside, rfl⟩ := List.mem_map.mp member
      have below := digits d (mem_reverse.mp inside)
      exact ⟨d, below, digitValue_digitChar d (below.trans_le most)⟩
  · unfold digitText
    rw [numeral_reverse_map fun d member => (digits d member).trans_le most, Nat.ofDigits_digits]

theorem digitText_accepted (NDEBUG : Bool) {radix value : Nat} (known : radix ∈ radixes)
    (bounded : value < 2 ^ W) : WidthAccepted NDEBUG W radix (digitText radix value).length := by
  obtain ⟨two, _⟩ := radix_bounds known
  have power : ∀ k, k < (digitText radix value).length → radix ^ k < 2 ^ W := by
    intro k inside
    unfold digitText at inside
    rw [length_map, length_reverse, Nat.lt_digits_length_iff two] at inside
    exact inside.trans_lt bounded
  generalize (digitText radix value).length = slen at power
  refine .inr ⟨insufficientBitWidth_eq_false.mpr ⟨?_, ?_, ?_, ?_⟩, ?_⟩
  · rintro rfl
    by_contra short
    exact absurd (power W (by omega)) (lt_irrefl _)
  · rintro rfl
    by_contra short
    have small := power (slen - 1) (by omega)
    rw [show 8 = 2 ^ 3 from rfl, ← pow_mul, Nat.pow_lt_pow_iff_right (by decide)] at small
    omega
  · rintro rfl
    by_contra short
    have small := power (slen - 1) (by omega)
    rw [show 16 = 2 ^ 4 from rfl, ← pow_mul, Nat.pow_lt_pow_iff_right (by decide)] at small
    omega
  · rintro rfl
    by_contra short
    have small := Nat.pow_lt_pow_left (power (slen - 1) (by omega)) (by decide : 22 ≠ 0)
    have fewer : 2 ^ (64 * (slen - 1)) ≤ (10 ^ (slen - 1)) ^ 22 := by
      rw [pow_right_comm, pow_mul]
      exact Nat.pow_le_pow_left (by decide) _
    have exponents := fewer.trans_lt small
    rw [← pow_mul, Nat.pow_lt_pow_iff_right (by decide)] at exponents
    omega
  · by_cases few : slen ≤ 1
    · exact .inl few
    · by_cases shifts : shiftFor radix = 0
      · exact .inr (by omega)
      · have small := power 1 (by omega)
        rw [pow_one, two_pow_shiftFor shifts, Nat.pow_lt_pow_iff_right (by decide)] at small
        exact .inr small.le

section Loops

variable {radix rounds : Nat}

theorem quotient_lt {value : Nat} (two : 2 ≤ radix) (bounded : value < 2 ^ (rounds + 1)) :
    value / radix < 2 ^ rounds := by
  apply Nat.div_lt_of_lt_mul
  rw [pow_succ] at bounded
  exact bounded.trans_le (by rw [Nat.mul_comm]; exact Nat.mul_le_mul_right _ two)

theorem wordDigits_eq {N : Nat} (two : 2 ≤ radix) (bounded : N < 2 ^ rounds) (buffer : List Char) :
    wordDigits radix rounds N buffer = some (digitText radix N ++ buffer) := by
  induction rounds generalizing N buffer with
  | zero =>
      obtain rfl : N = 0 := by
        rw [pow_zero] at bounded
        omega
      rw [wordDigits, if_pos rfl, digitText, Nat.digits_zero]
      rfl
  | succ rounds ih =>
      unfold wordDigits
      by_cases zero : N = 0
      · subst zero
        rw [if_pos rfl, digitText, Nat.digits_zero]
        rfl
      · rw [if_neg zero, ih (quotient_lt two bounded), digitText, digitText,
          Nat.digits_def' two (Nat.pos_of_ne_zero zero), reverse_cons, map_append, List.append_assoc]
        rfl

theorem getRawData_low (positive : 0 < W) (value : BitVec W) :
    (getRawData value).getD 0 0 = value.toNat % 2 ^ 64 := by
  have some : 0 < getNumWords W := by
    unfold getNumWords
    omega
  unfold getRawData
  rw [getD_eq_getElem _ _ (by rw [length_map, length_range]; exact some),
    getElem_map, getElem_range, Nat.mul_zero, pow_zero, Nat.div_one]

theorem toNat_eq_zero_iff {value : BitVec W} : value.toNat = 0 ↔ value = 0 := by
  rw [← toNat_inj]
  exact Iff.of_eq (congrArg (value.toNat = ·) (toNat_ofNat 0 W).symm)

theorem shiftedDigits_eq {ShiftAmt : Nat} {Tmp : BitVec W} (positive : 0 < W) (some : 0 < ShiftAmt)
    (low : ShiftAmt ≤ 32) (bounded : Tmp.toNat < 2 ^ rounds) :
    shiftedDigits ShiftAmt (2 ^ ShiftAmt - 1) rounds Tmp =
      Option.some ((Nat.digits (2 ^ ShiftAmt) Tmp.toNat).map digitChar) := by
  have two : 1 < 2 ^ ShiftAmt := Nat.one_lt_two_pow (by omega)
  induction rounds generalizing Tmp with
  | zero =>
      have zero : Tmp.toNat = 0 := by
        rw [pow_zero] at bounded
        omega
      rw [shiftedDigits, if_pos (toNat_eq_zero_iff.mp zero), zero, Nat.digits_zero]
      rfl
  | succ rounds ih =>
      unfold shiftedDigits
      by_cases zero : Tmp = 0
      · rw [if_pos zero, toNat_eq_zero_iff.mpr zero, Nat.digits_zero]
        rfl
      · have many := Nat.pos_of_ne_zero (mt toNat_eq_zero_iff.mp zero)
        have shifted : (Tmp >>> ShiftAmt).toNat = Tmp.toNat / 2 ^ ShiftAmt := by
          rw [toNat_ushiftRight, Nat.shiftRight_eq_div_pow]
        have digit : (getRawData Tmp).getD 0 0 % 2 ^ 32 &&& (2 ^ ShiftAmt - 1) = Tmp.toNat % 2 ^ ShiftAmt := by
          rw [Nat.and_two_pow_sub_one_eq_mod, getRawData_low positive,
            Nat.mod_mod_of_dvd _ (Nat.pow_dvd_pow 2 low),
            Nat.mod_mod_of_dvd _ (Nat.pow_dvd_pow 2 (low.trans (by decide)))]
        have rest := ih (by rw [shifted]; exact quotient_lt two bounded : (Tmp >>> ShiftAmt).toNat < 2 ^ rounds)
        rw [if_neg zero, rest, digit, shifted, Nat.digits_def' two many]
        rfl

theorem dividedDigits_eq (memory : (W : Nat) → BitVec W) (NDEBUG : Bool) (vars : Variables Unit) {Tmp : BitVec W}
    (two : 2 ≤ radix) (small : radix < 2 ^ 64) (holds : vars () = ⟨W, Tmp⟩) (bounded : Tmp.toNat < 2 ^ rounds) :
    dividedDigits memory NDEBUG radix rounds vars = some ((Nat.digits radix Tmp.toNat).map digitChar) := by
  induction rounds generalizing vars Tmp with
  | zero =>
      have zero : Tmp.toNat = 0 := by
        rw [pow_zero] at bounded
        omega
      rw [dividedDigits, holds, Variable.value_mk, if_pos zero, zero, Nat.digits_zero]
      rfl
  | succ rounds ih =>
      unfold dividedDigits
      rw [holds, Variable.value_mk]
      by_cases zero : Tmp.toNat = 0
      · rw [if_pos zero, zero, Nat.digits_zero]
        rfl
      · have word : (BitVec.ofNat 64 radix).toNat = radix := toNat_ofNat_lt small
        have nonzero : BitVec.ofNat 64 radix ≠ 0 := ne_zero_of_toNat (by omega)
        obtain ⟨after, divided, quotient, _⟩ := udivremWord_spec memory () holds nonzero
        rw [word] at divided quotient
        have rest : Tmp.toNat % radix < radix := Nat.mod_lt _ (by omega)
        have digit : (BitVec.ofNat 64 (Tmp.toNat % radix)).toNat = Tmp.toNat % radix :=
          toNat_ofNat_lt (rest.trans small)
        have less : Tmp.toNat / radix < 2 ^ W := (Nat.div_le_self _ _).trans_lt Tmp.isLt
        have value : (BitVec.ofNat W (Tmp.toNat / radix)).toNat = Tmp.toNat / radix := toNat_ofNat_lt less
        have others := ih after quotient (by rw [value]; exact quotient_lt two bounded)
        rw [if_neg zero, divided, Nat.digits_def' two (Nat.pos_of_ne_zero zero)]
        simp only [bind_eq_bind, bind_some, digit, others, value]
        rw [(guard_eq_some' ()).mpr (.inr rest), bind_some]
        rfl

end Loops

/-! ### Values -/

def magnitude (Signed : Bool) (value : BitVec W) : Nat := if Signed then (abs value).toNat else value.toNat

theorem magnitude_lt (Signed : Bool) (value : BitVec W) : magnitude Signed value < 2 ^ W := by
  unfold magnitude
  split
  · exact (abs value).isLt
  · exact value.isLt

theorem magnitude_ne_zero (Signed : Bool) {value : BitVec W} (some : value ≠ 0) : magnitude Signed value ≠ 0 := by
  unfold magnitude
  split
  · rw [toNat_abs]
    exact Int.natAbs_ne_zero.mpr (toInt_ne_zero some)
  · exact mt toNat_eq_zero_iff.mp some

theorem signed_magnitude (Signed : Bool) (value : BitVec W) :
    (if Signed && isNegative value then -BitVec.ofNat W (magnitude Signed value)
      else BitVec.ofNat W (magnitude Signed value)) = value := by
  unfold magnitude abs
  cases Signed with
  | false => exact (ofNat_toNat ..).trans (setWidth_eq value)
  | true =>
      rw [Bool.true_and, if_pos rfl]
      split
      · rw [ofNat_toNat, setWidth_eq, BitVec.neg_neg]
      · rw [ofNat_toNat, setWidth_eq]

theorem wordMagnitude_eq (narrow : W ≤ 64) (Signed : Bool) (value : BitVec W) :
    wordMagnitude Signed value = (Signed && isNegative value, magnitude Signed value) := by
  unfold wordMagnitude magnitude
  cases Signed with
  | false => rfl
  | true =>
      have extended := toInt_signExtend_of_le (x := value) narrow
      have negative : (value.signExtend 64).msb = isNegative value := by
        change isNegative (value.signExtend 64) = _
        rw [isNegative_eq, isNegative_eq, extended]
      have same : (abs (value.signExtend 64)).toNat = (abs value).toNat := by
        rw [toNat_abs, toNat_abs, extended]
      rw [if_pos rfl, if_pos rfl, Bool.true_and, ← same]
      unfold abs
      rw [← negative]
      change (if (value.signExtend 64).msb = true then _ else _) =
        (_, (if (value.signExtend 64).msb = true then _ else _ : BitVec 64).toNat)
      cases (value.signExtend 64).msb with
      | false | true => rfl

section Text

variable {NDEBUG Signed : Bool} {rounds radix : Nat} {value : BitVec W}

theorem toString_eq (memory : (W : Nat) → BitVec W) (known : radix ∈ radixes) (some : value ≠ 0)
    (positive : 0 < W) (enough : W ≤ rounds) :
    toString memory NDEBUG rounds value radix Signed false =
      Option.some ((if Signed && isNegative value then ['-'] else []) ++
        digitText radix (magnitude Signed value)) := by
  obtain ⟨two, most⟩ := radix_bounds known
  have power : 2 ^ W ≤ 2 ^ rounds := Nat.pow_le_pow_right (by decide) enough
  have bounded := (magnitude_lt Signed value).trans_le power
  unfold toString
  simp only [bind_eq_bind, if_neg some]
  rw [(guard_eq_some' ()).mpr (.inr known), bind_some, if_neg Bool.false_ne_true, bind_some]
  by_cases narrow : W ≤ 64
  · rw [if_pos narrow, wordMagnitude_eq narrow]
    simp only [wordDigits_eq two bounded, bind_some, append_nil]
  · have tmp : (if (Signed && isNegative value) = true then -value else value).toNat =
        magnitude Signed value := by
      unfold magnitude abs
      cases Signed with
      | false | true => rfl
    rw [if_neg narrow]
    generalize (if (Signed && isNegative value) = true then -value else value) = Tmp at tmp ⊢
    rw [← tmp] at bounded ⊢
    by_cases shifts : shiftFor radix ≠ 0
    · have read := shiftedDigits_eq positive (Nat.pos_of_ne_zero shifts)
        ((shiftFor_le radix).trans (by decide)) bounded
      rw [← two_pow_shiftFor shifts] at read
      rw [if_pos shifts, read, bind_some, append_nil, digitText, map_reverse]
    · have read := dividedDigits_eq memory NDEBUG (fun _ => ⟨W, Tmp⟩) two (by omega) rfl bounded
      rw [if_neg shifts, read, bind_some, append_nil, digitText, map_reverse]

theorem toString_zero (memory : (W : Nat) → BitVec W) (known : radix ∈ radixes) :
    toString memory NDEBUG rounds (0 : BitVec W) radix Signed false = some ['0'] := by
  unfold toString
  simp only [bind_eq_bind, if_pos]
  rw [(guard_eq_some' ()).mpr (.inr known), bind_some, if_neg Bool.false_ne_true, bind_some]
  rfl

def RoundTrips (memory : (W : Nat) → BitVec W) (NDEBUG : Bool) (rounds : Nat) (value : BitVec W) (radix : Nat)
    (Signed : Bool) : Prop :=
  ∃ text, toString memory NDEBUG rounds value radix Signed false = some text ∧
    fromString NDEBUG W text radix = some value

theorem roundTrips (memory : (W : Nat) → BitVec W) (known : radix ∈ radixes) (positive : 0 < W)
    (enough : W ≤ rounds) : RoundTrips memory NDEBUG rounds value radix Signed := by
  obtain ⟨two, _⟩ := radix_bounds known
  by_cases zero : value = 0
  · subst zero
    have numeral : Numeral radix ['0'] := by
      refine ⟨known, cons_ne_nil _ _, ?_⟩
      intro c member
      rw [mem_singleton.mp member]
      exact ⟨0, by omega, rfl⟩
    have accepted : WidthAccepted NDEBUG W radix 1 := by
      refine .inr ⟨insufficientBitWidth_eq_false.mpr ⟨?_, ?_, ?_, ?_⟩, .inl (le_refl _)⟩
      all_goals
        intro _
        omega
    have read := fromString_eq .none numeral accepted
    have none : APInt.numeral radix ['0'] = 0 := Nat.zero_mul radix
    rw [none] at read
    exact ⟨_, toString_zero memory known, read⟩
  · obtain ⟨numeral, same⟩ := digitText_numeral known (magnitude_ne_zero Signed zero)
    have accepted := digitText_accepted NDEBUG known (magnitude_lt Signed value)
    refine ⟨_, toString_eq memory known zero positive enough, ?_⟩
    have restored := signed_magnitude Signed value
    cases negative : Signed && isNegative value with
    | true =>
        have read := fromString_eq .minus numeral accepted
        rw [negative, if_pos rfl] at restored
        rw [same] at read
        exact read.trans (congrArg some restored)
    | false =>
        have read := fromString_eq .none numeral accepted
        rw [negative, if_neg Bool.false_ne_true] at restored
        rw [same] at read
        exact read.trans (congrArg some restored)

end Text

/-- 1295, of which nine bits are kept. -/
theorem largestTwoDigits_lost : ¬ ParsesExactly false 36 .none ['Z', 'Z'] := by
  rintro ⟨width, needed, value, read, exact⟩
  have nine : getBitsNeeded false (Sign.none.text ++ ['Z', 'Z']) 36 = some 9 := by decide +kernel
  rw [nine, Option.some.injEq] at needed
  subst needed
  have lost : fromString false 9 (Sign.none.text ++ ['Z', 'Z']) 36 = some 271 := by decide +kernel
  rw [lost, Option.some.injEq] at read
  subst read
  have equal : (271 : BitVec 9).toNat = numeral 36 ['Z', 'Z'] := exact
  exact absurd equal (by decide)

/-- A text that is not too long, or does not begin with a zero, is read exactly unless its
width wraps, it has two digits of base 36 and 1024 or more, or it is decimal and too long
for the assertion; every value is read from its own text. -/
theorem conversions_exact_iff (memory : (W : Nat) → BitVec W) (NDEBUG : Bool) :
    (∀ (radix : Nat) (sign : Sign) (text : List Char), Numeral radix text →
      (ShortText radix sign.negative text.length ∨ ∀ c ∈ text.head?, digitValue c ≠ some 0) →
        (ParsesExactly NDEBUG radix sign text ↔
          ShortText radix sign.negative text.length ∧
            (radix = 36 → text.length = 2 → numeral radix text < 1024) ∧
            (radix = 10 → NDEBUG ∨
              (text.length - 1) * 64 / 22 ≤ leastWidth sign.negative (numeral radix text)))) ∧
    ∀ (W rounds : Nat) (value : BitVec W) (radix : Nat) (Signed : Bool), radix ∈ radixes → 0 < W → W ≤ rounds →
      RoundTrips memory NDEBUG rounds value radix Signed := by
  constructor
  · intro radix sign text holds counts
    exact parsesExactly_iff NDEBUG sign holds counts
  · intro W rounds value radix Signed known positive enough
    exact roundTrips memory known positive enough

theorem conversions_at_leastByte :
    ParsesExactly false 10 .minus ['1', '2', '8'] ∧
      RoundTrips (fun _ => 0) false 100 (-128 : BitVec 100) 36 true := by
  obtain ⟨parses, trips⟩ := conversions_exact_iff (fun _ => 0) false
  have digits : ∀ c ∈ ['1', '2', '8'], ∃ d < 10, digitValue c = some d :=
    forall_mem_cons.mpr ⟨⟨1, by decide, by decide⟩,
      forall_mem_cons.mpr
        ⟨⟨2, by decide, by decide⟩, forall_mem_singleton.mpr ⟨8, by decide, by decide⟩⟩⟩
  constructor
  · have short : ShortText 10 true 3 := (by decide : estimatedBits 10 3 < 2 ^ 32)
    exact (parses 10 .minus ['1', '2', '8'] ⟨by decide, by decide, digits⟩ (.inl short)).mpr
      ⟨short, by decide, fun _ => .inr (by decide)⟩
  · exact trips 100 100 (-128) 36 true (by decide) (Nat.succ_pos 99) (Nat.le_refl 100)

end EvmBackend.APInt
