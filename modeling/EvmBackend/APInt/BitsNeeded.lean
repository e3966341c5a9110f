/-
The width that is found for a text, and what is read at that width.
-/

import EvmBackend.APInt.TextValues
import Mathlib.Tactic.IntervalCases

namespace EvmBackend.APInt

open Option

variable {W : Nat}

variable {value bits length : Nat}

theorem countOnes_eq_zero (bounded : value < 2 ^ bits) : countOnes bits value = 0 ↔ value = 0 := by
  induction bits generalizing value with
  | zero =>
      rw [pow_zero] at bounded
      exact ⟨fun _ => by omega, fun _ => rfl⟩
  | succ bits ih =>
      rw [pow_succ] at bounded
      have rest := ih (by omega : value / 2 < 2 ^ bits)
      unfold countOnes
      omega

theorem isPowerOfTwo_half (even : value % 2 = 0) (some : value ≠ 0) :
    value.isPowerOfTwo ↔ (value / 2).isPowerOfTwo := by
  constructor
  · rintro ⟨exponent, rfl⟩
    cases exponent with
    | zero => cases even
    | succ exponent => exact ⟨exponent, by rw [pow_succ, Nat.mul_div_cancel _ (by decide)]⟩
  · rintro ⟨exponent, half⟩
    refine ⟨exponent + 1, ?_⟩
    rw [pow_succ, ← half]
    omega

theorem isPowerOfTwo_odd (odd : value % 2 = 1) : value.isPowerOfTwo ↔ value / 2 = 0 := by
  constructor
  · rintro ⟨exponent, rfl⟩
    cases exponent with
    | zero => rfl
    | succ exponent =>
        rw [pow_succ] at odd
        omega
  · intro none
    exact ⟨0, by omega⟩

theorem countOnes_eq_one (bounded : value < 2 ^ bits) :
    countOnes bits value = 1 ↔ value.isPowerOfTwo := by
  induction bits generalizing value with
  | zero =>
      rw [pow_zero] at bounded
      obtain rfl : value = 0 := by omega
      exact ⟨fun one => absurd one Nat.zero_ne_one, fun power => absurd power Nat.not_isPowerOfTwo_zero⟩
  | succ bits ih =>
      rw [pow_succ] at bounded
      have half : value / 2 < 2 ^ bits := by omega
      have none := countOnes_eq_zero half
      unfold countOnes
      by_cases odd : value % 2 = 1
      · rw [isPowerOfTwo_odd odd, ← none]
        omega
      · have even : value % 2 = 0 := by omega
        by_cases zero : value = 0
        · subst zero
          rw [none.mpr rfl]
          exact ⟨fun one => absurd one Nat.zero_ne_one, fun power => absurd power Nat.not_isPowerOfTwo_zero⟩
        · rw [isPowerOfTwo_half even zero, ← ih half, even, Nat.zero_add]

theorem isPowerOfTwo_iff_log2 (some : value ≠ 0) : value.isPowerOfTwo ↔ value = 2 ^ value.log2 := by
  constructor
  · rintro ⟨exponent, rfl⟩
    rw [Nat.log2_two_pow]
  · intro power
    exact ⟨_, power⟩

theorem isPowerOf2_iff (value : BitVec W) : isPowerOf2 value = true ↔ value.toNat.isPowerOfTwo := by
  unfold isPowerOf2
  split
  · rw [decide_eq_true_iff]
    exact Nat.ne_zero_and_sub_one_eq_zero_iff_isPowerOfTwo
  · rw [decide_eq_true_iff]
    exact countOnes_eq_one value.isLt

/-! ### The least width -/

/-- The bits of a number with its sign; a power of two is the least value of its width. -/
def leastWidth (negative : Bool) (value : Nat) : Nat :=
  if value = 0 then negative.toNat + 1
  else if negative ∧ value = 2 ^ value.log2 then value.log2 + 1
  else negative.toNat + value.log2 + 1

def Denotes (negative : Bool) (value : Nat) (word : BitVec W) : Prop :=
  if negative then word.toInt = -(value : Int) else word.toNat = value

theorem denotes_of_fits {negative : Bool} (positive : 0 < W)
    (fits : if negative then value ≤ 2 ^ (W - 1) else value < 2 ^ W) :
    Denotes negative value (if negative then -BitVec.ofNat W value else BitVec.ofNat W value) := by
  unfold Denotes
  cases negative with
  | true =>
      rw [if_pos rfl] at fits ⊢
      rw [if_pos rfl]
      have some := Nat.two_pow_pos (W - 1)
      rw [← BitVec.ofInt_natCast, ← BitVec.ofInt_neg]
      exact toInt_ofInt_of_range positive (by omega) (by omega)
  | false =>
      rw [if_neg Bool.false_ne_true] at fits ⊢
      rw [if_neg Bool.false_ne_true, BitVec.toNat_ofNat, Nat.mod_eq_of_lt fits]

theorem leastWidth_fits (negative : Bool) (value : Nat) :
    0 < leastWidth negative value ∧
      if negative then value ≤ 2 ^ (leastWidth negative value - 1)
        else value < 2 ^ leastWidth negative value := by
  unfold leastWidth
  by_cases zero : value = 0
  · subst zero
    rw [if_pos rfl]
    cases negative with
    | true | false => decide
  · have below := Nat.lt_log2_self (n := value)
    rw [if_neg zero]
    cases negative with
    | true =>
        rw [if_pos rfl]
        by_cases power : value = 2 ^ value.log2
        · rw [if_pos ⟨rfl, power⟩, Nat.add_sub_cancel]
          exact ⟨Nat.succ_pos _, power.le⟩
        · rw [if_neg fun both => power both.2, Nat.add_sub_cancel, Bool.toNat_true]
          refine ⟨Nat.succ_pos _, ?_⟩
          rw [Nat.add_comm]
          exact below.le
    | false =>
        rw [if_neg Bool.false_ne_true, if_neg fun both => Bool.false_ne_true both.1, Bool.toNat_false,
          Nat.zero_add]
        exact ⟨Nat.succ_pos _, below⟩

theorem leastWidth_le (negative : Bool) (small : value < 2 ^ bits) (some : 0 < bits) :
    leastWidth negative value ≤ bits + 1 := by
  have one : negative.toNat ≤ 1 := Bool.toNat_le negative
  unfold leastWidth
  by_cases zero : value = 0
  · rw [if_pos zero]
    omega
  · have log := (Nat.log2_lt zero).mpr small
    rw [if_neg zero]
    split
    · omega
    · omega

section Found

variable {NDEBUG : Bool} {radix : Nat} {text : List Char} {sign : Sign}

def ShortText (radix : Nat) (negative : Bool) (length : Nat) : Prop :=
  if shiftFor radix = 0 then estimatedBits radix length < 2 ^ 32
  else length * shiftFor radix + negative.toNat < 2 ^ 32

theorem estimatedBits_cases (radix length : Nat) : estimatedBits radix length ≤ 7 ∨
    radix = 10 ∧ estimatedBits radix length = length * 64 / 18 ∨
      radix ≠ 10 ∧ estimatedBits radix length = length * 16 / 3 := by
  unfold estimatedBits
  by_cases decimal : radix = 10
  · rw [if_pos decimal]
    split
    · exact .inl (by decide)
    · exact .inr (.inl ⟨decimal, rfl⟩)
  · rw [if_neg decimal]
    split
    · exact .inl (by decide)
    · exact .inr (.inr ⟨decimal, rfl⟩)

theorem shiftFor_le (radix : Nat) : shiftFor radix ≤ 4 := by
  unfold shiftFor
  split
  · decide
  · split
    · decide
    · split
      · decide
      · decide

theorem sufficientBits_of_short {negative : Bool} (short : ShortText radix negative length)
    (other : shiftFor radix = 0) :
    sufficientBits radix length = estimatedBits radix length ∧ estimatedBits radix length + 1 < 2 ^ 32 := by
  rw [ShortText, if_pos other] at short
  have cases := estimatedBits_cases radix length
  exact ⟨Nat.mod_eq_of_lt short, by omega⟩

theorem logBase2_eq (value : BitVec W) :
    logBase2 value = if value.toNat = 0 then none else some value.toNat.log2 := by
  unfold logBase2 getActiveBits
  by_cases zero : value.toNat = 0
  · rw [if_pos zero, if_pos rfl, if_pos zero]
  · rw [if_neg zero, if_neg (Nat.succ_ne_zero _), if_neg zero, Nat.add_sub_cancel]

theorem insufficientBitWidth_eq_false {slen numbits : Nat} :
    insufficientBitWidth slen numbits radix = false ↔
      (radix = 2 → slen ≤ numbits) ∧ (radix = 8 → (slen - 1) * 3 ≤ numbits) ∧
        (radix = 16 → (slen - 1) * 4 ≤ numbits) ∧ (radix = 10 → (slen - 1) * 64 / 22 ≤ numbits) := by
  unfold insufficientBitWidth
  simp only [Bool.or_eq_false_iff, decide_eq_false_iff_not, not_and, Nat.not_lt, and_assoc]

theorem estimatedBits_accepted (NDEBUG : Bool) (other : shiftFor radix = 0) (known : radix ∈ radixes)
    (some : text ≠ []) :
    0 < estimatedBits radix text.length ∧
      WidthAccepted NDEBUG (estimatedBits radix text.length) radix text.length := by
  have many : text.length ≠ 0 := fun none => some (List.length_eq_zero_iff.mp none)
  have decimal : radix = 10 ∨ radix = 36 := by
    simp only [radixes, List.mem_cons, List.not_mem_nil, or_false] at known
    unfold shiftFor at other
    rcases known with rfl | rfl | rfl | rfl | rfl
    · exact .inl rfl
    · cases other
    · cases other
    · cases other
    · exact .inr rfl
  unfold WidthAccepted
  rw [other]
  rcases decimal with rfl | rfl
  · unfold estimatedBits insufficientBitWidth
    rw [if_pos rfl]
    by_cases one : text.length = 1
    · rw [if_pos one, one]
      exact ⟨by decide, .inr ⟨by decide, .inr (by decide)⟩⟩
    · rw [if_neg one]
      refine ⟨by omega, .inr ⟨?_, .inr (Nat.zero_le _)⟩⟩
      simp
      omega
  · unfold estimatedBits insufficientBitWidth
    rw [if_neg (by decide)]
    by_cases one : text.length = 1
    · rw [if_pos one, one]
      exact ⟨by decide, .inr ⟨by decide, .inr (by decide)⟩⟩
    · rw [if_neg one]
      exact ⟨by omega, .inr ⟨by simp, .inr (Nat.zero_le _)⟩⟩

theorem needed_checks (sign : Sign) (holds : Numeral radix text) :
    sign.text ++ text ≠ [] ∧ text.length ≠ 0 := by
  constructor
  · intro empty
    exact holds.nonempty (List.append_eq_nil_iff.mp empty).2
  · intro none
    exact holds.nonempty (List.length_eq_zero_iff.mp none)

theorem getBitsNeeded_eq (NDEBUG : Bool) (sign : Sign) (holds : Numeral radix text) (other : shiftFor radix = 0)
    (short : ShortText radix sign.negative text.length) :
    getBitsNeeded NDEBUG (sign.text ++ text) radix =
      some (leastWidth sign.negative (numeral radix text % 2 ^ estimatedBits radix text.length)) := by
  obtain ⟨some, many⟩ := needed_checks sign holds
  obtain ⟨enough, accepted⟩ := estimatedBits_accepted NDEBUG other holds.known holds.nonempty
  obtain ⟨whole, room⟩ := sufficientBits_of_short short other
  rw [← whole] at enough accepted room ⊢
  have read := fromString_eq .none holds accepted
  have powers : ¬ radix = 2 ∧ ¬ radix = 8 ∧ ¬ radix = 16 := by
    refine ⟨?_, ?_, ?_⟩
    all_goals
      rintro rfl
      cases other
  unfold getBitsNeeded
  rw [splitSign_eq holds]
  simp only [bind_eq_bind]
  rw [(guard_eq_some' ()).mpr some, bind_some, (guard_eq_some' ()).mpr (.inr holds.known),
    bind_some, (guard_eq_some' ()).mpr (.inr many), bind_some, if_neg powers.1,
    if_neg powers.2.1, if_neg powers.2.2, (guard_eq_some' ()).mpr (.inr (by omega)), bind_some]
  rw [Sign.text, List.nil_append] at read
  rw [read, bind_some, if_neg (by decide), logBase2_eq]
  have left := BitVec.toNat_ofNat (numeral radix text) (sufficientBits radix text.length)
  have power := isPowerOf2_iff (BitVec.ofNat (sufficientBits radix text.length) (numeral radix text))
  have bound := (BitVec.ofNat (sufficientBits radix text.length) (numeral radix text)).isLt
  generalize BitVec.ofNat (sufficientBits radix text.length) (numeral radix text) = tmp at left power bound ⊢
  have fits := leastWidth_le sign.negative bound enough
  rw [← left]
  unfold leastWidth at fits ⊢
  by_cases zero : tmp.toNat = 0
  · rw [if_pos zero, if_pos zero]
  · rw [if_neg zero] at fits ⊢
    rw [if_neg zero]
    rw [isPowerOfTwo_iff_log2 zero] at power
    simp only [Bool.and_eq_true, power]
    by_cases least : sign.negative = true ∧ tmp.toNat = 2 ^ tmp.toNat.log2
    · rw [if_pos least] at fits ⊢
      rw [if_pos least, least.1, Bool.toNat_true, Nat.add_comm, Nat.mod_eq_of_lt (by omega)]
    · rw [if_neg least] at fits ⊢
      rw [if_neg least, Nat.mod_eq_of_lt (by omega)]

theorem getBitsNeeded_shift (holds : Numeral radix text) (shifts : shiftFor radix ≠ 0) :
    getBitsNeeded NDEBUG (sign.text ++ text) radix =
      some ((text.length * shiftFor radix + sign.negative.toNat) % 2 ^ 32) := by
  obtain ⟨some, many⟩ := needed_checks sign holds
  unfold getBitsNeeded
  rw [splitSign_eq holds]
  simp only [bind_eq_bind]
  rw [(guard_eq_some' ()).mpr some, bind_some, (guard_eq_some' ()).mpr (.inr holds.known),
    bind_some, (guard_eq_some' ()).mpr (.inr many), bind_some]
  unfold shiftFor at shifts ⊢
  split at shifts
  · rename_i sixteen
    subst sixteen
    rfl
  · split at shifts
    · rename_i eight
      subst eight
      rfl
    · split at shifts
      · rename_i two
        subst two
        rw [if_pos rfl, if_neg (by decide), if_neg (by decide), if_pos rfl, Nat.mul_one]
      · exact absurd rfl shifts

theorem getBitsNeeded_le {width : Nat} (holds : Numeral radix text) (other : shiftFor radix = 0)
    (needed : getBitsNeeded NDEBUG (sign.text ++ text) radix = some width) :
    width ≤ sufficientBits radix text.length + 2 := by
  have powers : ¬ radix = 2 ∧ ¬ radix = 8 ∧ ¬ radix = 16 := by
    refine ⟨?_, ?_, ?_⟩
    all_goals
      rintro rfl
      cases other
  have one : sign.negative.toNat ≤ 1 := Bool.toNat_le sign.negative
  unfold getBitsNeeded at needed
  rw [splitSign_eq holds] at needed
  obtain ⟨_, _, needed⟩ := bind_eq_some_iff.mp needed
  obtain ⟨_, _, needed⟩ := bind_eq_some_iff.mp needed
  obtain ⟨_, _, needed⟩ := bind_eq_some_iff.mp needed
  rw [if_neg powers.1, if_neg powers.2.1, if_neg powers.2.2] at needed
  obtain ⟨_, _, needed⟩ := bind_eq_some_iff.mp needed
  obtain ⟨tmp, _, needed⟩ := bind_eq_some_iff.mp needed
  rw [logBase2_eq] at needed
  by_cases zero : tmp.toNat = 0
  · rw [if_pos zero] at needed
    cases needed
    omega
  · have log := (Nat.log2_lt zero).mpr tmp.isLt
    rw [if_neg zero] at needed
    simp only at needed
    split at needed
    · cases needed
      exact (Nat.mod_le _ _).trans (by omega)
    · cases needed
      exact (Nat.mod_le _ _).trans (by omega)

/-! ### Reading at the width -/

theorem pow_le_of_period {base period rest more : Nat} (full : base ^ period ≤ 2 ^ bits)
    (first : base ^ rest ≤ 2 ^ more) (count : Nat) :
    base ^ (period * count + rest) ≤ 2 ^ (bits * count + more) := by
  rw [pow_add, pow_add, pow_mul, pow_mul]
  exact Nat.mul_le_mul (Nat.pow_le_pow_left full count) first

theorem ten_pow_le (many : 2 ≤ length) : 10 ^ length ≤ 2 ^ (length * 64 / 18) := by
  obtain ⟨count, rest, low, high, rfl⟩ : ∃ count rest, 2 ≤ rest ∧ rest ≤ 10 ∧ length = 9 * count + rest :=
    ⟨(length - 2) / 9, (length - 2) % 9 + 2, by omega, by omega, by omega⟩
  have first : 10 ^ rest ≤ 2 ^ (rest * 64 / 18) := by
    interval_cases rest <;> decide
  have bits : (9 * count + rest) * 64 / 18 = 32 * count + rest * 64 / 18 := by omega
  rw [bits]
  exact pow_le_of_period (by decide) first count

theorem thirtySix_pow_le (many : 3 ≤ length) : 36 ^ length ≤ 2 ^ (length * 16 / 3) := by
  obtain ⟨count, rest, low, high, rfl⟩ : ∃ count rest, 3 ≤ rest ∧ rest ≤ 5 ∧ length = 3 * count + rest :=
    ⟨(length - 3) / 3, (length - 3) % 3 + 3, by omega, by omega, by omega⟩
  have first : 36 ^ rest ≤ 2 ^ (rest * 16 / 3) := by
    interval_cases rest <;> decide
  have bits : (3 * count + rest) * 16 / 3 = 16 * count + rest * 16 / 3 := by omega
  rw [bits]
  exact pow_le_of_period (by decide) first count

theorem decimal_of_shiftFor (other : shiftFor radix = 0) (known : radix ∈ radixes) : radix = 10 ∨ radix = 36 := by
  simp only [radixes, List.mem_cons, List.not_mem_nil, or_false] at known
  unfold shiftFor at other
  rcases known with rfl | rfl | rfl | rfl | rfl
  · exact .inl rfl
  · cases other
  · cases other
  · cases other
  · exact .inr rfl

theorem lt_estimatedBits (holds : Numeral radix text) (other : shiftFor radix = 0)
    (fits : radix = 36 → text.length = 2 → numeral radix text < 1024) :
    numeral radix text < 2 ^ estimatedBits radix text.length := by
  have below := holds.lt
  have many : text.length ≠ 0 := fun none => holds.nonempty (List.length_eq_zero_iff.mp none)
  unfold estimatedBits
  rcases decimal_of_shiftFor other holds.known with rfl | rfl
  · rw [if_pos rfl]
    by_cases one : text.length = 1
    · rw [one] at below
      rw [if_pos one]
      exact below.trans (by decide)
    · rw [if_neg one]
      exact below.trans_le (ten_pow_le (by omega))
  · rw [if_neg (by decide)]
    by_cases one : text.length = 1
    · rw [one] at below
      rw [if_pos one]
      exact below.trans (by decide)
    · rw [if_neg one]
      by_cases two : text.length = 2
      · rw [two]
        exact fits rfl two
      · exact below.trans_le (thirtySix_pow_le (by omega))

/-- The integer that the text denotes is read at the width that is found. -/
def ParsesExactly (NDEBUG : Bool) (radix : Nat) (sign : Sign) (text : List Char) : Prop :=
  ∃ width, getBitsNeeded NDEBUG (sign.text ++ text) radix = some width ∧
    ∃ value : BitVec width, fromString NDEBUG width (sign.text ++ text) radix = some value ∧
      Denotes sign.negative (numeral radix text) value

theorem fromString_rejected {numbits : Nat} (holds : Numeral radix text)
    (short : insufficientBitWidth text.length numbits radix = true) :
    fromString false numbits (sign.text ++ text) radix = none := by
  obtain ⟨some, many⟩ := needed_checks sign holds
  unfold fromString
  rw [splitSign_eq holds]
  simp only [bind_eq_bind]
  rw [(guard_eq_some' ()).mpr some, bind_some, (guard_eq_some' ()).mpr (.inr holds.known),
    bind_some, (guard_eq_some' ()).mpr (.inr many), bind_some, bind_eq_none_iff]
  intro _ held
  have passed := (guard_eq_some' _).mp held
  rw [short] at passed
  rcases passed with debug | long
  · cases debug
  · cases long

theorem shift_parses (holds : Numeral radix text) (shifts : shiftFor radix ≠ 0)
    (short : ShortText radix sign.negative text.length) :
    ParsesExactly NDEBUG radix sign text := by
  have below := holds.lt
  have many : text.length ≠ 0 := fun none => holds.nonempty (List.length_eq_zero_iff.mp none)
  have wide : 0 < text.length * shiftFor radix := Nat.mul_pos (by omega) (by omega)
  have power := two_pow_shiftFor shifts
  have room : shiftFor radix ≤ text.length * shiftFor radix := Nat.le_mul_of_pos_left _ (by omega)
  have accepted : WidthAccepted NDEBUG (text.length * shiftFor radix + sign.negative.toNat) radix
      text.length := by
    refine .inr ⟨insufficientBitWidth_eq_false.mpr ⟨?_, ?_, ?_, ?_⟩, .inr (by omega)⟩
    · rintro rfl
      change text.length ≤ text.length * 1 + _
      omega
    · rintro rfl
      change _ ≤ text.length * 3 + _
      omega
    · rintro rfl
      change _ ≤ text.length * 4 + _
      omega
    · rintro rfl
      exact absurd rfl shifts
  rw [ShortText, if_neg shifts] at short
  have needed : getBitsNeeded NDEBUG (sign.text ++ text) radix =
      some (text.length * shiftFor radix + sign.negative.toNat) := by
    rw [getBitsNeeded_shift holds shifts, Nat.mod_eq_of_lt short]
  refine ⟨_, needed, _, fromString_eq sign holds accepted, denotes_of_fits (by omega) ?_⟩
  have bound : numeral radix text < 2 ^ (text.length * shiftFor radix) := by
    rw [Nat.mul_comm, pow_mul, ← power]
    exact below
  cases sign.negative with
  | true =>
      rw [if_pos rfl, Bool.toNat_true, Nat.add_sub_cancel]
      exact bound.le
  | false =>
      rw [if_neg Bool.false_ne_true]
      exact bound

/-- At the width of the number itself a text is read unless it is decimal and the
assertion is against its length. -/
theorem least_parses_iff (holds : Numeral radix text) (other : shiftFor radix = 0)
    (needed : getBitsNeeded NDEBUG (sign.text ++ text) radix =
      some (leastWidth sign.negative (numeral radix text))) :
    ParsesExactly NDEBUG radix sign text ↔ (radix = 10 →
      NDEBUG ∨ (text.length - 1) * 64 / 22 ≤ leastWidth sign.negative (numeral radix text)) := by
  obtain ⟨positive, fits⟩ := leastWidth_fits sign.negative (numeral radix text)
  constructor
  · rintro ⟨width, same, value, read, _⟩ decimal
    rw [needed, Option.some.injEq] at same
    subst same
    by_contra rejected
    rw [not_or, Bool.not_eq_true, Nat.not_le] at rejected
    have short : insufficientBitWidth text.length (leastWidth sign.negative (numeral radix text)) radix =
        true := by
      rw [← Bool.not_eq_false, insufficientBitWidth_eq_false]
      rintro ⟨_, _, _, long⟩
      exact absurd (long decimal) (Nat.not_le.mpr rejected.2)
    rw [rejected.1, fromString_rejected holds short] at read
    cases read
  · intro checked
    have accepted : WidthAccepted NDEBUG (leastWidth sign.negative (numeral radix text)) radix text.length := by
      unfold WidthAccepted
      rw [insufficientBitWidth_eq_false, other]
      rcases decimal_of_shiftFor other holds.known with rfl | rfl
      · exact (checked rfl).imp_right fun long =>
          ⟨⟨nofun, nofun, nofun, fun _ => long⟩, .inr (Nat.zero_le _)⟩
      · exact .inr ⟨⟨nofun, nofun, nofun, nofun⟩, .inr (Nat.zero_le _)⟩
    exact ⟨_, needed, _, fromString_eq sign holds accepted, denotes_of_fits positive fits⟩

theorem twoDigits_not_parsed (holds : Numeral 36 text) (two : text.length = 2) (large : 1024 ≤ numeral 36 text) :
    ¬ ParsesExactly NDEBUG 36 sign text := by
  rintro ⟨width, needed, value, _, exact⟩
  have below := holds.lt
  have short : ShortText 36 sign.negative text.length := by
    rw [two]
    exact (by decide : estimatedBits 36 2 < 2 ^ 32)
  rw [getBitsNeeded_eq NDEBUG sign holds rfl short, Option.some.injEq, two] at needed
  rw [two] at below
  have wrapped : numeral 36 text % 2 ^ estimatedBits 36 2 < 2 ^ 9 := by
    change numeral 36 text % 1024 < 512
    omega
  have short := leastWidth_le sign.negative wrapped (by decide)
  rw [needed] at short
  have power : 2 ^ width ≤ 2 ^ 10 := Nat.pow_le_pow_right (by decide) short
  unfold Denotes at exact
  split at exact
  · have low := (toInt_bounds value).1
    have half : 2 ^ (width - 1) ≤ 2 ^ 9 := Nat.pow_le_pow_right (by decide) (by omega)
    omega
  · omega

/-- A text is read exactly but for two digits of base 36 from 1024 on, and decimal
texts with many zeros in front where the assertions are compiled in. -/
theorem short_parses_iff (NDEBUG : Bool) (sign : Sign) (holds : Numeral radix text)
    (short : ShortText radix sign.negative text.length) :
    ParsesExactly NDEBUG radix sign text ↔
      (radix = 36 → text.length = 2 → numeral radix text < 1024) ∧
        (radix = 10 → NDEBUG ∨ (text.length - 1) * 64 / 22 ≤ leastWidth sign.negative (numeral radix text)) := by
  by_cases shifts : shiftFor radix = 0
  · by_cases fits : radix = 36 → text.length = 2 → numeral radix text < 1024
    · have small := lt_estimatedBits holds shifts fits
      have needed := getBitsNeeded_eq NDEBUG sign holds shifts short
      rw [Nat.mod_eq_of_lt small] at needed
      rw [least_parses_iff holds shifts needed, and_iff_right fits]
    · refine iff_of_false ?_ fun both => fits both.1
      rw [Classical.not_imp, Classical.not_imp, Nat.not_lt] at fits
      obtain ⟨rfl, two, large⟩ := fits
      exact twoDigits_not_parsed holds two large
  · refine iff_of_true (shift_parses holds shifts short) ⟨?_, ?_⟩
    · rintro rfl
      exact absurd rfl shifts
    · rintro rfl
      exact absurd rfl shifts

theorem long_not_parsed (holds : Numeral radix text) (counts : ∀ c ∈ text.head?, digitValue c ≠ some 0)
    (long : ¬ ShortText radix sign.negative text.length) : ¬ ParsesExactly NDEBUG radix sign text := by
  rintro ⟨width, needed, value, _, exact⟩
  have fits : numeral radix text ≤ 2 ^ width := by
    have low := (toInt_bounds value).1
    have bound := value.isLt
    have half : 2 ^ (width - 1) ≤ 2 ^ width := Nat.pow_le_pow_right (by decide) (Nat.sub_le width 1)
    unfold Denotes at exact
    split at exact
    · omega
    · omega
  have least := holds.least counts
  have one : sign.negative.toNat ≤ 1 := Bool.toNat_le sign.negative
  rw [ShortText] at long
  by_cases other : shiftFor radix = 0
  · rw [if_pos other] at long
    have most := getBitsNeeded_le holds other needed
    have spread {bits : Nat} (base : 2 ^ bits ≤ radix) : bits * (text.length - 1) ≤ width := by
      have powers := (Nat.pow_le_pow_left base (text.length - 1)).trans (least.trans fits)
      rw [← pow_mul] at powers
      exact (Nat.pow_le_pow_iff_right (by decide)).mp powers
    have cases := estimatedBits_cases radix text.length
    have wrapped : sufficientBits radix text.length + 2 ^ 32 ≤ estimatedBits radix text.length := by
      unfold sufficientBits
      omega
    have word : sufficientBits radix text.length < 2 ^ 32 := Nat.mod_lt _ (by decide)
    rcases decimal_of_shiftFor other holds.known with rfl | rfl
    · have digits := spread (show 2 ^ 3 ≤ 10 by decide)
      omega
    · have digits := spread (show 2 ^ 5 ≤ 36 by decide)
      omega
  · rw [if_neg other] at long
    rw [getBitsNeeded_shift holds other, Option.some.injEq] at needed
    have small := shiftFor_le radix
    have powers : (2 ^ shiftFor radix) ^ (text.length - 1) ≤ 2 ^ width := by
      rw [← two_pow_shiftFor other]
      exact least.trans fits
    rw [← pow_mul, Nat.pow_le_pow_iff_right (by decide), Nat.mul_sub, Nat.mul_one, Nat.mul_comm] at powers
    omega

/-- A text is read exactly where it is not so long that its width wraps, but for two digits
of base 36 from 1024 on, and decimal texts with many zeros in front where the assertions
are compiled in. -/
theorem parsesExactly_iff (NDEBUG : Bool) (sign : Sign) (holds : Numeral radix text)
    (counts : ShortText radix sign.negative text.length ∨ ∀ c ∈ text.head?, digitValue c ≠ some 0) :
    ParsesExactly NDEBUG radix sign text ↔
      ShortText radix sign.negative text.length ∧
        (radix = 36 → text.length = 2 → numeral radix text < 1024) ∧
        (radix = 10 → NDEBUG ∨ (text.length - 1) * 64 / 22 ≤ leastWidth sign.negative (numeral radix text)) := by
  by_cases short : ShortText radix sign.negative text.length
  · rw [short_parses_iff NDEBUG sign holds short, and_iff_right short]
  · have first := counts.resolve_left short
    exact iff_of_false (long_not_parsed holds first short) fun both => short both.1

end Found

end EvmBackend.APInt
