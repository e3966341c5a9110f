/-
Knuth's algorithm D is right in machine arithmetic.

Every loop over digits has one equation between the numbers its digits stand
for. The borrow of the subtraction is computed in 32 bits from a difference
that may be negative; it stays below the base because the trial digit does. A
step leaves the remainder of the digits it looks at, and puts their quotient.
-/

import EvmBackend.APInt.Division
import EvmBackend.Library.LongDivision
import Mathlib.Data.List.GetD
import Mathlib.Tactic.LinearCombination

namespace EvmBackend.APInt

open LongDivision List

def Digits (digits : List Nat) : Prop := ∀ digit ∈ digits, digit < 2 ^ 32

def number (digits : List Nat) : Nat := Nat.ofDigits (2 ^ 32) digits

theorem number_nil : number [] = 0 := rfl

theorem number_cons (digit : Nat) (digits : List Nat) :
    number (digit :: digits) = digit + 2 ^ 32 * number digits := Nat.ofDigits_cons

theorem number_singleton (digit : Nat) : number [digit] = digit := Nat.ofDigits_singleton

theorem number_append (low high : List Nat) :
    number (low ++ high) = number low + (2 ^ 32) ^ low.length * number high := Nat.ofDigits_append

theorem digits_nil : Digits [] := fun _ absent => by cases absent

variable {digits : List Nat} {shift digit : Nat}

theorem digits_cons :
    Digits (digit :: digits) ↔ digit < 2 ^ 32 ∧ Digits digits := forall_mem_cons

theorem digits_append {low high : List Nat} : Digits (low ++ high) ↔ Digits low ∧ Digits high :=
  forall_mem_append

theorem Digits.take (all : Digits digits) (count : Nat) : Digits (digits.take count) :=
  fun digit member => all digit (mem_of_mem_take member)

theorem Digits.drop (all : Digits digits) (count : Nat) : Digits (digits.drop count) :=
  fun digit member => all digit (mem_of_mem_drop member)

theorem Digits.number_lt (all : Digits digits) :
    number digits < (2 ^ 32) ^ digits.length :=
  Nat.ofDigits_lt_base_pow_length (by decide) all

theorem Digits.getD_lt (all : Digits digits) (index : Nat) : digits.getD index 0 < 2 ^ 32 := by
  rw [getD_eq_getElem?_getD]
  cases found : digits[index]? with
  | none => decide
  | some digit => exact all digit (mem_of_getElem? found)

/-! ### Subtracting and adding -/

private theorem subtracted_digit {qp factor borrow : Nat} (small : qp < 2 ^ 32)
    (isDigit : digit < 2 ^ 32) (isFactor : factor < 2 ^ 32) (isBorrow : borrow < 2 ^ 32) :
    let p := u64 (qp * factor)
    let subres : Int := digit - borrow - Lo_32 p
    Lo_32 subres < 2 ^ 32 ∧ Lo_32 (Hi_32 p - Hi_32 subres) < 2 ^ 32 ∧
      Lo_32 subres + qp * factor + borrow =
        digit + 2 ^ 32 * Lo_32 (Hi_32 p - Hi_32 subres) := by
  have product : qp * factor ≤ (2 ^ 32 - 1) * (2 ^ 32 - 1) :=
    Nat.mul_le_mul (Nat.le_sub_one_of_lt small) (Nat.le_sub_one_of_lt isFactor)
  have whole : u64 (qp * factor) = qp * factor := by
    apply Nat.mod_eq_of_lt
    omega
  rw [whole]
  generalize qp * factor = p at *
  simp only [Lo_32, Hi_32]
  omega

theorem multiplyAndSubtract_spec {qp borrow : Nat} {u v : List Nat} (small : qp < 2 ^ 32)
    (same : u.length = v.length) (inU : Digits u) (inV : Digits v) (isBorrow : borrow < 2 ^ 32) :
    (multiplyAndSubtract qp u v borrow).1.length = u.length ∧
      Digits (multiplyAndSubtract qp u v borrow).1 ∧
      (multiplyAndSubtract qp u v borrow).2 < 2 ^ 32 ∧
      number (multiplyAndSubtract qp u v borrow).1 + qp * number v + borrow =
        number u + (2 ^ 32) ^ u.length * (multiplyAndSubtract qp u v borrow).2 := by
  induction u generalizing v borrow with
  | nil =>
      obtain rfl := length_eq_zero_iff.mp same.symm
      refine ⟨rfl, digits_nil, isBorrow, ?_⟩
      simp [multiplyAndSubtract, number_nil]
  | cons digit u ih =>
      cases v with
      | nil => cases same
      | cons factor v =>
          rw [digits_cons] at inU inV
          obtain ⟨low, next, step⟩ := subtracted_digit small inU.1 inV.1 isBorrow
          obtain ⟨length, digits, borrows, equation⟩ :=
            ih (Nat.succ.inj same) inU.2 inV.2 next
          refine ⟨congrArg Nat.succ length, digits_cons.mpr ⟨low, digits⟩, borrows, ?_⟩
          rw [multiplyAndSubtract]
          simp only [number_cons, length_cons, pow_succ]
          -- the borrow between the digits cancels
          linear_combination step + 2 ^ 32 * equation

private theorem added_digit {addend : Nat} (carry : Bool) (isDigit : digit < 2 ^ 32)
    (isAddend : addend < 2 ^ 32) : let sum := u32 (digit + u32 (addend + carry.toNat))
    sum < 2 ^ 32 ∧ sum + 2 ^ 32 *
      (decide (sum < min digit addend) || (carry && sum == min digit addend)).toNat =
        digit + addend + carry.toNat := by
  intro sum
  have modulo : sum = (digit + addend + carry.toNat) % 2 ^ 32 := by
    simp only [sum, u32]
    omega
  refine ⟨Nat.mod_lt _ (by decide), ?_⟩
  have least := Nat.min_le_left digit addend
  have other := Nat.min_le_right digit addend
  have one : min digit addend = digit ∨ min digit addend = addend := by omega
  generalize min digit addend = limit at *
  cases carry with
  | false =>
      simp only [Bool.toNat_false, Nat.add_zero, Bool.false_and, Bool.or_false] at *
      by_cases small : sum < limit
      · simp only [small, decide_true, Bool.toNat_true]
        omega
      · simp only [small, decide_false, Bool.toNat_false]
        omega
  | true =>
      simp only [Bool.toNat_true, Bool.true_and] at *
      by_cases small : sum ≤ limit
      · have flag : (decide (sum < limit) || sum == limit) = true := by
          simp only [Bool.or_eq_true, decide_eq_true_eq, beq_iff_eq]
          omega
        simp only [flag, Bool.toNat_true]
        omega
      · have flag : (decide (sum < limit) || sum == limit) = false := by
          simp only [Bool.or_eq_false_iff, decide_eq_false_iff_not, beq_eq_false_iff_ne]
          omega
        simp only [flag, Bool.toNat_false]
        omega

theorem addBack_spec {u v : List Nat} {carry : Bool} (same : u.length = v.length) (inU : Digits u)
    (inV : Digits v) :
    (addBack u v carry).1.length = u.length ∧ Digits (addBack u v carry).1 ∧
      number (addBack u v carry).1 + (2 ^ 32) ^ u.length * (addBack u v carry).2.toNat =
        number u + number v + carry.toNat := by
  induction u generalizing v carry with
  | nil =>
      obtain rfl := length_eq_zero_iff.mp same.symm
      refine ⟨rfl, digits_nil, ?_⟩
      simp [addBack, number_nil]
  | cons digit u ih =>
      cases v with
      | nil => cases same
      | cons addend v =>
          rw [digits_cons] at inU inV
          obtain ⟨low, step⟩ := added_digit carry inU.1 inV.1
          obtain ⟨length, digits, equation⟩ := ih (Nat.succ.inj same) inU.2 inV.2
          refine ⟨congrArg Nat.succ length, digits_cons.mpr ⟨low, digits⟩, ?_⟩
          rw [addBack]
          simp only [number_cons, length_cons, pow_succ]
          linear_combination step + 2 ^ 32 * equation

private theorem shifted_left (digit : Nat) {carry : Nat} (short : shift ≤ 32)
    (isCarry : carry < 2 ^ shift) :
    (u32 (digit <<< shift) ||| carry) + 2 ^ 32 * (digit >>> (32 - shift)) =
      digit * 2 ^ shift + carry := by
  have base : 2 ^ 32 = 2 ^ shift * 2 ^ (32 - shift) := by
    rw [← pow_add, Nat.add_sub_cancel' short]
  have low : u32 (digit <<< shift) = 2 ^ shift * (digit % 2 ^ (32 - shift)) := by
    rw [u32, Nat.shiftLeft_eq, base, Nat.mul_comm digit, Nat.mul_mod_mul_left]
  rw [low, ← Nat.two_pow_add_eq_or_of_lt isCarry, Nat.shiftRight_eq_div_pow, base]
  have split := Nat.mod_add_div digit (2 ^ (32 - shift))
  linear_combination 2 ^ shift * split

theorem shiftLeftDigits_spec {carry : Nat} (short : shift ≤ 32) (isCarry : carry < 2 ^ shift)
    (all : Digits digits) :
    (shiftLeftDigits shift digits carry).1.length = digits.length ∧
      Digits (shiftLeftDigits shift digits carry).1 ∧
      (shiftLeftDigits shift digits carry).2 < 2 ^ shift ∧
      number (shiftLeftDigits shift digits carry).1 +
        (2 ^ 32) ^ digits.length * (shiftLeftDigits shift digits carry).2 =
          number digits * 2 ^ shift + carry := by
  induction digits generalizing carry with
  | nil =>
      refine ⟨rfl, digits_nil, isCarry, ?_⟩
      simp [shiftLeftDigits, number_nil]
  | cons digit rest ih =>
      rw [digits_cons] at all
      have step := shifted_left digit short isCarry
      have next : digit >>> (32 - shift) < 2 ^ shift := by
        rw [Nat.shiftRight_eq_div_pow]
        apply Nat.div_lt_of_lt_mul
        rw [← pow_add, Nat.sub_add_cancel short]
        exact all.1
      have low : u32 (digit <<< shift) ||| carry < 2 ^ 32 :=
        Nat.or_lt_two_pow (Nat.mod_lt _ (by decide))
          (isCarry.trans_le (Nat.pow_le_pow_right (by decide) short))
      obtain ⟨length, digits, bounded, equation⟩ := ih next all.2
      refine ⟨congrArg Nat.succ length, digits_cons.mpr ⟨low, digits⟩, bounded, ?_⟩
      rw [shiftLeftDigits]
      simp only [number_cons, length_cons, pow_succ (2 ^ 32)]
      linear_combination step + 2 ^ 32 * equation

theorem shiftRightDigits_spec (short : shift ≤ 32) (all : Digits digits) :
    (shiftRightDigits shift digits).1.length = digits.length ∧
      Digits (shiftRightDigits shift digits).1 ∧
      number (shiftRightDigits shift digits).1 = number digits / 2 ^ shift ∧
      (shiftRightDigits shift digits).2 = number digits % 2 ^ shift * 2 ^ (32 - shift) := by
  have base : 2 ^ 32 = 2 ^ shift * 2 ^ (32 - shift) := by
    rw [← pow_add, Nat.add_sub_cancel' short]
  induction digits with
  | nil =>
      refine ⟨rfl, digits_nil, ?_, ?_⟩ <;> simp [shiftRightDigits, number_nil]
  | cons digit rest ih =>
      rw [digits_cons] at all
      obtain ⟨length, digits, value, carry⟩ := ih all.2
      have small : digit / 2 ^ shift < 2 ^ (32 - shift) := by
        apply Nat.div_lt_of_lt_mul
        rw [← base]
        exact all.1
      have below := Nat.mod_lt (number rest) (Nat.two_pow_pos shift)
      have joined : digit >>> shift ||| (shiftRightDigits shift rest).2 =
          digit / 2 ^ shift + number rest % 2 ^ shift * 2 ^ (32 - shift) := by
        rw [carry, Nat.shiftRight_eq_div_pow, Nat.or_comm, Nat.mul_comm,
          ← Nat.two_pow_add_eq_or_of_lt small, Nat.add_comm]
      have head : digit >>> shift ||| (shiftRightDigits shift rest).2 < 2 ^ 32 := by
        have room := Nat.mul_le_mul_right (2 ^ (32 - shift)) (Nat.succ_le_of_lt below)
        rw [joined, base]
        rw [Nat.succ_mul] at room
        omega
      refine ⟨congrArg Nat.succ length, digits_cons.mpr ⟨head, digits⟩, ?_, ?_⟩
      · simp only [shiftRightDigits, number_cons, joined, value]
        have split := Nat.mod_add_div (number rest) (2 ^ shift)
        have whole : digit + 2 ^ 32 * number rest =
            digit + 2 ^ shift * (number rest % 2 ^ shift * 2 ^ (32 - shift) +
              2 ^ 32 * (number rest / 2 ^ shift)) := by
          rw [base]
          linear_combination 2 ^ shift * 2 ^ (32 - shift) * split.symm
        rw [whole, Nat.add_mul_div_left _ _ (Nat.two_pow_pos shift), Nat.add_assoc]
      · simp only [shiftRightDigits, number_cons, u32, Nat.shiftLeft_eq]
        rw [base, Nat.mul_mod_mul_right, Nat.mul_assoc, Nat.add_mul_mod_self_left]

/-! ### One digit of the quotient -/

private theorem tooLarge_iff {qp rp u0 v2 : Nat} (guessed : qp ≤ 2 ^ 32 + 1) (rest : rp < 2 ^ 32)
    (isU : u0 < 2 ^ 32) (isV : v2 < 2 ^ 32) :
    (qp = 2 ^ 32 ∨ u64 (qp * v2) > u64 (2 ^ 32 * rp + u0)) ↔ TooLarge (2 ^ 32) u0 v2 qp rp := by
  have product : qp * v2 ≤ (2 ^ 32 + 1) * (2 ^ 32 - 1) :=
    Nat.mul_le_mul guessed (Nat.le_sub_one_of_lt isV)
  have left : u64 (qp * v2) = qp * v2 := Nat.mod_eq_of_lt (by omega)
  have right : u64 (2 ^ 32 * rp + u0) = 2 ^ 32 * rp + u0 := Nat.mod_eq_of_lt (by omega)
  rw [left, right, TooLarge]

theorem trialDigit_spec {scale dividend divisor u2 u1 u0 v1 v2 : Nat}
    (window : Window (2 ^ 32) scale dividend divisor u2 u1 u0 v1 v2) :
    dividend / divisor ≤ trialDigit u2 u1 u0 v1 v2 ∧
      trialDigit u2 u1 u0 v1 v2 ≤ dividend / divisor + 1 ∧ trialDigit u2 u1 u0 v1 v2 < 2 ^ 32 := by
  have guess : Guess (2 ^ 32) u2 u1 v1 (Make_64 u2 u1 / v1) (Make_64 u2 u1 % v1) :=
    Nat.div_add_mod' (Make_64 u2 u1) v1
  have rest := Nat.mod_lt (Make_64 u2 u1) window.v1_pos
  have guessed := (window.guess_le guess).1
  have first := tooLarge_iff guessed (rest.trans window.v1_lt) window.u0_lt window.v2_lt
  have second : ∀ rp, (rp < 2 ^ 32 ∧ (Make_64 u2 u1 / v1 - 1 = 2 ^ 32 ∨
      u64 ((Make_64 u2 u1 / v1 - 1) * v2) > u64 (2 ^ 32 * rp + u0))) ↔
        (rp < 2 ^ 32 ∧ TooLarge (2 ^ 32) u0 v2 (Make_64 u2 u1 / v1 - 1) rp) := by
    intro rp
    apply and_congr_right
    intro small
    exact tooLarge_iff (by omega) small window.u0_lt window.v2_lt
  apply window.trial guess rest
  · intro fits
    exact if_neg (mt first.mp fits)
  · intro large fits
    exact (if_pos (first.mpr large)).trans (if_neg (mt (second _).mp fits))
  · intro large small again
    exact (if_pos (first.mpr large)).trans (if_pos ((second _).mpr ⟨small, again⟩))

private theorem number_two_leading {count : Nat} (length : digits.length = count + 2) :
    number digits = number (digits.take count) +
      (2 ^ 32) ^ count * (digits.getD count 0 + 2 ^ 32 * digits.getD (count + 1) 0) := by
  have last : digits.drop count = [digits.getD count 0, digits.getD (count + 1) 0] := by
    rw [drop_eq_getElem_cons (by omega), drop_eq_getElem_cons (by omega),
      drop_eq_nil_of_le (by omega), getD_eq_getElem _ _ (by omega),
      getD_eq_getElem _ _ (by omega)]
  conv_lhs => rw [← take_append_drop count digits]
  rw [number_append, last, number_cons, number_singleton, length_take,
    Nat.min_eq_left (by omega)]

private theorem eq_of_parts {base left right high other : Nat} (isLeft : left < base)
    (isRight : right < base) (same : left + base * high = right + base * other) :
    left = right ∧ high = other := by
  have positive : 0 < base := Nat.zero_lt_of_lt isLeft
  have parts := congrArg (· / base) same
  simp only [Nat.add_mul_div_left _ _ positive, Nat.div_eq_of_lt isLeft, Nat.div_eq_of_lt isRight,
    Nat.zero_add] at parts
  rw [parts] at same
  exact ⟨Nat.add_right_cancel same, parts⟩

section Step

variable {u v : List Nat} {n j : Nat}

private theorem getD_window {index : Nat} (inside : index < n) :
    ((u.drop j).take n).getD index 0 = u.getD (j + index) 0 := by
  rw [getD_eq_getElem?_getD, getD_eq_getElem?_getD, getElem?_take_of_lt inside,
    getElem?_drop]

theorem window_of_digits (two : 2 ≤ n) (inU : Digits u) (inV : Digits v) (long : j + n < u.length)
    (length : v.length = n) (normal : 2 ^ 32 ≤ 2 * v.getD (n - 1) 0)
    (below : number ((u.drop j).take n) + (2 ^ 32) ^ n * u.getD (j + n) 0 < 2 ^ 32 * number v) :
    Window (2 ^ 32) ((2 ^ 32) ^ (n - 2))
      (number ((u.drop j).take n) + (2 ^ 32) ^ n * u.getD (j + n) 0) (number v)
      (u.getD (j + n) 0) (u.getD (j + n - 1) 0) (u.getD (j + n - 2) 0) (v.getD (n - 1) 0)
      (v.getD (n - 2) 0) := by
  obtain ⟨count, rfl⟩ := Nat.exists_eq_add_of_le' two
  have lengthU : ((u.drop j).take (count + 2)).length = count + 2 := by
    rw [length_take, length_drop]
    omega
  have ofU := number_two_leading lengthU
  have ofV := number_two_leading length
  have lowU := (((inU.drop j).take (count + 2)).take count).number_lt
  have lowV := (inV.take count).number_lt
  rw [getD_window (by omega), getD_window (by omega)] at ofU
  rw [length_take, lengthU, Nat.min_eq_left (by omega)] at lowU
  rw [length_take, length, Nat.min_eq_left (by omega)] at lowV
  have dividend : number ((u.drop j).take (count + 2)) + (2 ^ 32) ^ (count + 2) * u.getD (j + (count + 2)) 0 =
      ((u.getD (j + (count + 2)) 0 * 2 ^ 32 + u.getD (j + (count + 1)) 0) * 2 ^ 32 +
        u.getD (j + count) 0) * (2 ^ 32) ^ count + number (((u.drop j).take (count + 2)).take count) := by
    rw [ofU, pow_succ, pow_succ]
    ring
  have divisor : number v = (v.getD (count + 1) 0 * 2 ^ 32 + v.getD count 0) * (2 ^ 32) ^ count +
      number (v.take count) := by
    rw [ofV]
    ring
  constructor
  · exact below
  · rw [dividend]
    exact Nat.le_add_right _ _
  · rw [dividend, Nat.add_one_mul]
    exact Nat.add_lt_add_left lowU _
  · rw [divisor]
    exact Nat.le_add_right _ _
  · rw [divisor, Nat.add_one_mul]
    exact Nat.add_lt_add_left lowV _
  · exact inU.getD_lt _
  · exact inU.getD_lt _
  · exact inV.getD_lt _
  · exact inV.getD_lt _
  · exact normal

structure Divided (u v : List Nat) (n j : Nat) (result : List Nat × Nat) (rest : List Nat) : Prop where
  left : result.1 = u.take j ++ (rest ++ u.drop (j + n + 1))
  length : rest.length = n + 1
  digits : Digits rest
  remainder : number rest =
    (number ((u.drop j).take n) + (2 ^ 32) ^ n * u.getD (j + n) 0) % number v
  digit : result.2 = (number ((u.drop j).take n) + (2 ^ 32) ^ n * u.getD (j + n) 0) / number v

section Subtraction

variable {base low top borrow sub qp divisor : Nat}
  (subtraction : sub + qp * divisor = low + base * borrow)

include subtraction

private theorem digit_of_no_borrow (positive : 0 < divisor) (atLeast : (low + base * top) / divisor ≤ qp)
    (isNeg : ¬ top < borrow) :
    qp = (low + base * top) / divisor ∧ sub + base * (top - borrow) = (low + base * top) % divisor := by
  obtain ⟨more, rfl⟩ := Nat.exists_eq_add_of_le (Nat.le_of_not_lt isNeg)
  have whole : low + base * (borrow + more) = sub + base * more + qp * divisor := by
    linear_combination subtraction.symm
  have reached : qp ≤ (low + base * (borrow + more)) / divisor := by
    rw [Nat.le_div_iff_mul_le positive, whole]
    exact Nat.le_add_left _ _
  have same : qp = (low + base * (borrow + more)) / divisor := Nat.le_antisymm reached atLeast
  refine ⟨same, ?_⟩
  have parts := Nat.mod_add_div (low + base * (borrow + more)) divisor
  rw [← same, Nat.mul_comm divisor] at parts
  rw [Nat.add_sub_cancel_left]
  omega

private theorem digit_of_borrow (isSub : sub < base) (atMost : qp ≤ (low + base * top) / divisor + 1)
    (isNeg : top < borrow) :
    qp = (low + base * top) / divisor + 1 ∧
      sub + divisor = (low + base * top) % divisor + base * (borrow - top) := by
  obtain ⟨less, rfl⟩ := Nat.exists_eq_add_of_lt isNeg
  have whole : low + base * top + base * less + base = sub + qp * divisor := by
    linear_combination subtraction.symm
  have above : (low + base * top) / divisor < qp := by
    apply Nat.div_lt_of_lt_mul
    rw [Nat.mul_comm divisor]
    omega
  have same : qp = (low + base * top) / divisor + 1 := Nat.le_antisymm atMost above
  refine ⟨same, ?_⟩
  have parts := Nat.mod_add_div (low + base * top) divisor
  have product : qp * divisor = divisor * ((low + base * top) / divisor) + divisor := by
    rw [same]
    ring
  rw [show top + less + 1 - top = less + 1 by omega, Nat.mul_succ]
  omega

end Subtraction

theorem divideDigit_spec (two : 2 ≤ n) (inU : Digits u) (inV : Digits v) (long : j + n < u.length)
    (length : v.length = n) (normal : 2 ^ 32 ≤ 2 * v.getD (n - 1) 0)
    (below : number ((u.drop j).take n) + (2 ^ 32) ^ n * u.getD (j + n) 0 < 2 ^ 32 * number v) :
    ∃ rest, Divided u v n j (divideDigit v n u j) rest := by
  have window := window_of_digits two inU inV long length normal below
  obtain ⟨atLeast, atMost, isDigit⟩ := trialDigit_spec window
  have inLow := (inU.drop j).take n
  have lengthLow : ((u.drop j).take n).length = n := by
    rw [length_take, length_drop]
    omega
  have isTop := inU.getD_lt (j + n)
  have divisorBound := inV.number_lt
  rw [length] at divisorBound
  unfold divideDigit
  simp only [take_of_length_le length.le]
  generalize trialDigit _ _ _ _ _ = qp at *
  obtain ⟨lengthSub, inSub, isBorrow, subtraction⟩ := multiplyAndSubtract_spec isDigit
    (lengthLow.trans length.symm) inLow inV (by decide : 0 < 2 ^ 32)
  rw [Nat.add_zero, lengthLow] at subtraction
  rw [lengthLow] at lengthSub
  have lowBound := inSub.number_lt
  rw [lengthSub] at lowBound
  generalize multiplyAndSubtract qp ((u.drop j).take n) v 0 = subtracted at *
  have lowDigit : Lo_32 qp = qp := by
    simp only [Lo_32]
    omega
  by_cases isNeg : u.getD (j + n) 0 < subtracted.2
  · obtain ⟨one, added⟩ := digit_of_borrow subtraction lowBound atMost isNeg
    obtain ⟨lengthAdd, inAdd, addition⟩ := addBack_spec (lengthSub.trans length.symm) inSub inV
    have addBound := inAdd.number_lt
    rw [lengthAdd, lengthSub] at addBound
    rw [lengthSub, added, Bool.toNat_false, Nat.add_zero] at addition
    rw [lengthSub] at lengthAdd
    have remains := Nat.mod_lt (number ((u.drop j).take n) + (2 ^ 32) ^ n * u.getD (j + n) 0)
      window.divisor_pos
    -- the carry is what was borrowed, so the top digit is zero again
    obtain ⟨same, carried⟩ := eq_of_parts addBound (remains.trans divisorBound) addition
    have zero : u32 (Lo_32 ((u.getD (j + n) 0 : Int) - subtracted.2) +
        (addBack subtracted.1 v false).2.toNat) = 0 := by
      have bit := Bool.toNat_le (addBack subtracted.1 v false).2
      rw [carried] at bit ⊢
      simp only [u32, Lo_32]
      omega
    rw [if_pos isNeg, zero]
    refine ⟨(addBack subtracted.1 v false).1 ++ [0], ?_, ?_, ?_, ?_, ?_⟩
    · rw [List.append_assoc, singleton_append]
    · rw [length_append, lengthAdd]
      rfl
    · exact digits_append.mpr ⟨inAdd, digits_cons.mpr ⟨by decide, digits_nil⟩⟩
    · rw [number_append, number_singleton, same, Nat.mul_zero, Nat.add_zero]
    · have some : 0 < qp := one ▸ Nat.succ_pos _
      have less : Lo_32 ((Lo_32 qp : Int) - 1) = qp - 1 := by
        rw [lowDigit]
        simp only [Lo_32]
        omega
      exact less.trans (Nat.sub_eq_of_eq_add one)
  · obtain ⟨one, remains⟩ := digit_of_no_borrow subtraction window.divisor_pos atLeast isNeg
    have top : Lo_32 ((u.getD (j + n) 0 : Int) - subtracted.2) = u.getD (j + n) 0 - subtracted.2 := by
      simp only [Lo_32]
      omega
    rw [if_neg isNeg, top]
    refine ⟨subtracted.1 ++ [u.getD (j + n) 0 - subtracted.2], ?_, ?_, ?_, ?_, ?_⟩
    · rw [List.append_assoc, singleton_append]
    · rw [length_append, lengthSub]
      rfl
    · exact digits_append.mpr ⟨inSub, digits_cons.mpr ⟨by omega, digits_nil⟩⟩
    · rw [number_append, number_singleton, lengthSub, remains]
    · exact lowDigit.trans one

/-! ### All digits of the quotient -/

theorem number_take_succ (long : n < u.length) :
    number (u.take (n + 1)) = number (u.take n) + (2 ^ 32) ^ n * u.getD n 0 := by
  rw [take_succ_eq_append_getElem long, number_append, number_singleton,
    getD_eq_getElem _ _ long, length_take, Nat.min_eq_left long.le]

private theorem number_take_window (long : j + n < u.length) :
    number (u.take (j + n + 1)) = number (u.take j) +
      (2 ^ 32) ^ j * (number ((u.drop j).take n) + (2 ^ 32) ^ n * u.getD (j + n) 0) := by
  rw [number_take_succ long, take_add, number_append, length_take,
    Nat.min_eq_left (by omega), pow_add]
  ring

theorem Divided.number_take {result : List Nat × Nat} {rest : List Nat}
    (divided : Divided u v n j result rest) (inV : Digits v) (length : v.length = n)
    (positive : 0 < number v) : number (rest.take n) = number rest := by
  have parts := number_take_succ (u := rest) (n := n) (by have := divided.length; omega)
  rw [take_of_length_le divided.length.le] at parts
  have bound := inV.number_lt
  rw [length] at bound
  have small : number rest < (2 ^ 32) ^ n := by
    rw [divided.remainder]
    exact (Nat.mod_lt _ positive).trans bound
  have zero : rest.getD n 0 = 0 := by
    by_contra some
    have large := Nat.le_mul_of_pos_right ((2 ^ 32) ^ n) (Nat.pos_of_ne_zero some)
    omega
  rw [parts, zero, Nat.mul_zero, Nat.add_zero]

structure StepsDown (u v : List Nat) (n j : Nat) (result : List Nat × Nat) : Prop where
  length : result.1.length = u.length
  digits : Digits result.1
  digit_lt : result.2 < 2 ^ 32
  whole : number (u.take (j + n + 1)) =
    number (result.1.take (j + n)) + number v * ((2 ^ 32) ^ j * result.2)
  below : number (result.1.take (j + n)) < (2 ^ 32) ^ j * number v

theorem divideDigit_stepsDown (two : 2 ≤ n) (inU : Digits u) (inV : Digits v) (long : j + n < u.length)
    (length : v.length = n) (normal : 2 ^ 32 ≤ 2 * v.getD (n - 1) 0)
    (below : number (u.take (j + n + 1)) < (2 ^ 32) ^ (j + 1) * number v) :
    StepsDown u v n j (divideDigit v n u j) := by
  rw [number_take_window long] at below
  have small : number ((u.drop j).take n) + (2 ^ 32) ^ n * u.getD (j + n) 0 < 2 ^ 32 * number v := by
    rw [pow_succ (2 ^ 32) j, Nat.mul_assoc] at below
    exact Nat.lt_of_mul_lt_mul_left (Nat.lt_of_le_of_lt (Nat.le_add_left _ _) below)
  have positive : 0 < number v := by
    by_contra zero
    rw [Nat.eq_zero_of_not_pos zero, Nat.mul_zero] at small
    exact Nat.not_lt_zero _ small
  obtain ⟨rest, divided⟩ := divideDigit_spec two inU inV long length normal small
  have lengthLow : (u.take j).length = j := by
    rw [length_take]
    omega
  have taken : (divideDigit v n u j).1.take (j + n) = u.take j ++ rest.take n := by
    rw [divided.left, take_append, lengthLow, Nat.add_sub_cancel_left,
      take_of_length_le (by omega), take_append_of_le_length (by have := divided.length; omega)]
  have value : number ((divideDigit v n u j).1.take (j + n)) = number (u.take j) + (2 ^ 32) ^ j *
      ((number ((u.drop j).take n) + (2 ^ 32) ^ n * u.getD (j + n) 0) % number v) := by
    rw [taken, number_append, lengthLow, divided.number_take inV length positive, divided.remainder]
  constructor
  · rw [divided.left, length_append, length_append, lengthLow, divided.length,
      length_drop]
    omega
  · rw [divided.left]
    exact digits_append.mpr ⟨inU.take j, digits_append.mpr ⟨divided.digits, inU.drop _⟩⟩
  · rw [divided.digit]
    apply Nat.div_lt_of_lt_mul
    rw [Nat.mul_comm (number v)]
    exact small
  · rw [value, divided.digit, number_take_window long]
    have parts := Nat.mod_add_div
      (number ((u.drop j).take n) + (2 ^ 32) ^ n * u.getD (j + n) 0) (number v)
    linear_combination (2 ^ 32) ^ j * parts.symm
  · rw [value]
    have low := (inU.take j).number_lt
    rw [lengthLow] at low
    have remains := Nat.mod_lt
      (number ((u.drop j).take n) + (2 ^ 32) ^ n * u.getD (j + n) 0) positive
    have room := Nat.mul_le_mul_left ((2 ^ 32) ^ j) (Nat.succ_le_of_lt remains)
    rw [Nat.mul_succ] at room
    omega

structure DividedDown (u v q : List Nat) (n j : Nat) (result : List Nat × List Nat) : Prop where
  lengthU : result.1.length = u.length
  digitsU : Digits result.1
  remainder : number (result.1.take n) = number (u.take (j + n + 1)) % number v
  lengthQ : result.2.length = q.length
  digitsQ : Digits (result.2.take (j + 1))
  quotient : number (result.2.take (j + 1)) = number (u.take (j + n + 1)) / number v
  others : result.2.drop (j + 1) = q.drop (j + 1)

theorem divideDigits_spec {q : List Nat} (two : 2 ≤ n) (inU : Digits u) (inV : Digits v)
    (long : j + n < u.length) (length : v.length = n) (normal : 2 ^ 32 ≤ 2 * v.getD (n - 1) 0)
    (below : number (u.take (j + n + 1)) < (2 ^ 32) ^ (j + 1) * number v) (room : j < q.length) :
    DividedDown u v q n j (divideDigits v n j u q) := by
  have positive : 0 < number v := by
    by_contra zero
    rw [Nat.eq_zero_of_not_pos zero, Nat.mul_zero] at below
    exact Nat.not_lt_zero _ below
  induction j generalizing u q with
  | zero =>
      have step := divideDigit_stepsDown two inU inV long length normal below
      have whole := step.whole
      have small := step.below
      rw [pow_zero, Nat.one_mul] at whole small
      rw [Nat.zero_add] at whole small
      rw [divideDigits]
      cases q with
      | nil => cases room
      | cons first q =>
          refine ⟨step.length, step.digits, ?_, rfl, digits_cons.mpr ⟨step.digit_lt, digits_nil⟩, ?_, rfl⟩
          · rw [Nat.zero_add, whole, Nat.add_mul_mod_self_left, Nat.mod_eq_of_lt small]
          · change number [(divideDigit v n u 0).2] = _
            rw [number_singleton, Nat.zero_add, whole, Nat.add_mul_div_left _ _ positive,
              Nat.div_eq_of_lt small, Nat.zero_add]
  | succ j ih =>
      have step := divideDigit_stepsDown two inU inV long length normal below
      have small := step.below
      have shifted : j + 1 + n = j + n + 1 := by omega
      have whole := step.whole
      rw [shifted] at small whole
      have down := ih (q := q.set (j + 1) (divideDigit v n u (j + 1)).2) step.digits
        (by rw [step.length]; omega) small (by rw [length_set]; omega)
      rw [divideDigits]
      have placed : (divideDigits v n j (divideDigit v n u (j + 1)).1
          (q.set (j + 1) (divideDigit v n u (j + 1)).2)).2.drop (j + 1) =
            (divideDigit v n u (j + 1)).2 :: q.drop (j + 2) := by
        rw [down.others, drop_set, if_neg (Nat.lt_irrefl _), Nat.sub_self,
          drop_eq_getElem_cons room]
        rfl
      have taken : (divideDigits v n j (divideDigit v n u (j + 1)).1
          (q.set (j + 1) (divideDigit v n u (j + 1)).2)).2.take (j + 2) =
            (divideDigits v n j (divideDigit v n u (j + 1)).1
              (q.set (j + 1) (divideDigit v n u (j + 1)).2)).2.take (j + 1) ++
                [(divideDigit v n u (j + 1)).2] := by
        rw [take_add (j := 1), placed]
        rfl
      constructor
      · exact down.lengthU.trans step.length
      · exact down.digitsU
      · rw [down.remainder, shifted, whole, Nat.add_mul_mod_self_left]
      · exact down.lengthQ.trans length_set
      · rw [taken]
        exact digits_append.mpr ⟨down.digitsQ, digits_cons.mpr ⟨step.digit_lt, digits_nil⟩⟩
      · have lengthTaken : ((divideDigits v n j (divideDigit v n u (j + 1)).1
            (q.set (j + 1) (divideDigit v n u (j + 1)).2)).2.take (j + 1)).length = j + 1 := by
          rw [length_take, down.lengthQ, length_set]
          omega
        rw [taken, number_append, lengthTaken, down.quotient, shifted, whole,
          Nat.add_mul_div_left _ _ positive, number_singleton]
      · have behind := congrArg (List.drop 1) placed
        rw [drop_drop] at behind
        exact behind

end Step

/-! ### The whole algorithm -/

theorem shift_spec {leading : Nat} (some : leading ≠ 0) (isDigit : leading < 2 ^ 32) :
    countLeadingZeros (BitVec.ofNat 32 leading) ≤ 32 ∧
      2 ^ 31 ≤ leading * 2 ^ countLeadingZeros (BitVec.ofNat 32 leading) ∧
      (leading + 1) * 2 ^ countLeadingZeros (BitVec.ofNat 32 leading) ≤ 2 ^ 32 := by
  have value : (BitVec.ofNat 32 leading).toNat = leading := by
    rw [BitVec.toNat_ofNat, Nat.mod_eq_of_lt isDigit]
  have atMost : ∀ bits, getActiveBits (BitVec.ofNat 32 leading) ≤ bits ↔ leading < 2 ^ bits := by
    intro bits
    rw [getActiveBits_le_iff, value]
  have bits := (atMost 32).mpr isDigit
  unfold countLeadingZeros
  generalize getActiveBits (BitVec.ofNat 32 leading) = active at *
  have upper := (atMost active).mp (Nat.le_refl _)
  cases active with
  | zero => omega
  | succ less =>
      have lower : 2 ^ less ≤ leading := Nat.le_of_not_lt (mt (atMost less).mpr (by omega))
      have high : 2 ^ 31 = 2 ^ less * 2 ^ (32 - (less + 1)) := by
        rw [← pow_add]
        congr 1
        omega
      have full : 2 ^ 32 = 2 ^ (less + 1) * 2 ^ (32 - (less + 1)) := by
        rw [← pow_add]
        congr 1
        omega
      refine ⟨Nat.sub_le _ _, ?_, ?_⟩
      · rw [high]
        exact Nat.mul_le_mul_right _ lower
      · rw [full]
        exact Nat.mul_le_mul_right _ upper

theorem normalized_spec (short : shift ≤ 32) (all : Digits digits) :
    let shifted := if shift ≠ 0 then shiftLeftDigits shift digits 0 else (digits, 0)
    shifted.1.length = digits.length ∧ Digits shifted.1 ∧ shifted.2 < 2 ^ 32 ∧
      number shifted.1 + (2 ^ 32) ^ digits.length * shifted.2 = number digits * 2 ^ shift := by
  by_cases zero : shift = 0
  · rw [if_neg (not_not.mpr zero), zero]
    exact ⟨rfl, all, Nat.two_pow_pos 32, by simp⟩
  · rw [if_pos zero]
    obtain ⟨length, isDigits, carry, equation⟩ :=
      shiftLeftDigits_spec short (Nat.two_pow_pos shift) all
    exact ⟨length, isDigits, carry.trans_le (Nat.pow_le_pow_right (by decide) short), equation⟩

theorem unnormalized_spec {value : Nat} (short : shift ≤ 32) (all : Digits digits)
    (scaled : number digits = value * 2 ^ shift) :
    let shifted := if shift ≠ 0 then (shiftRightDigits shift digits).1 else digits
    shifted.length = digits.length ∧ Digits shifted ∧ number shifted = value := by
  by_cases zero : shift = 0
  · rw [if_neg (not_not.mpr zero)]
    refine ⟨rfl, all, ?_⟩
    rw [scaled, zero, pow_zero, Nat.mul_one]
  · rw [if_pos zero]
    obtain ⟨length, isDigits, shifted, _⟩ := shiftRightDigits_spec short all
    refine ⟨length, isDigits, ?_⟩
    rw [shifted, scaled, Nat.mul_div_cancel _ (Nat.two_pow_pos shift)]

structure Quotient (u v q r : List Nat) (m n : Nat) (result : List Nat × List Nat) : Prop where
  length : result.1.length = q.length
  digits : Digits (result.1.take (m + 1))
  quotient : number (result.1.take (m + 1)) = number (u.take (m + n)) / number (v.take n)
  others : result.1.drop (m + 1) = q.drop (m + 1)
  remainder : ∃ rest, result.2 = rest ++ r.drop n ∧ rest.length = n ∧ Digits rest ∧
    number rest = number (u.take (m + n)) % number (v.take n)

section Whole

variable {u v q r : List Nat} {m n : Nat}

private theorem leading_bounds (inV : Digits v) (length : v.length = n + 1) :
    v.getD n 0 * (2 ^ 32) ^ n ≤ number v ∧ number v < (v.getD n 0 + 1) * (2 ^ 32) ^ n := by
  have parts := number_take_succ (u := v) (n := n) (by omega)
  rw [take_of_length_le length.le] at parts
  have low := (inV.take n).number_lt
  rw [length_take, Nat.min_eq_left (by omega)] at low
  rw [parts, Nat.add_one_mul, Nat.mul_comm (v.getD n 0)]
  omega

theorem KnuthDiv_spec (two : 2 ≤ n) (inU : Digits u) (inV : Digits v) (longU : m + n < u.length)
    (longV : n ≤ v.length) (leading : v.getD (n - 1) 0 ≠ 0) (room : m < q.length) :
    Quotient u v q r m n (KnuthDiv u v q r m n) := by
  obtain ⟨count, rfl⟩ := Nat.exists_eq_add_of_le' (Nat.le_of_succ_le two)
  rw [Nat.add_sub_cancel] at leading
  obtain ⟨short, high, full⟩ := shift_spec leading (inV.getD_lt count)
  have lengthV : (v.take (count + 1)).length = count + 1 := by
    rw [length_take]
    omega
  have lengthU : (u.take (m + (count + 1))).length = m + (count + 1) := by
    rw [length_take]
    omega
  have leadingV : (v.take (count + 1)).getD count 0 = v.getD count 0 := by
    rw [getD_eq_getElem?_getD, getD_eq_getElem?_getD,
      getElem?_take_of_lt (Nat.lt_succ_self _)]
  obtain ⟨divisorLow, divisorHigh⟩ := leading_bounds (inV.take (count + 1)) lengthV
  rw [leadingV] at divisorLow divisorHigh
  have dividendBound := (inU.take (m + (count + 1))).number_lt
  rw [lengthU] at dividendBound
  unfold KnuthDiv
  rw [Nat.add_sub_cancel]
  generalize countLeadingZeros (BitVec.ofNat 32 (v.getD count 0)) = shift at *
  have project : (if shift ≠ 0 then (shiftLeftDigits shift (v.take (count + 1)) 0).1
      else v.take (count + 1)) = (if shift ≠ 0 then shiftLeftDigits shift (v.take (count + 1)) 0
        else (v.take (count + 1), 0)).1 := by
    split <;> rfl
  simp only [project]
  obtain ⟨lengthDividend, inDividend, isCarry, dividend⟩ :=
    normalized_spec short (inU.take (m + (count + 1)))
  obtain ⟨lengthDivisor, inDivisor, _, divisor⟩ := normalized_spec short (inV.take (count + 1))
  generalize (if shift ≠ 0 then shiftLeftDigits shift (u.take (m + (count + 1))) 0
    else (u.take (m + (count + 1)), 0)) = shiftedU at *
  generalize (if shift ≠ 0 then shiftLeftDigits shift (v.take (count + 1)) 0
    else (v.take (count + 1), 0)) = shiftedV at *
  rw [lengthU] at lengthDividend dividend
  rw [lengthV] at lengthDivisor divisor
  -- nothing is shifted out of the divisor, and its leading digit is normal
  have fits : number (v.take (count + 1)) * 2 ^ shift < (2 ^ 32) ^ (count + 1) := by
    calc number (v.take (count + 1)) * 2 ^ shift
        < (v.getD count 0 + 1) * (2 ^ 32) ^ count * 2 ^ shift :=
          Nat.mul_lt_mul_of_pos_right divisorHigh (Nat.two_pow_pos shift)
      _ = (v.getD count 0 + 1) * 2 ^ shift * (2 ^ 32) ^ count := by ring
      _ ≤ 2 ^ 32 * (2 ^ 32) ^ count := Nat.mul_le_mul_right _ full
      _ = (2 ^ 32) ^ (count + 1) := (pow_succ' _ _).symm
  have boundV := inDivisor.number_lt
  rw [lengthDivisor] at boundV
  have scaledV : number shiftedV.1 = number (v.take (count + 1)) * 2 ^ shift := by
    rw [← Nat.add_zero (number (v.take (count + 1)) * 2 ^ shift),
      ← Nat.mul_zero ((2 ^ 32) ^ (count + 1))] at divisor
    exact (eq_of_parts boundV fits divisor).1
  have normal : 2 ^ 32 ≤ 2 * shiftedV.1.getD count 0 := by
    have upper := (leading_bounds inDivisor lengthDivisor).2
    have chain : v.getD count 0 * 2 ^ shift * (2 ^ 32) ^ count <
        (shiftedV.1.getD count 0 + 1) * (2 ^ 32) ^ count := by
      calc v.getD count 0 * 2 ^ shift * (2 ^ 32) ^ count
          = v.getD count 0 * (2 ^ 32) ^ count * 2 ^ shift := by ring
        _ ≤ number (v.take (count + 1)) * 2 ^ shift := Nat.mul_le_mul_right _ divisorLow
        _ = number shiftedV.1 := scaledV.symm
        _ < (shiftedV.1.getD count 0 + 1) * (2 ^ 32) ^ count := upper
    have leads := Nat.lt_of_mul_lt_mul_right chain
    omega
  have inShifted : Digits (shiftedU.1 ++ shiftedU.2 :: u.drop (m + (count + 1) + 1)) :=
    digits_append.mpr ⟨inDividend, digits_cons.mpr ⟨isCarry, inU.drop _⟩⟩
  have long : m + (count + 1) < (shiftedU.1 ++ shiftedU.2 :: u.drop (m + (count + 1) + 1)).length := by
    rw [length_append, length_cons, lengthDividend]
    omega
  have value : number ((shiftedU.1 ++ shiftedU.2 :: u.drop (m + (count + 1) + 1)).take
      (m + (count + 1) + 1)) = number (u.take (m + (count + 1))) * 2 ^ shift := by
    rw [← lengthDividend, take_length_add_append, take_succ_cons, take_zero,
      number_append, number_singleton, lengthDividend, dividend]
  have below : number ((shiftedU.1 ++ shiftedU.2 :: u.drop (m + (count + 1) + 1)).take
      (m + (count + 1) + 1)) < (2 ^ 32) ^ (m + 1) * number shiftedV.1 := by
    rw [value, scaledV, ← Nat.mul_assoc]
    apply Nat.mul_lt_mul_of_pos_right _ (Nat.two_pow_pos shift)
    calc number (u.take (m + (count + 1))) < (2 ^ 32) ^ (m + (count + 1)) := dividendBound
      _ = (2 ^ 32) ^ (m + 1) * (1 * (2 ^ 32) ^ count) := by
          rw [Nat.one_mul, ← pow_add]
          congr 1
          omega
      _ ≤ (2 ^ 32) ^ (m + 1) * (v.getD count 0 * (2 ^ 32) ^ count) :=
          Nat.mul_le_mul_left _ (Nat.mul_le_mul_right _ (Nat.pos_of_ne_zero leading))
      _ ≤ (2 ^ 32) ^ (m + 1) * number (v.take (count + 1)) := Nat.mul_le_mul_left _ divisorLow
  have down := divideDigits_spec two inShifted inDivisor long lengthDivisor normal below room
  have remains := down.remainder
  rw [value, scaledV, Nat.mul_mod_mul_right] at remains
  obtain ⟨lengthR, digitsR, valueR⟩ := unnormalized_spec short (down.digitsU.take (count + 1)) remains
  refine ⟨down.lengthQ, down.digitsQ, ?_, down.others, _, rfl, ?_, digitsR, valueR⟩
  · rw [down.quotient, value, scaledV, Nat.mul_div_mul_right _ _ (Nat.two_pow_pos shift)]
  · rw [lengthR, length_take, down.lengthU]
    omega

end Whole

end EvmBackend.APInt
