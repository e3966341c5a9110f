/-
Division of words: the operands are cut into digits, the zeros above them are
dropped, and the digits of the result are put together again.
-/

import EvmBackend.APInt.KnuthDiv

namespace EvmBackend.APInt

open List

def Words (words : List Nat) : Prop := ∀ word ∈ words, word < 2 ^ 64

def wordsNumber (words : List Nat) : Nat := Nat.ofDigits (2 ^ 64) words

theorem wordsNumber_cons (word : Nat) (words : List Nat) :
    wordsNumber (word :: words) = word + 2 ^ 64 * wordsNumber words := Nat.ofDigits_cons

theorem Lo_32_of_lt {value : Nat} (small : value < 2 ^ 32) : Lo_32 value = value := by
  simp only [Lo_32]
  omega

theorem digitsOfWords_spec {words : List Nat} (all : Words words) :
    (digitsOfWords words).length = words.length * 2 ∧ Digits (digitsOfWords words) ∧
      number (digitsOfWords words) = wordsNumber words := by
  induction words with
  | nil => exact ⟨rfl, digits_nil, rfl⟩
  | cons word words ih =>
      obtain ⟨isWord, areWords⟩ := forall_mem_cons.mp all
      obtain ⟨length, digits, value⟩ := ih areWords
      have low : Lo_32 word = word % 2 ^ 32 := by
        simp only [Lo_32]
        omega
      have high : Hi_32 word = word / 2 ^ 32 := by
        simp only [Hi_32]
        omega
      have unfolded : digitsOfWords (word :: words) =
          word % 2 ^ 32 :: word / 2 ^ 32 :: digitsOfWords words := by
        rw [← low, ← high]
        rfl
      rw [unfolded]
      refine ⟨?_, digits_cons.mpr ⟨by omega, digits_cons.mpr ⟨by omega, digits⟩⟩, ?_⟩
      · rw [length_cons, length_cons, length_cons, length]
        omega
      · rw [number_cons, number_cons, wordsNumber_cons, value]
        omega

variable {digits : List Nat} {count : Nat}

theorem wordsOfDigits_spec (length : digits.length = count * 2) (all : Digits digits) :
    (wordsOfDigits count digits).length = count ∧ Words (wordsOfDigits count digits) ∧
      wordsNumber (wordsOfDigits count digits) = number digits := by
  induction count generalizing digits with
  | zero =>
      obtain rfl := length_eq_zero_iff.mp length
      exact ⟨rfl, fun _ absent => (by cases absent), rfl⟩
  | succ count ih =>
      rcases digits with _ | ⟨low, _ | ⟨high, digits⟩⟩
      · cases length
      · rw [length_singleton] at length
        omega
      · rw [digits_cons, digits_cons] at all
        rw [length_cons, length_cons] at length
        obtain ⟨words, areWords, value⟩ := ih (by omega : digits.length = count * 2) all.2.2
        have unfolded : wordsOfDigits (count + 1) (low :: high :: digits) =
            Make_64 high low :: wordsOfDigits count digits := by
          unfold wordsOfDigits
          rw [range_succ_eq_map, map_cons, List.map_map]
          apply congrArg₂ List.cons (congrArg₂ Make_64 rfl rfl)
          apply map_congr_left
          intro index _
          have odd : (index + 1) * 2 + 1 = index * 2 + 1 + 1 + 1 := by omega
          have even : (index + 1) * 2 = index * 2 + 1 + 1 := by omega
          simp only [Function.comp, Nat.succ_eq_add_one]
          rw [odd, even, getD_cons_succ, getD_cons_succ, getD_cons_succ,
            getD_cons_succ]
        rw [unfolded]
        refine ⟨congrArg Nat.succ words, forall_mem_cons.mpr ⟨?_, areWords⟩, ?_⟩
        · unfold Make_64
          omega
        · rw [wordsNumber_cons, value, number_cons, number_cons, Make_64]
          omega

theorem number_replicate_zero (count : Nat) : number (List.replicate count 0) = 0 :=
  Nat.ofDigits_replicate_zero

theorem digits_replicate_zero (count : Nat) : Digits (List.replicate count 0) := by
  intro digit member
  rw [eq_of_mem_replicate member]
  exact Nat.two_pow_pos 32

theorem significantDigits_le (digits : List Nat) (count : Nat) : significantDigits digits count ≤ count := by
  induction count with
  | zero => exact Nat.le_refl _
  | succ count ih =>
      rw [significantDigits]
      split
      · exact ih.trans (Nat.le_succ _)
      · exact Nat.le_refl _

theorem number_significantDigits (long : count ≤ digits.length) :
    number (digits.take (significantDigits digits count)) = number (digits.take count) := by
  induction count with
  | zero => rfl
  | succ count ih =>
      rw [significantDigits]
      split
      · rename_i zero
        rw [ih (Nat.le_of_succ_le long), number_take_succ long, zero, Nat.mul_zero, Nat.add_zero]
      · rfl

theorem getD_significantDigits (some : significantDigits digits count ≠ 0) :
    digits.getD (significantDigits digits count - 1) 0 ≠ 0 := by
  induction count with
  | zero => exact absurd rfl some
  | succ count ih =>
      rw [significantDigits] at some ⊢
      split
      · rename_i zero
        rw [if_pos zero] at some
        exact ih some
      · rename_i present
        exact present

theorem pow_le_number (long : count < digits.length) (some : digits.getD count 0 ≠ 0) :
    (2 ^ 32) ^ count ≤ number (digits.take (count + 1)) := by
  rw [number_take_succ long]
  exact (Nat.le_mul_of_pos_right _ (Nat.pos_of_ne_zero some)).trans (Nat.le_add_left _ _)

theorem shortDivision_spec {divisor : Nat} (positive : 0 < divisor) (isDigit : divisor < 2 ^ 32)
    (all : Digits digits) :
    (shortDivision divisor digits).1.length = digits.length ∧
      Digits (shortDivision divisor digits).1 ∧
      number (shortDivision divisor digits).1 = number digits / divisor ∧
      (shortDivision divisor digits).2 = number digits % divisor := by
  induction digits with
  | nil =>
      refine ⟨rfl, digits_nil, ?_, ?_⟩
      · exact (Nat.zero_div _).symm
      · exact (Nat.zero_mod _).symm
  | cons digit rest ih =>
      rw [digits_cons] at all
      obtain ⟨length, digits, quotient, remainder⟩ := ih all.2
      have small : (shortDivision divisor rest).2 < divisor := by
        rw [remainder]
        exact Nat.mod_lt _ positive
      -- all branches divide the remainder above and the digit
      have step : ∃ q, shortDivision divisor (digit :: rest) =
          (q :: (shortDivision divisor rest).1, Make_64 (shortDivision divisor rest).2 digit % divisor) ∧
            q = Make_64 (shortDivision divisor rest).2 digit / divisor := by
        have fits : Make_64 (shortDivision divisor rest).2 digit / divisor < 2 ^ 32 := by
          apply Nat.div_lt_of_lt_mul
          unfold Make_64
          nlinarith
        rw [shortDivision]
        generalize Make_64 (shortDivision divisor rest).2 digit = dividend at *
        have parts := Nat.mod_add_div dividend divisor
        have remains := Nat.mod_lt dividend positive
        simp only
        split
        · rename_i zero
          exact ⟨0, by rw [zero, Nat.zero_mod], by rw [zero, Nat.zero_div]⟩
        · split
          · rename_i less
            refine ⟨0, ?_, (Nat.div_eq_of_lt less).symm⟩
            rw [Lo_32_of_lt (less.trans isDigit), Nat.mod_eq_of_lt less]
          · split
            · rename_i same
              exact ⟨1, by rw [same, Nat.mod_self], by rw [same, Nat.div_self positive]⟩
            · have low : Lo_32 (dividend / divisor : Int) = dividend / divisor := by
                rw [← Int.natCast_ediv]
                exact Lo_32_of_lt fits
              refine ⟨_, ?_, low⟩
              rw [low]
              have rest : Lo_32 (dividend - u32 (dividend / divisor * divisor)) = dividend % divisor := by
                rw [Nat.mul_comm divisor] at parts
                generalize dividend / divisor * divisor = product at *
                generalize dividend % divisor = remainder at *
                simp only [Lo_32, u32]
                omega
              rw [rest]
      obtain ⟨q, unfolded, isQuotient⟩ := step
      have whole : number (digit :: rest) = Make_64 (shortDivision divisor rest).2 digit +
          divisor * (2 ^ 32 * number (shortDivision divisor rest).1) := by
        have parts := Nat.mod_add_div (number rest) divisor
        rw [number_cons, Make_64, remainder, quotient]
        linear_combination 2 ^ 32 * parts.symm
      have digitBound : q < 2 ^ 32 := by
        rw [isQuotient]
        apply Nat.div_lt_of_lt_mul
        unfold Make_64
        nlinarith
      rw [unfolded, whole, Nat.add_mul_div_left _ _ positive, Nat.add_mul_mod_self_left]
      refine ⟨congrArg Nat.succ length, digits_cons.mpr ⟨digitBound, digits⟩, ?_, rfl⟩
      rw [number_cons, isQuotient]

/-! ### Division of words -/

theorem number_append_zeros (digits : List Nat) (count : Nat) :
    number (digits ++ List.replicate count 0) = number digits := by
  rw [number_append, number_replicate_zero, Nat.mul_zero, Nat.add_zero]

structure DigitsDivided (left right : Nat) (lengthQ lengthR : Nat) (result : List Nat × List Nat) :
    Prop where
  lengthQ : result.1.length = lengthQ
  digitsQ : Digits result.1
  quotient : number result.1 = left / right
  lengthR : result.2.length = lengthR
  digitsR : Digits result.2
  remainder : number result.2 = left % right

theorem digitsDivided_short {U : List Nat} {divisor m lengthQ lengthR : Nat} (positive : 0 < divisor)
    (isDigit : divisor < 2 ^ 32) (inU : Digits U) (long : m < U.length) (room : m < lengthQ)
    (one : 0 < lengthR) :
    DigitsDivided (number (U.take (m + 1))) divisor lengthQ lengthR
      ((shortDivision divisor (U.take (m + 1))).1 ++ (List.replicate lengthQ 0).drop (m + 1),
        (List.replicate lengthR 0).set 0 (shortDivision divisor (U.take (m + 1))).2) := by
  obtain ⟨length, digits, quotient, remainder⟩ := shortDivision_spec positive isDigit (inU.take (m + 1))
  rw [length_take, Nat.min_eq_left (by omega)] at length
  obtain ⟨less, rfl⟩ := Nat.exists_eq_add_of_lt one
  have set : (List.replicate (0 + less + 1) 0).set 0 (shortDivision divisor (U.take (m + 1))).2 =
      (shortDivision divisor (U.take (m + 1))).2 :: List.replicate less 0 := by
    rw [Nat.zero_add, List.replicate_succ, set_cons_zero]
  rw [drop_replicate, set]
  constructor
  · rw [length_append, length, length_replicate]
    omega
  · exact digits_append.mpr ⟨digits, digits_replicate_zero _⟩
  · rw [number_append_zeros, quotient]
  · rw [length_cons, length_replicate]
    omega
  · refine digits_cons.mpr ⟨?_, digits_replicate_zero _⟩
    rw [remainder]
    exact (Nat.mod_lt _ positive).trans isDigit
  · rw [number_cons, number_replicate_zero, Nat.mul_zero, Nat.add_zero, remainder]

theorem digitsDivided_knuth {U V : List Nat} {m n lengthQ lengthR : Nat} (two : 2 ≤ n) (inU : Digits U)
    (inV : Digits V) (longU : m + n < U.length) (longV : n ≤ V.length)
    (leading : V.getD (n - 1) 0 ≠ 0) (room : m < lengthQ) (fits : n ≤ lengthR) :
    DigitsDivided (number (U.take (m + n))) (number (V.take n)) lengthQ lengthR
      (KnuthDiv U V (List.replicate lengthQ 0) (List.replicate lengthR 0) m n) := by
  have divided := KnuthDiv_spec (q := List.replicate lengthQ 0) (r := List.replicate lengthR 0) two inU
    inV longU longV leading (by rw [length_replicate]; exact room)
  obtain ⟨rest, placed, length, digits, value⟩ := divided.remainder
  have zeros := divided.others
  rw [drop_replicate] at zeros
  have whole := (take_append_drop (m + 1) (KnuthDiv U V (List.replicate lengthQ 0)
    (List.replicate lengthR 0) m n).1).symm
  rw [zeros] at whole
  rw [drop_replicate] at placed
  constructor
  · rw [divided.length, length_replicate]
  · rw [whole]
    exact digits_append.mpr ⟨divided.digits, digits_replicate_zero _⟩
  · rw [whole, number_append_zeros, divided.quotient]
  · rw [placed, length_append, length, length_replicate]
    omega
  · rw [placed]
    exact digits_append.mpr ⟨digits, digits_replicate_zero _⟩
  · rw [placed, number_append_zeros, value]

structure WordsDivided (LHS RHS : List Nat) (result : List Nat × List Nat) : Prop where
  lengthQ : result.1.length = LHS.length
  wordsQ : Words result.1
  quotient : wordsNumber result.1 = wordsNumber LHS / wordsNumber RHS
  lengthR : result.2.length = RHS.length
  wordsR : Words result.2
  remainder : wordsNumber result.2 = wordsNumber LHS % wordsNumber RHS

theorem divide_spec {LHS RHS : List Nat} (inL : Words LHS) (inR : Words RHS)
    (some : wordsNumber RHS ≠ 0) (larger : wordsNumber RHS ≤ wordsNumber LHS) :
    ∃ result, divide LHS RHS = .some result ∧ WordsDivided LHS RHS result := by
  obtain ⟨lengthL, digitsL, valueL⟩ := digitsOfWords_spec inL
  obtain ⟨lengthR, digitsR, valueR⟩ := digitsOfWords_spec inR
  unfold divide
  simp only
  have digitsU : Digits (digitsOfWords LHS ++ [0]) :=
    digits_append.mpr ⟨digitsL, digits_replicate_zero 1⟩
  have lengthU : (digitsOfWords LHS ++ [0]).length = LHS.length * 2 + 1 := by
    rw [length_append, lengthL]
    rfl
  have left : number ((digitsOfWords LHS ++ [0]).take
      (significantDigits (digitsOfWords LHS ++ [0]) (LHS.length * 2))) = wordsNumber LHS := by
    rw [number_significantDigits (by omega), ← lengthL, take_left, valueL]
  have right : number ((digitsOfWords RHS).take
      (significantDigits (digitsOfWords RHS) (RHS.length * 2))) = wordsNumber RHS := by
    rw [number_significantDigits lengthR.ge, ← lengthR, take_length, valueR]
  have boundU := significantDigits_le (digitsOfWords LHS ++ [0]) (LHS.length * 2)
  have boundV := significantDigits_le (digitsOfWords RHS) (RHS.length * 2)
  have present : significantDigits (digitsOfWords RHS) (RHS.length * 2) ≠ 0 := by
    intro zero
    rw [zero, take_zero, number_nil] at right
    exact some right.symm
  have leading := getD_significantDigits present
  generalize significantDigits (digitsOfWords LHS ++ [0]) (LHS.length * 2) = total at *
  generalize significantDigits (digitsOfWords RHS) (RHS.length * 2) = n at *
  have enough : n ≤ total := by
    by_contra short
    have upper := (digitsU.take total).number_lt
    rw [left, length_take, Nat.min_eq_left (by omega)] at upper
    have lower := pow_le_number (by omega : n - 1 < (digitsOfWords RHS).length) leading
    rw [Nat.sub_add_cancel (Nat.pos_of_ne_zero present), right] at lower
    have powers : (2 ^ 32) ^ total ≤ (2 ^ 32) ^ (n - 1) := Nat.pow_le_pow_right (by decide) (by omega)
    omega
  rw [if_neg (by omega)]
  refine ⟨_, rfl, ?_⟩
  have divided : DigitsDivided (wordsNumber LHS) (wordsNumber RHS) (LHS.length * 2) (RHS.length * 2)
      (if n = 1 then
        ((shortDivision ((digitsOfWords RHS).getD 0 0) ((digitsOfWords LHS ++ [0]).take (total - n + 1))).1 ++
            (List.replicate (LHS.length * 2) 0).drop (total - n + 1),
          (List.replicate (RHS.length * 2) 0).set 0
            (shortDivision ((digitsOfWords RHS).getD 0 0)
              ((digitsOfWords LHS ++ [0]).take (total - n + 1))).2)
      else KnuthDiv (digitsOfWords LHS ++ [0]) (digitsOfWords RHS) (List.replicate (LHS.length * 2) 0)
        (List.replicate (RHS.length * 2) 0) (total - n) n) := by
    have sum : total - n + n = total := Nat.sub_add_cancel enough
    rw [← left, ← right]
    by_cases one : n = 1
    · subst one
      have single : number ((digitsOfWords RHS).take 1) = (digitsOfWords RHS).getD 0 0 := by
        rw [number_take_succ (by omega), take_zero, number_nil, pow_zero, Nat.one_mul, Nat.zero_add]
      rw [if_pos rfl, single]
      have short := digitsDivided_short (U := digitsOfWords LHS ++ [0]) (m := total - 1)
        (Nat.pos_of_ne_zero leading) (digitsR.getD_lt 0) digitsU (by omega)
        (by omega : total - 1 < LHS.length * 2) (by omega : 0 < RHS.length * 2)
      rw [sum] at short ⊢
      exact short
    · rw [if_neg one]
      have knuth := digitsDivided_knuth (U := digitsOfWords LHS ++ [0]) (V := digitsOfWords RHS)
        (m := total - n) (n := n) (by omega) digitsU digitsR (by omega) (by omega) leading
        (by omega : total - n < LHS.length * 2) (by omega : n ≤ RHS.length * 2)
      rw [sum] at knuth
      exact knuth
  obtain ⟨wordsQ, isQ, valueQ⟩ := wordsOfDigits_spec divided.lengthQ divided.digitsQ
  obtain ⟨wordsR, isR, valueR⟩ := wordsOfDigits_spec divided.lengthR divided.digitsR
  exact ⟨wordsQ, isQ, valueQ.trans divided.quotient, wordsR, isR, valueR.trans divided.remainder⟩

theorem divide_zero {LHS RHS : List Nat} (inR : Words RHS) (zero : wordsNumber RHS = 0) :
    divide LHS RHS = none := by
  obtain ⟨lengthR, _, valueR⟩ := digitsOfWords_spec inR
  have none : significantDigits (digitsOfWords RHS) (RHS.length * 2) = 0 := by
    by_contra some
    have leading := getD_significantDigits some
    have bound := significantDigits_le (digitsOfWords RHS) (RHS.length * 2)
    have whole := number_significantDigits (lengthR.ge : RHS.length * 2 ≤ (digitsOfWords RHS).length)
    have lower := pow_le_number (by omega) leading
    rw [Nat.sub_add_cancel (Nat.pos_of_ne_zero some), whole, ← lengthR, take_length, valueR,
      zero] at lower
    exact Nat.not_le.mpr (Nat.pow_pos (by decide)) lower
  exact if_pos (.inl none)

end EvmBackend.APInt
