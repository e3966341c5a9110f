/-
The division of values is exact: every short cut of the source gives what the
long division gives, whatever the width, and the signed operations are the
truncating ones.
-/

import EvmBackend.APInt.Divide

namespace EvmBackend.APInt

open List Option BitVec

variable {W : Nat}

theorem wordsNumber_range (value count : Nat) :
    wordsNumber ((List.range count).map fun index => value / 2 ^ (64 * index) % 2 ^ 64) =
      value % 2 ^ (64 * count) := by
  induction count with
  | zero => exact (Nat.mod_one value).symm
  | succ count ih =>
      rw [range_succ, map_append, wordsNumber, Nat.ofDigits_append, ← wordsNumber, ih,
        map_singleton, Nat.ofDigits_singleton, length_map, length_range, ← pow_mul,
        Nat.mul_succ, pow_add, ← Nat.mod_mul]

theorem getNumWords_le {bits more : Nat} (small : bits ≤ more) : getNumWords bits ≤ getNumWords more := by
  unfold getNumWords
  omega

theorem le_getNumWords (bits : Nat) : bits ≤ 64 * getNumWords bits := by
  unfold getNumWords
  omega

theorem getRawData_prefix (value : BitVec W) (count : Nat) :
    Words ((getRawData value).take count) ∧
      wordsNumber ((getRawData value).take count) =
        value.toNat % 2 ^ (64 * min count (getNumWords W)) := by
  have taken : (getRawData value).take count = (List.range (min count (getNumWords W))).map fun index =>
      value.toNat / 2 ^ (64 * index) % 2 ^ 64 := by
    unfold getRawData
    rw [← map_take, take_range]
  rw [taken]
  constructor
  · intro word member
    obtain ⟨index, _, rfl⟩ := List.mem_map.mp member
    exact Nat.mod_lt _ (Nat.two_pow_pos 64)
  · exact wordsNumber_range _ _

theorem getRawData_take (value : BitVec W) :
    Words ((getRawData value).take (getNumWords (getActiveBits value))) ∧
      wordsNumber ((getRawData value).take (getNumWords (getActiveBits value))) = value.toNat := by
  have within := getNumWords_le (getActiveBits_le value)
  have bits := (getActiveBits_le_iff value (64 * getNumWords (getActiveBits value))).mp
    (le_getNumWords _)
  obtain ⟨words, total⟩ := getRawData_prefix value (getNumWords (getActiveBits value))
  rw [Nat.min_eq_left within, Nat.mod_eq_of_lt bits] at total
  exact ⟨words, total⟩

theorem getNumWords_eq_zero_iff (value : BitVec W) :
    getNumWords (getActiveBits value) = 0 ↔ value.toNat = 0 := by
  have none := getActiveBits_le_iff value 0
  rw [pow_zero] at none
  unfold getNumWords
  omega

theorem getActiveBits_eq_one_iff (value : BitVec W) : getActiveBits value = 1 ↔ value.toNat = 1 := by
  have none := getActiveBits_le_iff value 0
  have one := getActiveBits_le_iff value 1
  rw [pow_zero] at none
  rw [pow_one] at one
  omega

theorem getRawData_zero {value : BitVec W} (one : value.toNat < 2 ^ 64) :
    (getRawData value).getD 0 0 = value.toNat := by
  by_cases zero : W = 0
  · subst zero
    rw [eq_nil value]
    rfl
  have some : 0 < getNumWords W := by
    unfold getNumWords
    omega
  unfold getRawData
  rw [getD_eq_getElem _ _ (by rw [length_map, length_range]; exact some),
    getElem_map, getElem_range, Nat.mul_zero, pow_zero, Nat.div_one, Nat.mod_eq_of_lt one]

theorem toNat_lt_of_getNumWords {value : BitVec W} (one : getNumWords (getActiveBits value) = 1) :
    value.toNat < 2 ^ 64 := by
  apply (getActiveBits_le_iff value 64).mp
  unfold getNumWords at one
  omega

theorem toNat_lt_of_words {left right : BitVec W}
    (fewer : getNumWords (getActiveBits left) < getNumWords (getActiveBits right)) :
    left.toNat < right.toNat := by
  by_contra larger
  have bits := (getActiveBits_le_iff right (getActiveBits left)).mpr
    ((Nat.le_of_not_lt larger).trans_lt ((getActiveBits_le_iff left _).mp (Nat.le_refl _)))
  exact Nat.not_lt.mpr (getNumWords_le bits) fewer

theorem ofRawData_eq (W : Nat) (words : List Nat) : ofRawData W words = BitVec.ofNat W (wordsNumber words) := by
  unfold ofRawData wordsNumber
  rw [Nat.ofDigits_eq_foldr]
  rfl

/-! ### Division by another value -/

theorem ofNat_div (left right : BitVec W) : BitVec.ofNat W (left.toNat / right.toNat) = left / right := by
  apply eq_of_toNat_eq
  rw [toNat_ofNat, toNat_udiv]
  exact Nat.mod_eq_of_lt ((Nat.div_le_self _ _).trans_lt left.isLt)

theorem ofNat_mod (left right : BitVec W) : BitVec.ofNat W (left.toNat % right.toNat) = left % right := by
  apply eq_of_toNat_eq
  rw [toNat_ofNat, toNat_umod]
  exact Nat.mod_eq_of_lt ((Nat.mod_le _ _).trans_lt left.isLt)

theorem toNat_ne_zero {value : BitVec W} (nonzero : value ≠ 0) : value.toNat ≠ 0 := by
  intro zero
  exact nonzero (eq_of_toNat_eq (by rw [zero]; simp))

theorem divide_values {left right : BitVec W} (nonzero : right ≠ 0) (larger : right.toNat ≤ left.toNat) :
    ∃ result, divide ((getRawData left).take (getNumWords (getActiveBits left)))
        ((getRawData right).take (getNumWords (getActiveBits right))) = some result ∧
      ofRawData W result.1 = left / right ∧ ofRawData W result.2 = left % right := by
  obtain ⟨wordsL, valueL⟩ := getRawData_take left
  obtain ⟨wordsR, valueR⟩ := getRawData_take right
  have some : wordsNumber ((getRawData right).take (getNumWords (getActiveBits right))) ≠ 0 := by
    rw [valueR]
    exact toNat_ne_zero nonzero
  have order : wordsNumber ((getRawData right).take (getNumWords (getActiveBits right))) ≤
      wordsNumber ((getRawData left).take (getNumWords (getActiveBits left))) := by
    rw [valueL, valueR]
    exact larger
  obtain ⟨result, divided, exactly⟩ := divide_spec wordsL wordsR some order
  refine ⟨result, divided, ?_, ?_⟩
  · rw [ofRawData_eq, exactly.quotient, valueL, valueR, ofNat_div]
  · rw [ofRawData_eq, exactly.remainder, valueL, valueR, ofNat_mod]

theorem toNat_lt_of_short {left right : BitVec W}
    (short : getNumWords (getActiveBits left) < getNumWords (getActiveBits right) ∨ left.ult right) :
    left.toNat < right.toNat := by
  rcases short with fewer | less
  · exact toNat_lt_of_words fewer
  · exact ult_iff_lt.mp less

theorem toNat_le_of_not_short {left right : BitVec W}
    (long : ¬ (getNumWords (getActiveBits left) < getNumWords (getActiveBits right) ∨ left.ult right)) :
    right.toNat ≤ left.toNat :=
  Nat.le_of_not_lt fun less => long (.inr (ult_iff_lt.mpr less))

theorem nativeDivide_eq {left right : Nat} (nonzero : right ≠ 0) :
    nativeDivide left right = some (left / right) := if_neg nonzero

theorem nativeRemainder_eq {left right : Nat} (nonzero : right ≠ 0) :
    nativeRemainder left right = some (left % right) := if_neg nonzero

section

variable {LHS RHS : BitVec W} (nonzero : RHS ≠ 0)

include nonzero

theorem udiv_eq : udiv LHS RHS = some (LHS / RHS) := by
  have some := toNat_ne_zero nonzero
  unfold udiv
  simp only
  split
  · rw [nativeDivide_eq some, map_some, ofNat_div]
  · rename_i wide
    split
    · rename_i zero
      rw [← ofNat_div, (getNumWords_eq_zero_iff LHS).mp zero, Nat.zero_div]
    · split
      · rename_i one
        rw [← ofNat_div, (getActiveBits_eq_one_iff RHS).mp one, Nat.div_one, ofNat_toNat,
          setWidth_eq]
      · split
        · rename_i short
          rw [← ofNat_div, Nat.div_eq_of_lt (toNat_lt_of_short short)]
        · rename_i long
          have larger := toNat_le_of_not_short long
          split
          · rename_i same
            rw [← ofNat_div, same, Nat.div_self (Nat.pos_of_ne_zero some)]
          · split
            · rename_i one
              have small := toNat_lt_of_getNumWords one
              rw [getRawData_zero small, getRawData_zero (larger.trans_lt small),
                nativeDivide_eq some, map_some, ofNat_div]
            · obtain ⟨result, divided, quotient, _⟩ := divide_values nonzero larger
              rw [divided, map_some, quotient]

theorem urem_eq : urem LHS RHS = some (LHS % RHS) := by
  have some := toNat_ne_zero nonzero
  unfold urem
  simp only
  split
  · rw [nativeRemainder_eq some, map_some, ofNat_mod]
  · rename_i wide
    split
    · rename_i zero
      rw [← ofNat_mod, (getNumWords_eq_zero_iff LHS).mp zero, Nat.zero_mod]
    · split
      · rename_i one
        rw [← ofNat_mod, (getActiveBits_eq_one_iff RHS).mp one, Nat.mod_one]
      · split
        · rename_i short
          rw [← ofNat_mod, Nat.mod_eq_of_lt (toNat_lt_of_short short), ofNat_toNat,
            setWidth_eq]
        · rename_i long
          have larger := toNat_le_of_not_short long
          split
          · rename_i same
            rw [← ofNat_mod, same, Nat.mod_self]
          · split
            · rename_i one
              have small := toNat_lt_of_getNumWords one
              rw [getRawData_zero small, getRawData_zero (larger.trans_lt small),
                nativeRemainder_eq some, map_some, ofNat_mod]
            · obtain ⟨result, divided, _, remainder⟩ := divide_values nonzero larger
              rw [divided, map_some, remainder]

end

theorem divide_word {left : BitVec W} {right : BitVec 64} (nonzero : right ≠ 0)
    (larger : right.toNat ≤ left.toNat) :
    ∃ result, divide ((getRawData left).take (getNumWords (getActiveBits left))) [right.toNat] =
        some result ∧ wordsNumber result.1 = left.toNat / right.toNat ∧
      wordsNumber result.2 = left.toNat % right.toNat := by
  obtain ⟨wordsL, valueL⟩ := getRawData_take left
  have wordR : Words [right.toNat] := by
    intro word member
    rw [mem_singleton.mp member]
    exact right.isLt
  have valueR : wordsNumber [right.toNat] = right.toNat := Nat.ofDigits_singleton
  obtain ⟨result, divided, exactly⟩ := divide_spec wordsL wordR
    (by rw [valueR]; exact toNat_ne_zero nonzero) (by rw [valueL, valueR]; exact larger)
  refine ⟨result, divided, ?_, ?_⟩
  · rw [exactly.quotient, valueL, valueR]
  · rw [exactly.remainder, valueL, valueR]

section

variable {LHS : BitVec W} {RHS : BitVec 64} (nonzero : RHS ≠ 0)

include nonzero

theorem udivWord_eq : udivWord LHS RHS = some (BitVec.ofNat W (LHS.toNat / RHS.toNat)) := by
  have some := toNat_ne_zero nonzero
  unfold udivWord
  simp only
  split
  · rw [nativeDivide_eq some, map_some]
  · rename_i wide
    split
    · rename_i zero
      rw [(getNumWords_eq_zero_iff LHS).mp zero, Nat.zero_div]
    · split
      · rename_i one
        have value : (1 : BitVec 64).toNat = 1 := by decide
        rw [one, value, Nat.div_one, ofNat_toNat, setWidth_eq]
      · split
        · rename_i less
          rw [Nat.div_eq_of_lt less]
        · rename_i long
          split
          · rename_i same
            rw [same, Nat.div_self (Nat.pos_of_ne_zero some)]
          · split
            · rename_i one
              rw [getRawData_zero (toNat_lt_of_getNumWords one), nativeDivide_eq some,
                map_some]
            · obtain ⟨result, divided, quotient, _⟩ := divide_word nonzero (Nat.le_of_not_lt long)
              rw [divided, map_some, ofRawData_eq, quotient]

theorem uremWord_eq : uremWord LHS RHS = some (BitVec.ofNat 64 (LHS.toNat % RHS.toNat)) := by
  have some := toNat_ne_zero nonzero
  unfold uremWord
  simp only
  split
  · rw [nativeRemainder_eq some, map_some]
  · rename_i wide
    split
    · rename_i zero
      rw [(getNumWords_eq_zero_iff LHS).mp zero, Nat.zero_mod]
    · split
      · rename_i one
        have value : (1 : BitVec 64).toNat = 1 := by decide
        rw [one, value, Nat.mod_one]
      · split
        · rename_i less
          rw [Nat.mod_eq_of_lt less, ofNat_toNat]
        · rename_i long
          split
          · rename_i same
            rw [same, Nat.mod_self]
          · split
            · rename_i one
              rw [getRawData_zero (toNat_lt_of_getNumWords one), nativeRemainder_eq some,
                map_some]
            · obtain ⟨result, divided, _, remainder⟩ := divide_word nonzero (Nat.le_of_not_lt long)
              rw [divided, map_some, ofRawData_eq, remainder]

end

/-! ### Signed division -/

theorem toInt_magnitude (value : BitVec W) :
    isNegative value = true ∧ value.toInt = -((-value).toNat : Int) ∨
      isNegative value = false ∧ value.toInt = value.toNat := by
  have small := value.isLt
  cases sign : isNegative value with
  | true =>
      left
      refine ⟨rfl, ?_⟩
      have negative : value.msb = true := sign
      have half : 2 ^ W ≤ 2 * value.toNat := msb_eq_true_iff_two_mul_ge.mp negative
      rw [toInt_eq_msb_cond, if_pos negative, toNat_neg,
        Nat.mod_eq_of_lt (by have := Nat.two_pow_pos W; omega)]
      push_cast [Nat.cast_sub small.le]
      ring
  | false =>
      right
      refine ⟨rfl, ?_⟩
      have natural : value.msb = false := sign
      rw [toInt_eq_msb_cond, natural, if_neg Bool.false_ne_true]

section Magnitudes

variable (W : Nat) (left right : Nat)

theorem ofInt_tdiv : BitVec.ofInt W ((left : Int).tdiv right) = BitVec.ofNat W (left / right) := by
  rw [← Int.ofNat_tdiv, ofInt_natCast]

theorem ofInt_neg_tdiv : BitVec.ofInt W ((-(left : Int)).tdiv right) = -BitVec.ofNat W (left / right) := by
  rw [Int.neg_tdiv, ofInt_neg, ofInt_tdiv]

theorem ofInt_tdiv_neg : BitVec.ofInt W ((left : Int).tdiv (-right)) = -BitVec.ofNat W (left / right) := by
  rw [Int.tdiv_neg, ofInt_neg, ofInt_tdiv]

theorem ofInt_neg_tdiv_neg :
    BitVec.ofInt W ((-(left : Int)).tdiv (-right)) = BitVec.ofNat W (left / right) := by
  rw [Int.neg_tdiv_neg, ofInt_tdiv]

theorem ofInt_tmod : BitVec.ofInt W ((left : Int).tmod right) = BitVec.ofNat W (left % right) := by
  rw [← Int.ofNat_tmod, ofInt_natCast]

theorem ofInt_neg_tmod : BitVec.ofInt W ((-(left : Int)).tmod right) = -BitVec.ofNat W (left % right) := by
  rw [Int.neg_tmod, ofInt_neg, ofInt_tmod]

theorem ofInt_tmod_neg : BitVec.ofInt W ((left : Int).tmod (-right)) = BitVec.ofNat W (left % right) := by
  rw [Int.tmod_neg, ofInt_tmod]

theorem ofInt_neg_tmod_neg :
    BitVec.ofInt W ((-(left : Int)).tmod (-right)) = -BitVec.ofNat W (left % right) := by
  rw [Int.tmod_neg, ofInt_neg_tmod]

end Magnitudes

theorem neg_nonzero {value : BitVec W} (nonzero : value ≠ 0) : -value ≠ 0 :=
  fun zero => nonzero (neg_eq_zero_iff.mp zero)

section

variable {LHS RHS : BitVec W} (nonzero : RHS ≠ 0)

include nonzero

theorem sdiv_eq : sdiv LHS RHS = some (BitVec.ofInt W (LHS.toInt.tdiv RHS.toInt)) := by
  unfold sdiv
  rcases toInt_magnitude LHS with ⟨signL, valueL⟩ | ⟨signL, valueL⟩ <;>
    rcases toInt_magnitude RHS with ⟨signR, valueR⟩ | ⟨signR, valueR⟩
  · rw [signL, signR, if_pos rfl, if_pos rfl, valueL, valueR, udiv_eq (neg_nonzero nonzero),
      ofInt_neg_tdiv_neg, ofNat_div]
  · rw [signL, signR, if_pos rfl, if_neg Bool.false_ne_true, valueL, valueR, udiv_eq nonzero,
      ofInt_neg_tdiv, ofNat_div, map_some]
  · rw [signL, signR, if_neg Bool.false_ne_true, if_pos rfl, valueL, valueR,
      udiv_eq (neg_nonzero nonzero), ofInt_tdiv_neg, ofNat_div, map_some]
  · rw [signL, signR, if_neg Bool.false_ne_true, if_neg Bool.false_ne_true, valueL, valueR,
      udiv_eq nonzero, ofInt_tdiv, ofNat_div]

theorem srem_eq : srem LHS RHS = some (BitVec.ofInt W (LHS.toInt.tmod RHS.toInt)) := by
  unfold srem
  rcases toInt_magnitude LHS with ⟨signL, valueL⟩ | ⟨signL, valueL⟩ <;>
    rcases toInt_magnitude RHS with ⟨signR, valueR⟩ | ⟨signR, valueR⟩
  · rw [signL, signR, if_pos rfl, if_pos rfl, valueL, valueR, urem_eq (neg_nonzero nonzero),
      ofInt_neg_tmod_neg, ofNat_mod, map_some]
  · rw [signL, signR, if_pos rfl, if_neg Bool.false_ne_true, valueL, valueR, urem_eq nonzero,
      ofInt_neg_tmod, ofNat_mod, map_some]
  · rw [signL, signR, if_neg Bool.false_ne_true, if_pos rfl, valueL, valueR,
      urem_eq (neg_nonzero nonzero), ofInt_tmod_neg, ofNat_mod]
  · rw [signL, signR, if_neg Bool.false_ne_true, if_neg Bool.false_ne_true, valueL, valueR,
      urem_eq nonzero, ofInt_tmod, ofNat_mod]

end

section

variable {LHS : BitVec W} {RHS : BitVec 64} (nonzero : RHS ≠ 0)

include nonzero

theorem sdivWord_eq : sdivWord LHS RHS = some (BitVec.ofInt W (LHS.toInt.tdiv RHS.toInt)) := by
  unfold sdivWord
  rcases toInt_magnitude LHS with ⟨signL, valueL⟩ | ⟨signL, valueL⟩ <;>
    rcases toInt_magnitude RHS with ⟨signR, valueR⟩ | ⟨signR, valueR⟩
  · rw [signL, signR, if_pos rfl, if_pos rfl, valueL, valueR, udivWord_eq (neg_nonzero nonzero),
      ofInt_neg_tdiv_neg]
  · rw [signL, signR, if_pos rfl, if_neg Bool.false_ne_true, valueL, valueR, udivWord_eq nonzero,
      ofInt_neg_tdiv, map_some]
  · rw [signL, signR, if_neg Bool.false_ne_true, if_pos rfl, valueL, valueR,
      udivWord_eq (neg_nonzero nonzero), ofInt_tdiv_neg, map_some]
  · rw [signL, signR, if_neg Bool.false_ne_true, if_neg Bool.false_ne_true, valueL, valueR,
      udivWord_eq nonzero, ofInt_tdiv]

theorem sremWord_eq : sremWord LHS RHS = some (BitVec.ofInt 64 (LHS.toInt.tmod RHS.toInt)) := by
  unfold sremWord
  rcases toInt_magnitude LHS with ⟨signL, valueL⟩ | ⟨signL, valueL⟩ <;>
    rcases toInt_magnitude RHS with ⟨signR, valueR⟩ | ⟨signR, valueR⟩
  · rw [signL, signR, if_pos rfl, if_pos rfl, valueL, valueR, uremWord_eq (neg_nonzero nonzero),
      ofInt_neg_tmod_neg, map_some]
  · rw [signL, signR, if_pos rfl, if_neg Bool.false_ne_true, valueL, valueR, uremWord_eq nonzero,
      ofInt_neg_tmod, map_some]
  · rw [signL, signR, if_neg Bool.false_ne_true, if_pos rfl, valueL, valueR,
      uremWord_eq (neg_nonzero nonzero), ofInt_tmod_neg]
  · rw [signL, signR, if_neg Bool.false_ne_true, if_neg Bool.false_ne_true, valueL, valueR,
      uremWord_eq nonzero, ofInt_tmod]

end

end EvmBackend.APInt
