/-
Copies, comparisons, differences and shifts of numbers in parts.

A shift is read bit by bit: the parts after it are known one by one, from the
loop that writes each once, and each bit of the number is a bit of one part.
-/

import EvmBackend.APInt.PartsMultiply

namespace EvmBackend.APInt.Parts

open WordMemory BitVec

theorem tcAssign_spec {dst src parts : Nat} (memory : Memory 64) (apart : dst ≤ src ∨ src + parts ≤ dst) :
    numberAt (tcAssign dst src parts memory) dst parts = numberAt memory src parts ∧
      ∀ address, (∀ i < parts, address ≠ dst + i) → tcAssign dst src parts memory address = memory address := by
  obtain ⟨written, kept⟩ := forEach_spec (fun i => dst + i) (fun i memory => memory (src + i))
    (fun i => memory (src + i)) memory parts (fun i j less _ => by omega)
    fun i below now same => same (src + i) fun j less => by omega
  refine ⟨?_, kept⟩
  unfold tcAssign
  generalize forEach (fun i => dst + i) (fun i memory => memory (src + i)) parts memory = after at written
  clear kept apart
  induction parts with
  | zero => rfl
  | succ parts ih =>
      rw [number_succ, number_succ, ih fun i below => written i (below.trans (Nat.lt_succ_self _)),
        written parts (Nat.lt_succ_self _)]

theorem tcCompare_nonneg_iff (memory : Memory 64) (lhs rhs parts : Nat) :
    0 ≤ tcCompare memory lhs rhs parts ↔ numberAt memory rhs parts ≤ numberAt memory lhs parts := by
  induction parts with
  | zero => exact iff_of_true le_rfl le_rfl
  | succ parts ih =>
      have left := number_lt memory lhs parts
      have right := number_lt memory rhs parts
      rw [tcCompare, number_succ, number_succ]
      by_cases differ : memory (lhs + parts) = memory (rhs + parts)
      · rw [if_neg (by rw [differ, bne_self_eq_false]; exact Bool.false_ne_true), ih, differ,
          Nat.add_le_add_iff_right]
      · rw [if_pos (bne_iff_ne.mpr differ)]
        by_cases less : memory (rhs + parts) < memory (lhs + parts)
        · have words := Nat.mul_le_mul_right (2 ^ (64 * parts)) (Nat.succ_le_of_lt (lt_def.mp less))
          rw [Nat.succ_mul] at words
          rw [if_pos less]
          exact iff_of_true (by decide) (by omega)
        · have other : (memory (lhs + parts)).toNat < (memory (rhs + parts)).toNat := by
            apply lt_of_le_of_ne (Nat.le_of_not_lt fun above => less (lt_def.mpr above))
            exact fun same => differ (eq_of_toNat_eq same)
          have words := Nat.mul_le_mul_right (2 ^ (64 * parts)) (Nat.succ_le_of_lt other)
          rw [Nat.succ_mul] at words
          rw [if_neg less]
          exact iff_of_false (by decide) (by omega)

theorem difference_value (left right : WordType) (borrow : Bool) :
    let difference := if borrow then left - (right + 1) else left - right
    difference.toNat + right.toNat + borrow.toNat = left.toNat + 2 ^ 64 *
      (if borrow then decide (left ≤ difference) else decide (left < difference)).toNat := by
  have leftBound := left.isLt
  have rightBound := right.isLt
  have one : (1 : WordType).toNat = 1 := rfl
  cases borrow with
  | false =>
      simp only [Bool.false_eq_true, if_false, Bool.toNat_false, Nat.add_zero]
      by_cases wraps : left < left - right
      · rw [decide_eq_true wraps, Bool.toNat_true]
        rw [lt_def, toNat_sub] at wraps
        rw [toNat_sub]
        omega
      · rw [decide_eq_false wraps, Bool.toNat_false]
        rw [lt_def, toNat_sub] at wraps
        rw [toNat_sub]
        omega
  | true =>
      simp only [if_true, Bool.toNat_true]
      by_cases wraps : left ≤ left - (right + 1)
      · rw [decide_eq_true wraps, Bool.toNat_true]
        rw [le_def, toNat_sub, toNat_add, one] at wraps
        rw [toNat_sub, toNat_add, one]
        omega
      · rw [decide_eq_false wraps, Bool.toNat_false]
        rw [le_def, toNat_sub, toNat_add, one] at wraps
        rw [toNat_sub, toNat_add, one]
        omega

theorem subtractRound_eq (dst rhs : Nat) (state : Memory 64 × Bool) (i : Nat) :
    ∃ difference borrow, subtractRound dst rhs state i = (Function.update state.1 (dst + i) difference, borrow) ∧
      difference.toNat + (state.1 (rhs + i)).toNat + state.2.toNat =
        (state.1 (dst + i)).toNat + 2 ^ 64 * borrow.toNat := by
  have value := difference_value (state.1 (dst + i)) (state.1 (rhs + i)) state.2
  unfold subtractRound
  cases borrowed : state.2 with
  | false | true =>
      rw [borrowed] at value
      exact ⟨_, _, rfl, value⟩

theorem tcSubtract_spec {dst rhs parts : Nat} (borrow : Bool) (memory : Memory 64)
    (apart : Apart dst parts rhs parts) :
    numberAt (tcSubtract dst rhs borrow parts memory).1 dst parts + numberAt memory rhs parts + borrow.toNat =
        numberAt memory dst parts + 2 ^ (64 * parts) * (tcSubtract dst rhs borrow parts memory).2.toNat ∧
      ∀ address, (∀ i < parts, address ≠ dst + i) →
        (tcSubtract dst rhs borrow parts memory).1 address = memory address := by
  unfold Apart at apart
  have general : ∀ count ≤ parts,
      numberAt (tcSubtract dst rhs borrow count memory).1 dst count + numberAt memory rhs count + borrow.toNat =
          numberAt memory dst count + 2 ^ (64 * count) * (tcSubtract dst rhs borrow count memory).2.toNat ∧
        ∀ address, (∀ i < count, address ≠ dst + i) →
          (tcSubtract dst rhs borrow count memory).1 address = memory address := by
    intro count
    induction count with
    | zero =>
        intro _
        constructor
        · simp [tcSubtract, numberAt]
        · intro address _
          rfl
    | succ count ih =>
        intro small
        obtain ⟨equation, kept⟩ := ih (Nat.le_of_succ_le small)
        have next : tcSubtract dst rhs borrow (count + 1) memory =
            subtractRound dst rhs (tcSubtract dst rhs borrow count memory) count := by
          unfold tcSubtract
          rw [List.range_succ, List.foldl_append]
          rfl
        rw [next]
        generalize tcSubtract dst rhs borrow count memory = state at equation kept ⊢
        obtain ⟨difference, borrowed, round, value⟩ := subtractRound_eq dst rhs state count
        rw [kept (rhs + count) fun i below => by omega, kept (dst + count) fun i below => by omega] at value
        rw [round]
        dsimp only
        constructor
        · rw [number_succ, number_succ, number_succ, two_pow_succ, Function.update_self,
            number_update_outside _ fun i below => by omega]
          linear_combination equation + 2 ^ (64 * count) * value
        · intro address away
          rw [Function.update_of_ne (away count (Nat.lt_succ_self _))]
          exact kept address fun i below => away i (below.trans (Nat.lt_succ_self _))
  exact general parts le_rfl

/-! ### Shifts -/

theorem memmove_inside {dst src parts i : Nat} (memory : Memory 64) (below : i < parts) :
    memmove dst src parts memory (dst + i) = memory (src + i) := by
  unfold memmove
  rw [if_pos ⟨Nat.le_add_right dst i, Nat.add_lt_add_left below dst⟩, Nat.add_sub_cancel_left]

theorem memmove_outside {dst src parts address : Nat} (memory : Memory 64)
    (outside : address < dst ∨ dst + parts ≤ address) :
      memmove dst src parts memory address = memory address := by
  unfold memmove
  exact if_neg (by omega)

theorem clear_inside {dst parts i : Nat} (memory : Memory 64) (below : i < parts) :
    clear dst parts memory (dst + i) = 0 := by
  unfold clear
  exact if_pos ⟨Nat.le_add_right dst i, Nat.add_lt_add_left below dst⟩

theorem clear_outside {dst parts address : Nat} (memory : Memory 64)
    (outside : address < dst ∨ dst + parts ≤ address) : clear dst parts memory address = memory address := by
  unfold clear
  exact if_neg (by omega)

theorem shiftLeftLoop_spec {dst words wordShift bitShift : Nat} (memory : Memory 64) (most : wordShift ≤ words) :
    let after := forEach (fun i => dst + (words - 1 - i))
      (fun i => shiftedLeft dst wordShift bitShift (words - 1 - i)) (words - wordShift) memory
    (∀ index < words, wordShift ≤ index → after (dst + index) = shiftedLeft dst wordShift bitShift index memory) ∧
      ∀ address, address < dst + wordShift ∨ dst + words ≤ address → after address = memory address := by
  intro after
  -- the parts are written downwards, and a part is made of itself and of lower ones
  obtain ⟨written, kept⟩ := forEach_spec (fun i => dst + (words - 1 - i))
    (fun i => shiftedLeft dst wordShift bitShift (words - 1 - i))
    (fun i => shiftedLeft dst wordShift bitShift (words - 1 - i) memory) memory (words - wordShift)
    (fun i j less below => by omega) fun i below now same => by
      unfold shiftedLeft
      rw [same _ fun j less => by omega]
      by_cases lower : wordShift < words - 1 - i
      · rw [if_pos lower, if_pos lower, same _ fun j less => by omega]
      · rw [if_neg lower, if_neg lower]
  constructor
  · intro index below least
    have known := written (words - 1 - index) (by omega)
    rw [show words - 1 - (words - 1 - index) = index by omega] at known
    exact known
  · intro address outside
    exact kept address fun i below => by omega

theorem tcShiftLeft_parts (dst words count : Nat) (memory : Memory 64) (shifts : count ≠ 0) :
    let wordShift := min (count / 64) words
    (∀ index < wordShift, tcShiftLeft dst words count memory (dst + index) = 0) ∧
      (∀ index < words, wordShift ≤ index → tcShiftLeft dst words count memory (dst + index) =
        if count % 64 = 0 then memory (dst + (index - wordShift))
        else shiftedLeft dst wordShift (count % 64) index memory) ∧
      ∀ address, address < dst ∨ dst + words ≤ address → tcShiftLeft dst words count memory address =
        memory address := by
  intro wordShift
  have most : wordShift ≤ words := Nat.min_le_right _ _
  unfold tcShiftLeft
  rw [if_neg shifts]
  change (∀ index < wordShift, clear dst wordShift _ _ = _) ∧ (∀ index < words, _ → clear dst wordShift _ _ = _) ∧
    ∀ address, _ → clear dst wordShift _ _ = _
  refine ⟨fun index below => clear_inside _ below, ?_, ?_⟩
  · intro index below least
    rw [clear_outside _ (.inr (Nat.add_le_add_left least dst))]
    by_cases whole : count % 64 = 0
    · rw [if_pos whole, if_pos whole]
      have moved := @memmove_inside (dst + wordShift) dst _ (index - wordShift) memory
        (Nat.sub_lt_sub_right least below)
      rw [show dst + wordShift + (index - wordShift) = dst + index by omega] at moved
      exact moved
    · rw [if_neg whole, if_neg whole]
      exact (shiftLeftLoop_spec memory most).1 index below least
  · intro address outside
    rw [clear_outside _ (by omega)]
    by_cases whole : count % 64 = 0
    · rw [if_pos whole, memmove_outside _ (by omega)]
    · rw [if_neg whole]
      exact (shiftLeftLoop_spec memory most).2 address (by omega)

theorem shiftLeft_bit {dst words count bit : Nat} (memory : Memory 64) (shifts : count ≠ 0)
    (inside : bit < 64 * words) :
    (tcShiftLeft dst words count memory (dst + bit / 64)).getLsbD (bit % 64) =
      (decide (count ≤ bit) && (memory (dst + (bit - count) / 64)).getLsbD ((bit - count) % 64)) := by
  obtain ⟨cleared, moved, _⟩ := tcShiftLeft_parts dst words count memory shifts
  by_cases low : bit / 64 < min (count / 64) words
  · rw [cleared _ low, decide_eq_false (by omega), Bool.false_and]
    exact getLsbD_zero
  · have wordShift : min (count / 64) words = count / 64 := by omega
    rw [moved _ (by omega) (Nat.le_of_not_lt low), wordShift]
    by_cases whole : count % 64 = 0
    · have above : count ≤ bit := by omega
      rw [if_pos whole, decide_eq_true above, Bool.true_and,
        show bit / 64 - count / 64 = (bit - count) / 64 by omega,
        show bit % 64 = (bit - count) % 64 by omega]
    · rw [if_neg whole]
      have own : ∀ part : WordType, (part <<< (count % 64)).getLsbD (bit % 64) =
          (decide (count % 64 ≤ bit % 64) && part.getLsbD (bit % 64 - count % 64)) := by
        intro part
        rw [getLsbD_shiftLeft, decide_eq_true (Nat.mod_lt bit (by decide)), Bool.true_and,
          ← decide_not, decide_eq_decide.mpr Nat.not_lt]
      unfold shiftedLeft
      by_cases upper : count % 64 ≤ bit % 64
      · -- the bit comes from the part itself
        have above : count ≤ bit := by omega
        have none : ∀ part : WordType, (part >>> (64 - count % 64)).getLsbD (bit % 64) = false := by
          intro part
          rw [getLsbD_ushiftRight]
          exact getLsbD_of_ge _ _ (by omega)
        rw [decide_eq_true above, Bool.true_and, show (bit - count) / 64 = bit / 64 - count / 64 by omega,
          show (bit - count) % 64 = bit % 64 - count % 64 by omega]
        by_cases lower : count / 64 < bit / 64
        · rw [if_pos lower, getLsbD_or, own, none, Bool.or_false, decide_eq_true upper, Bool.true_and]
        · rw [if_neg lower, own, decide_eq_true upper, Bool.true_and]
      · by_cases lower : count / 64 < bit / 64
        · have above : count ≤ bit := by omega
          rw [if_pos lower, getLsbD_or, own, decide_eq_false upper, Bool.false_and, Bool.false_or,
            getLsbD_ushiftRight, decide_eq_true above, Bool.true_and,
            show (bit - count) / 64 = bit / 64 - count / 64 - 1 by omega,
            show (bit - count) % 64 = 64 - count % 64 + bit % 64 by omega]
        · rw [if_neg lower, own, decide_eq_false upper, decide_eq_false (by omega), Bool.false_and,
            Bool.false_and]

theorem tcShiftLeft_value (dst words count : Nat) (memory : Memory 64) :
    numberAt (tcShiftLeft dst words count memory) dst words =
      numberAt memory dst words * 2 ^ count % 2 ^ (64 * words) := by
  by_cases shifts : count = 0
  · rw [shifts, pow_zero, Nat.mul_one, Nat.mod_eq_of_lt (number_lt memory dst words)]
    rfl
  · apply Nat.eq_of_testBit_eq
    intro bit
    rw [number_testBit (by decide), Nat.testBit_mod_two_pow, Nat.testBit_mul_two_pow, number_testBit (by decide)]
    by_cases inside : bit < 64 * words
    · rw [shiftLeft_bit memory shifts inside, decide_eq_true (by omega : bit - count < 64 * words), Bool.true_and]
    · rw [decide_eq_false inside, Bool.false_and, Bool.false_and]

theorem tcShiftLeft_frame {dst words address : Nat} (count : Nat) (memory : Memory 64)
    (away : ∀ i < words, address ≠ dst + i) : tcShiftLeft dst words count memory address = memory address := by
  by_cases shifts : count = 0
  · unfold tcShiftLeft
    rw [if_pos shifts]
  · apply (tcShiftLeft_parts dst words count memory shifts).2.2
    by_contra inside
    push Not at inside
    exact away (address - dst) (by omega) (by omega)

theorem shiftRightLoop_spec {dst words wordShift bitShift : Nat} (memory : Memory 64) (most : wordShift ≤ words) :
    let after := forEach (fun i => dst + i) (shiftedRight dst wordShift bitShift (words - wordShift))
      (words - wordShift) memory
    (∀ index < words - wordShift,
        after (dst + index) = shiftedRight dst wordShift bitShift (words - wordShift) index memory) ∧
      ∀ address, address < dst ∨ dst + (words - wordShift) ≤ address → after address = memory address := by
  intro after
  -- the parts are written upwards, and a part is made of itself and of higher ones
  obtain ⟨written, kept⟩ := forEach_spec (fun i => dst + i)
    (shiftedRight dst wordShift bitShift (words - wordShift))
    (fun i => shiftedRight dst wordShift bitShift (words - wordShift) i memory) memory (words - wordShift)
    (fun i j less below => by omega) fun i below now same => by
      unfold shiftedRight
      rw [same _ fun j less => by omega, same _ fun j less => by omega]
  constructor
  · intro index below
    exact written index below
  · intro address outside
    exact kept address fun i below => by omega

theorem tcShiftRight_parts (dst words count : Nat) (memory : Memory 64) (shifts : count ≠ 0) :
    let wordShift := min (count / 64) words
    (∀ index < words, words - wordShift ≤ index → tcShiftRight dst words count memory (dst + index) = 0) ∧
      (∀ index < words - wordShift, tcShiftRight dst words count memory (dst + index) =
        if count % 64 = 0 then memory (dst + (index + wordShift))
        else shiftedRight dst wordShift (count % 64) (words - wordShift) index memory) ∧
      ∀ address, address < dst ∨ dst + words ≤ address → tcShiftRight dst words count memory address =
        memory address := by
  intro wordShift
  have most : wordShift ≤ words := Nat.min_le_right _ _
  unfold tcShiftRight
  rw [if_neg shifts]
  change (∀ index < words, _ → clear (dst + (words - wordShift)) wordShift _ _ = _) ∧
    (∀ index < words - wordShift, clear (dst + (words - wordShift)) wordShift _ _ = _) ∧
    ∀ address, _ → clear (dst + (words - wordShift)) wordShift _ _ = _
  refine ⟨?_, ?_, ?_⟩
  · intro index below least
    rw [show dst + index = dst + (words - wordShift) + (index - (words - wordShift)) by omega]
    exact clear_inside _ (by omega)
  · intro index below
    rw [clear_outside _ (by omega)]
    by_cases whole : count % 64 = 0
    · rw [if_pos whole, if_pos whole, Nat.add_comm index, ← Nat.add_assoc]
      exact memmove_inside memory below
    · rw [if_neg whole, if_neg whole]
      exact (shiftRightLoop_spec memory most).1 index below
  · intro address outside
    rw [clear_outside _ (by omega)]
    by_cases whole : count % 64 = 0
    · rw [if_pos whole, memmove_outside _ (by omega)]
    · rw [if_neg whole]
      exact (shiftRightLoop_spec memory most).2 address (by omega)

theorem shiftRight_bit {dst words count bit : Nat} (memory : Memory 64) (shifts : count ≠ 0)
    (inside : bit < 64 * words) :
    (tcShiftRight dst words count memory (dst + bit / 64)).getLsbD (bit % 64) =
      (decide (bit + count < 64 * words) &&
      (memory (dst + (bit + count) / 64)).getLsbD ((bit + count) % 64)) := by
  obtain ⟨cleared, moved, _⟩ := tcShiftRight_parts dst words count memory shifts
  by_cases high : words - min (count / 64) words ≤ bit / 64
  · rw [cleared _ (by omega) high, decide_eq_false (by omega), Bool.false_and]
    exact getLsbD_zero
  · have wordShift : min (count / 64) words = count / 64 := by omega
    rw [moved _ (Nat.lt_of_not_le high), wordShift]
    rw [wordShift] at high
    by_cases whole : count % 64 = 0
    · rw [if_pos whole, decide_eq_true (by omega), Bool.true_and,
        show (bit + count) / 64 = bit / 64 + count / 64 by omega, show (bit + count) % 64 = bit % 64 by omega]
    · rw [if_neg whole]
      have own : ∀ part : WordType, (part >>> (count % 64)).getLsbD (bit % 64) =
          part.getLsbD (count % 64 + bit % 64) := fun part => getLsbD_ushiftRight part _ _
      unfold shiftedRight
      by_cases upper : count % 64 + bit % 64 < 64
      · -- the bit comes from the part itself
        have none : ∀ part : WordType, (part <<< (64 - count % 64)).getLsbD (bit % 64) = false := by
          intro part
          rw [getLsbD_shiftLeft, decide_eq_true (by omega : bit % 64 < 64 - count % 64), Bool.not_true,
            Bool.and_false, Bool.false_and]
        rw [decide_eq_true (by omega), Bool.true_and, show (bit + count) / 64 = bit / 64 + count / 64 by omega,
          show (bit + count) % 64 = count % 64 + bit % 64 by omega]
        by_cases more : bit / 64 + 1 ≠ words - count / 64
        · rw [if_pos more, getLsbD_or, own, none, Bool.or_false]
        · rw [if_neg more, own]
      · have beyond : ∀ part : WordType, part.getLsbD (count % 64 + bit % 64) = false := fun part =>
          getLsbD_of_ge _ _ (Nat.le_of_not_lt upper)
        by_cases more : bit / 64 + 1 ≠ words - count / 64
        · rw [if_pos more, getLsbD_or, own, beyond, Bool.false_or, getLsbD_shiftLeft,
            decide_eq_true (by omega : bit % 64 < 64), decide_eq_false (by omega : ¬ bit % 64 < 64 - count % 64),
            decide_eq_true (by omega), Bool.not_false, Bool.true_and, Bool.true_and,
            show (bit + count) / 64 = bit / 64 + count / 64 + 1 by omega,
            show (bit + count) % 64 = bit % 64 - (64 - count % 64) by omega, Bool.true_and]
        · rw [if_neg more, own, beyond, decide_eq_false (by omega), Bool.false_and]

theorem tcShiftRight_value (dst words count : Nat) (memory : Memory 64) :
    numberAt (tcShiftRight dst words count memory) dst words = numberAt memory dst words / 2 ^ count := by
  by_cases shifts : count = 0
  · rw [shifts, pow_zero, Nat.div_one]
    rfl
  · apply Nat.eq_of_testBit_eq
    intro bit
    rw [number_testBit (by decide), Nat.testBit_div_two_pow, number_testBit (by decide)]
    by_cases inside : bit < 64 * words
    · rw [shiftRight_bit memory shifts inside, decide_eq_true inside, Bool.true_and]
    · rw [decide_eq_false inside, decide_eq_false (by omega), Bool.false_and, Bool.false_and]

theorem tcShiftRight_frame {dst words address : Nat} (count : Nat) (memory : Memory 64)
    (away : ∀ i < words, address ≠ dst + i) : tcShiftRight dst words count memory address = memory address := by
  by_cases shifts : count = 0
  · unfold tcShiftRight
    rw [if_pos shifts]
  · apply (tcShiftRight_parts dst words count memory shifts).2.2
    by_contra inside
    push Not at inside
    exact away (address - dst) (by omega) (by omega)

end EvmBackend.APInt.Parts
