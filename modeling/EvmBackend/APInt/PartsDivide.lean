/-
Division of numbers in parts, one bit of the quotient in every round.

The divisor starts as far up as it fits and goes down one bit at a time. Before
every round the remainder is below twice the divisor, and the quotient has no bit
up to the one of the round.
-/

import EvmBackend.APInt.PartsShift

namespace EvmBackend.APInt.Parts

open WordMemory Option

theorem partMSB_spec {part : WordType} (nonzero : part ≠ 0) :
    2 ^ partMSB part ≤ part.toNat ∧ part.toNat < 2 ^ (partMSB part + 1) := by
  have most := getActiveBits_le part
  have positive : 0 < getActiveBits part := by
    by_contra none
    have below := (getActiveBits_le_iff part 0).mp (Nat.le_of_not_lt none)
    exact nonzero ((toNat_eq_zero_iff part).mp (Nat.lt_one_iff.mp below))
  have flip : ∀ leading : Fin 64, leading.val ^^^ 63 = 63 - leading.val := by decide
  have value : partMSB part = getActiveBits part - 1 := by
    have flipped := flip ⟨64 - getActiveBits part, by omega⟩
    change (64 - getActiveBits part) ^^^ 63 = 63 - (64 - getActiveBits part) at flipped
    unfold partMSB countLeadingZeros
    rw [flipped]
    omega
  rw [value, Nat.sub_add_cancel positive]
  constructor
  · have atLeast := (getActiveBits_le_iff part (getActiveBits part - 1)).not.mp (by omega)
    exact Nat.le_of_not_lt atLeast
  · exact (getActiveBits_le_iff part _).mp le_rfl

theorem tcMSB_zero {memory : Memory 64} {start parts : Nat} (positive : 0 < parts)
    (zero : numberAt memory start parts = 0) : tcMSB memory start parts = some (2 ^ 32 - 1) := by
  rw [number_eq_zero_iff] at zero
  induction parts with
  | zero => exact absurd positive (Nat.lt_irrefl 0)
  | succ parts ih =>
      rw [tcMSB, zero parts (Nat.lt_succ_self _), if_neg (by decide)]
      by_cases last : parts = 0
      · rw [if_pos last]
      · rw [if_neg last]
        exact ih (Nat.pos_of_ne_zero last) fun i below => zero i (below.trans (Nat.lt_succ_self _))

theorem tcMSB_spec {memory : Memory 64} {start parts : Nat} (nonzero : numberAt memory start parts ≠ 0) :
    ∃ bit, tcMSB memory start parts = some (u32 bit) ∧
      2 ^ bit ≤ numberAt memory start parts ∧ numberAt memory start parts < 2 ^ (bit + 1) := by
  induction parts with
  | zero => exact absurd rfl nonzero
  | succ parts ih =>
      have low := number_lt memory start parts
      rw [number_succ] at nonzero ⊢
      rw [tcMSB]
      by_cases top : memory (start + parts) = 0
      · have none := (toNat_eq_zero_iff _).mpr top
        rw [none, Nat.zero_mul, Nat.add_zero] at nonzero ⊢
        have some : parts ≠ 0 := by
          rintro rfl
          exact nonzero rfl
        rw [top, if_neg (by decide), if_neg some]
        exact ih nonzero
      · obtain ⟨least, most⟩ := partMSB_spec top
        rw [if_pos (bne_iff_ne.mpr top)]
        refine ⟨_, rfl, ?_, ?_⟩
        · rw [pow_add, Nat.mul_comm parts]
          exact (Nat.mul_le_mul_right _ least).trans (Nat.le_add_left _ _)
        · have words := Nat.mul_le_mul_right (2 ^ (64 * parts)) (Nat.succ_le_of_lt most)
          rw [Nat.succ_mul, ← pow_add] at words
          rw [Nat.mul_comm parts, Nat.add_right_comm]
          omega

/-! ### One round -/

theorem toNat_mask {bit : Nat} (below : bit < 64) : ((1 : WordType) <<< bit).toNat = 2 ^ bit :=
  BitVec.toNat_twoPow_of_lt below

theorem mask_down (shiftCount : Nat) :
    (((1 : WordType) <<< ((shiftCount + 1) % 64)) >>> 1 == 0) = decide ((shiftCount + 1) % 64 = 0) ∧
      ((shiftCount + 1) % 64 ≠ 0 →
        ((1 : WordType) <<< ((shiftCount + 1) % 64)) >>> 1 = (1 : WordType) <<< (shiftCount % 64)) := by
  have every : ∀ bit : Fin 64, (((1 : WordType) <<< bit.val) >>> 1 == 0) = decide (bit.val = 0) ∧
      (bit.val ≠ 0 → ((1 : WordType) <<< bit.val) >>> 1 = (1 : WordType) <<< (bit.val - 1)) := by decide
  obtain ⟨zero, down⟩ := every ⟨(shiftCount + 1) % 64, Nat.mod_lt _ (by decide)⟩
  refine ⟨zero, fun some => ?_⟩
  have less : (shiftCount + 1) % 64 - 1 = shiftCount % 64 := by
    omega
  exact (down some).trans (congrArg (fun bit => (1 : WordType) <<< bit) less)

theorem number_setBit {memory : Memory 64} {start parts bit : Nat} (inside : bit < 64 * parts)
    (unset : (numberAt memory start parts).testBit bit = false) :
    numberAt (Function.update memory (start + bit / 64)
      (memory (start + bit / 64) ||| (1 : WordType) <<< (bit % 64))) start parts =
      numberAt memory start parts + 2 ^ bit := by
  have offset := Nat.mod_lt bit (by decide : 0 < 64)
  rw [number_testBit (by decide), decide_eq_true inside, Bool.true_and] at unset
  have apart : memory (start + bit / 64) &&& BitVec.twoPow 64 (bit % 64) = 0#64 := by
    rw [BitVec.and_twoPow, unset, if_neg Bool.false_ne_true]
  have sum : (memory (start + bit / 64) ||| (1 : WordType) <<< (bit % 64)).toNat =
      (memory (start + bit / 64)).toNat + 2 ^ (bit % 64) := by
    rw [← toNat_mask offset]
    change (memory (start + bit / 64) ||| BitVec.twoPow 64 (bit % 64)).toNat = _
    rw [← BitVec.add_eq_or_of_and_eq_zero _ _ apart]
    exact BitVec.toNat_add_of_and_eq_zero apart
  have updated := @number_update 64 memory start parts (bit / 64)
    (memory (start + bit / 64) ||| (1 : WordType) <<< (bit % 64)) (by omega : bit / 64 < parts)
  have power : 2 ^ bit = 2 ^ (bit % 64) * 2 ^ (64 * (bit / 64)) := by
    rw [← pow_add, Nat.mod_add_div]
  rw [sum, Nat.add_mul, ← power] at updated
  omega

/-- The remainder is below the divisor shifted to the limit, the quotient has no bit below it. -/
structure Dividing (old divisor lhs remainder srhs parts shiftCount limit : Nat) (memory : Memory 64) : Prop where
  equation : old = divisor * numberAt memory lhs parts + numberAt memory remainder parts
  below : numberAt memory remainder parts < divisor * 2 ^ limit
  unset : numberAt memory lhs parts % 2 ^ limit = 0
  shifted : numberAt memory srhs parts = divisor * 2 ^ shiftCount

structure Operands (lhs remainder srhs parts : Nat) : Prop where
  quotient : Apart lhs parts remainder parts
  scratch : Apart lhs parts srhs parts
  rest : Apart remainder parts srhs parts

def Outside (lhs remainder srhs parts address : Nat) : Prop :=
  ∀ i < parts, address ≠ lhs + i ∧ address ≠ remainder + i ∧ address ≠ srhs + i

variable {old divisor lhs remainder srhs parts shiftCount : Nat} {memory : Memory 64}

section

variable (apart : Operands lhs remainder srhs parts)

include apart

theorem divideRound_spec (inside : shiftCount < 64 * parts)
    (holds : Dividing old divisor lhs remainder srhs parts shiftCount (shiftCount + 1) memory) :
    Dividing old divisor lhs remainder srhs parts shiftCount shiftCount
        (divideRound lhs remainder srhs parts (shiftCount / 64) ((1 : WordType) <<< (shiftCount % 64)) memory) ∧
      ∀ address, Outside lhs remainder srhs parts address →
        divideRound lhs remainder srhs parts (shiftCount / 64) ((1 : WordType) <<< (shiftCount % 64))
          memory address =
          memory address := by
  obtain ⟨quotientRest, quotientScratch, restScratch⟩ := apart
  have lower : numberAt memory lhs parts % 2 ^ shiftCount = 0 := by
    apply Nat.mod_eq_zero_of_dvd
    exact (Nat.pow_dvd_pow 2 (Nat.le_succ shiftCount)).trans (Nat.dvd_of_mod_eq_zero holds.unset)
  unfold divideRound
  by_cases large : 0 ≤ tcCompare memory remainder srhs parts
  · rw [if_pos large]
    rw [tcCompare_nonneg_iff, holds.shifted] at large
    obtain ⟨difference, kept⟩ := tcSubtract_spec false memory restScratch
    generalize tcSubtract remainder srhs false parts memory = subtracted at difference kept ⊢
    unfold Apart at quotientRest quotientScratch restScratch
    have quotient : numberAt subtracted.1 lhs parts = numberAt memory lhs parts :=
      number_congr fun i below => kept _ fun j within => by omega
    have scratch : numberAt subtracted.1 srhs parts = numberAt memory srhs parts :=
      number_congr fun i below => kept _ fun j within => by omega
    have less : numberAt memory remainder parts =
        numberAt subtracted.1 remainder parts + divisor * 2 ^ shiftCount := by
      have bound := number_lt subtracted.1 remainder parts
      rw [holds.shifted] at difference
      cases borrow : subtracted.2 with
      | false =>
          rw [borrow, Bool.toNat_false, Nat.mul_zero] at difference
          omega
      | true =>
          rw [borrow, Bool.toNat_true, Bool.toNat_false, Nat.mul_one] at difference
          omega
    have unset : (numberAt subtracted.1 lhs parts).testBit shiftCount = false := by
      have bits := Nat.testBit_mod_two_pow (numberAt memory lhs parts) (shiftCount + 1) shiftCount
      rw [holds.unset, Nat.zero_testBit, decide_eq_true (Nat.lt_succ_self shiftCount), Bool.true_and] at bits
      rw [quotient]
      exact bits.symm
    have set := number_setBit inside unset
    dsimp only
    refine ⟨⟨?_, ?_, ?_, ?_⟩, ?_⟩
    · rw [set, quotient, number_update_outside _ fun i below => by omega, holds.equation, less]
      ring
    · rw [number_update_outside _ fun i below => by omega]
      have bound := holds.below
      rw [pow_succ, ← Nat.mul_assoc] at bound
      omega
    · rw [set, quotient, Nat.add_mod_right]
      exact lower
    · rw [number_update_outside _ fun i below => by omega, scratch]
      exact holds.shifted
    · intro address outside
      rw [Function.update_of_ne (outside _ (by omega)).1]
      exact kept address fun i below => (outside i below).2.1
  · rw [if_neg large]
    rw [tcCompare_nonneg_iff, holds.shifted] at large
    exact ⟨⟨holds.equation, Nat.lt_of_not_le large, lower, holds.shifted⟩, fun _ _ => rfl⟩

theorem divideLoop_spec (inside : shiftCount < 64 * parts)
    (holds : Dividing old divisor lhs remainder srhs parts shiftCount (shiftCount + 1) memory) :
    Dividing old divisor lhs remainder srhs parts 0 0
        (divideLoop lhs remainder srhs parts shiftCount (shiftCount / 64)
        ((1 : WordType) <<< (shiftCount % 64)) memory) ∧
      ∀ address, Outside lhs remainder srhs parts address →
        divideLoop lhs remainder srhs parts shiftCount (shiftCount / 64)
          ((1 : WordType) <<< (shiftCount % 64)) memory address =
          memory address := by
  induction shiftCount generalizing memory with
  | zero => exact divideRound_spec apart inside holds
  | succ shiftCount ih =>
      obtain ⟨divided, kept⟩ := divideRound_spec apart inside holds
      unfold divideLoop
      generalize divideRound lhs remainder srhs parts ((shiftCount + 1) / 64)
        ((1 : WordType) <<< ((shiftCount + 1) % 64)) memory =
        now at divided kept
      obtain ⟨quotientRest, quotientScratch, restScratch⟩ := apart
      unfold Apart at quotientRest quotientScratch restScratch
      have next : Dividing old divisor lhs remainder srhs parts shiftCount (shiftCount + 1)
          (tcShiftRight srhs parts 1 now) := by
        have quotient : numberAt (tcShiftRight srhs parts 1 now) lhs parts = numberAt now lhs parts :=
          number_congr fun i below => tcShiftRight_frame 1 now fun j within => by omega
        have rest : numberAt (tcShiftRight srhs parts 1 now) remainder parts = numberAt now remainder parts :=
          number_congr fun i below => tcShiftRight_frame 1 now fun j within => by omega
        refine ⟨?_, ?_, ?_, ?_⟩
        · rw [quotient, rest]
          exact divided.equation
        · rw [rest]
          exact divided.below
        · rw [quotient]
          exact divided.unset
        · rw [tcShiftRight_value, divided.shifted, pow_succ, pow_one, ← Nat.mul_assoc]
          exact Nat.mul_div_cancel _ (by decide)
      obtain ⟨done, same⟩ := ih (Nat.lt_of_succ_lt inside) next
      have frame : ∀ address, Outside lhs remainder srhs parts address →
          tcShiftRight srhs parts 1 now address = memory address := by
        intro address outside
        rw [tcShiftRight_frame 1 now fun i below => (outside i below).2.2]
        exact kept address outside
      have mask := mask_down shiftCount
      dsimp only
      rw [mask.1]
      by_cases word : (shiftCount + 1) % 64 = 0
      · rw [if_pos (decide_eq_true word), show (shiftCount + 1) / 64 - 1 = shiftCount / 64 by omega,
          show 64 - 1 = shiftCount % 64 by omega]
        exact ⟨done, fun address outside => (same address outside).trans (frame address outside)⟩
      · rw [if_neg (by rw [decide_eq_true_eq]; exact word), mask.2 word,
          show (shiftCount + 1) / 64 = shiftCount / 64 by omega]
        exact ⟨done, fun address outside => (same address outside).trans (frame address outside)⟩

/-! ### The division -/

theorem tcDivide_zero {rhs : Nat} (positive : 0 < parts)
    (zero : numberAt memory rhs parts = 0) :
      tcDivide lhs rhs remainder srhs parts memory = some (memory, true) := by
  obtain ⟨quotientRest, quotientScratch, restScratch⟩ := apart
  unfold Apart at quotientRest quotientScratch restScratch
  unfold tcDivide
  dsimp only [bind, pure]
  rw [(guard_eq_some' ()).mpr (by omega), bind_some, tcMSB_zero positive zero, bind_some]
  rfl

theorem tcDivide_spec {rhs : Nat}
    (source : srhs ≤ rhs ∨ rhs + parts ≤ srhs) (bounded : 64 * parts < 2 ^ 32)
    (nonzero : numberAt memory rhs parts ≠ 0) :
    ∃ after, tcDivide lhs rhs remainder srhs parts memory = some (after, false) ∧
      numberAt memory lhs parts =
        numberAt memory rhs parts * numberAt after lhs parts + numberAt after remainder parts ∧
      numberAt after remainder parts < numberAt memory rhs parts ∧
      ∀ address, Outside lhs remainder srhs parts address → after address = memory address := by
  have positive : 0 < parts := Nat.pos_of_ne_zero fun none => nonzero (by rw [none]; rfl)
  obtain ⟨bit, highest, least, most⟩ := tcMSB_spec nonzero
  have inside : bit < 64 * parts := by
    have fits := least.trans_lt (number_lt memory rhs parts)
    exact (Nat.pow_lt_pow_iff_right (by decide)).mp fits
  have top : u32 (u32 bit + 1) = bit + 1 := by
    unfold u32
    omega
  have shift : u32 (u32 (parts * 64) + 2 ^ 32 - (bit + 1)) = 64 * parts - (bit + 1) := by
    unfold u32
    omega
  have power : 2 ^ (64 * parts) = 2 ^ (bit + 1) * 2 ^ (64 * parts - (bit + 1)) := by
    rw [← pow_add, Nat.add_sub_cancel' (Nat.succ_le_of_lt inside)]
  obtain ⟨quotientRest, quotientScratch, restScratch⟩ := apart
  have apart : Operands lhs remainder srhs parts := ⟨quotientRest, quotientScratch, restScratch⟩
  unfold Apart at quotientRest quotientScratch restScratch
  -- the copies the loop starts with
  obtain ⟨copied, copyFrame⟩ := tcAssign_spec memory source
  have moved := tcShiftLeft_value srhs parts (64 * parts - (bit + 1)) (tcAssign srhs rhs parts memory)
  have moveFrame : ∀ address, (∀ i < parts, address ≠ srhs + i) →
      tcShiftLeft srhs parts (64 * parts - (bit + 1)) (tcAssign srhs rhs parts memory) address =
        memory address := by
    intro address away
    rw [tcShiftLeft_frame _ _ away]
    exact copyFrame address away
  generalize shifting : tcShiftLeft srhs parts (64 * parts - (bit + 1)) (tcAssign srhs rhs parts memory) =
    scratched
    at moved moveFrame
  obtain ⟨rest, restFrame⟩ := @tcAssign_spec remainder lhs parts scratched (by omega)
  generalize assigned : tcAssign remainder lhs parts scratched = started at rest restFrame
  obtain ⟨cleared, set, zero, clearFrame⟩ := tcSet_spec lhs 0 positive started
  have shifted : numberAt scratched srhs parts = numberAt memory rhs parts * 2 ^ (64 * parts - (bit + 1)) := by
    rw [moved, copied]
    apply Nat.mod_eq_of_lt
    rw [power]
    exact Nat.mul_lt_mul_of_pos_right most (Nat.two_pow_pos _)
  have holds : Dividing (numberAt memory lhs parts) (numberAt memory rhs parts) lhs remainder srhs parts
      (64 * parts - (bit + 1)) (64 * parts - (bit + 1) + 1) cleared := by
    have keptRest : numberAt cleared remainder parts = numberAt memory lhs parts := by
      rw [number_congr fun i below => clearFrame (remainder + i) fun j within => by omega, rest]
      exact number_congr fun i below => moveFrame _ fun j within => by omega
    have keptScratch : numberAt cleared srhs parts = numberAt scratched srhs parts := by
      rw [number_congr fun i below => clearFrame (srhs + i) fun j within => by omega]
      exact number_congr fun i below => restFrame _ fun j within => by omega
    refine ⟨?_, ?_, ?_, ?_⟩
    · rw [zero, keptRest]
      exact (Nat.zero_add _).symm
    · rw [keptRest]
      apply (number_lt memory lhs parts).trans_le
      have double : 2 ^ (64 * parts) = 2 ^ bit * 2 ^ (64 * parts - (bit + 1) + 1) := by
        rw [← pow_add]
        congr 1
        omega
      rw [double]
      exact Nat.mul_le_mul_right _ least
    · rw [zero]
      exact Nat.zero_mod _
    · rw [keptScratch]
      exact shifted
  obtain ⟨done, frame⟩ := divideLoop_spec apart (by omega) holds
  refine ⟨_, ?_, done.equation, ?_, ?_⟩
  · unfold tcDivide
    dsimp only [bind, pure]
    rw [(guard_eq_some' ()).mpr (by omega), bind_some, highest, bind_some, top,
      if_neg (Nat.succ_ne_zero bit), shift, shifting, assigned, set]
    rfl
  · have below := done.below
    rw [pow_zero, Nat.mul_one] at below
    exact below
  · intro address outside
    rw [frame address outside, clearFrame address fun i below => (outside i below).1,
      restFrame address fun i below => (outside i below).2.1]
    exact moveFrame address fun i below => (outside i below).2.2

end

/-- Products and quotients of any number of parts are exact, and nothing but the results is written. -/
theorem parts_arithmetic_exact :
    (∀ (dst src : Nat) (multiplier carry : WordType) (srcParts dstParts : Nat) (add : Bool) (memory : Memory 64),
      dst ≤ src ∨ src + srcParts ≤ dst → dstParts ≤ srcParts + 1 → srcParts + 1 < 2 ^ 32 →
        ∃ after overflow,
          tcMultiplyPart dst src multiplier carry srcParts dstParts add memory = some (after, overflow) ∧
            Leaves memory dst dstParts (numberAt memory src srcParts * multiplier.toNat + carry.toNat +
              if add then numberAt memory dst (min dstParts srcParts) else 0) after overflow ∧
            (dstParts = srcParts + 1 → overflow = false)) ∧
      (∀ (dst lhs rhs parts : Nat) (memory : Memory 64), 0 < parts → parts + 1 < 2 ^ 32 →
        Apart dst parts lhs parts → Apart dst parts rhs parts →
          ∃ after overflow, tcMultiply dst lhs rhs parts memory = some (after, overflow) ∧
            Leaves memory dst parts (numberAt memory lhs parts * numberAt memory rhs parts) after overflow) ∧
      (∀ (dst lhs rhs lhsParts rhsParts : Nat) (memory : Memory 64), 0 < lhsParts + rhsParts →
        lhsParts + 1 < 2 ^ 32 → rhsParts + 1 < 2 ^ 32 → Apart dst (lhsParts + rhsParts) lhs lhsParts →
          Apart dst (lhsParts + rhsParts) rhs rhsParts → dst ≠ lhs ∧ dst ≠ rhs →
            ∃ after, tcFullMultiply dst lhs rhs lhsParts rhsParts memory = some after ∧
              numberAt after dst (lhsParts + rhsParts) =
                numberAt memory lhs lhsParts * numberAt memory rhs rhsParts ∧
              ∀ address, (∀ i < lhsParts + rhsParts, address ≠ dst + i) → after address = memory address) ∧
      ∀ (lhs rhs remainder srhs parts : Nat) (memory : Memory 64), Operands lhs remainder srhs parts →
        0 < parts → 64 * parts < 2 ^ 32 → srhs ≤ rhs ∨ rhs + parts ≤ srhs →
          (numberAt memory rhs parts = 0 → tcDivide lhs rhs remainder srhs parts memory = some (memory, true)) ∧
            (numberAt memory rhs parts ≠ 0 →
              ∃ after, tcDivide lhs rhs remainder srhs parts memory = some (after, false) ∧
                numberAt memory lhs parts =
                  numberAt memory rhs parts * numberAt after lhs parts + numberAt after remainder parts ∧
                numberAt after remainder parts < numberAt memory rhs parts ∧
                ∀ address, Outside lhs remainder srhs parts address → after address = memory address) := by
  refine ⟨?_, ?_, ?_, ?_⟩
  · intro dst src multiplier carry srcParts dstParts add memory apart parts bounded
    obtain ⟨after, overflow, ran, leaves⟩ := @tcMultiplyPart_spec dst src multiplier carry srcParts dstParts add
      memory apart parts bounded
    refine ⟨after, overflow, ran, leaves, ?_⟩
    rintro rfl
    exact (leaves.of_whole (rowValue_lt dst src multiplier carry srcParts add memory)).2
  · intro dst lhs rhs parts memory positive bounded left right
    exact tcMultiply_spec memory positive bounded left right
  · intro dst lhs rhs lhsParts rhsParts memory positive leftBound rightBound left right distinct
    exact tcFullMultiply_spec memory positive leftBound rightBound left right distinct
  · intro lhs rhs remainder srhs parts memory apart positive bounded source
    exact ⟨tcDivide_zero apart positive, tcDivide_spec apart source bounded⟩

def fiveAndThree : Memory 64 := fun address => if address = 0 then 5 else if address = 2 then 3 else 0

theorem parts_arithmetic_fiveAndThree :
    ∃ after, tcDivide 0 2 4 6 2 fiveAndThree = some (after, false) ∧
      numberAt fiveAndThree 0 2 = numberAt fiveAndThree 2 2 * numberAt after 0 2 + numberAt after 4 2 ∧
      numberAt after 4 2 < numberAt fiveAndThree 2 2 ∧
      ∀ address, Outside 0 4 6 2 address → after address = fiveAndThree address := by
  have divides := (parts_arithmetic_exact.2.2.2 0 2 4 6 2 fiveAndThree
    ⟨.inl (by decide), .inl (by decide), .inl (by decide)⟩ (by decide) (by decide) (.inr (by decide))).2
  exact divides (by decide)

/-- The top part is written over, the highest bit number is the answer for no bit, and the
number of parts after the last is no number. -/
theorem parts_arithmetic_limits :
    (∃ memory after : Memory 64, tcMultiplyPart 0 2 1 0 1 2 true memory = some (after, false) ∧
      numberAt after 0 2 ≠ (numberAt memory 0 2 + numberAt memory 2 1 * 1 + 0) % 2 ^ (64 * 2)) ∧
    (∃ memory : Memory 64, numberAt memory (2 ^ 26) (2 ^ 26) ≠ 0 ∧
      tcDivide 0 (2 ^ 26) (2 ^ 27) (2 ^ 28) (2 ^ 26) memory = some (memory, true)) ∧
    tcMultiply 0 (2 ^ 33) (2 ^ 34) (2 ^ 32 - 1) (fun _ => 0) = none := by
  refine ⟨?_, ?_, ?_⟩
  · let memory : Memory 64 := fun address => if address = 1 then 5 else if address = 2 then 1 else 0
    obtain ⟨after, overflow, ran, leaves⟩ := @tcMultiplyPart_spec 0 2 1 0 1 2 true memory (by decide)
      (by decide) (by decide)
    have small : rowValue 0 2 1 0 1 2 true memory < 2 ^ (64 * 2) := by decide
    obtain ⟨value, fits⟩ := leaves.of_whole small
    refine ⟨memory, after, by rw [ran, fits], ?_⟩
    rw [value]
    decide
  · let memory : Memory 64 := fun address => if address = 2 ^ 26 + (2 ^ 26 - 1) then (1 : WordType) <<< 63 else 0
    have top : memory (2 ^ 26 + (2 ^ 26 - 1)) = (1 : WordType) <<< 63 := if_pos rfl
    refine ⟨memory, ?_, ?_⟩
    · rw [Ne, number_eq_zero_iff]
      intro none
      have zero := none (2 ^ 26 - 1) (by norm_num)
      rw [top] at zero
      exact absurd zero (by decide)
    · have bit : partMSB ((1 : WordType) <<< 63) = 63 := by decide
      have highest : tcMSB memory (2 ^ 26) (2 ^ 26 - 1 + 1) = some (u32 (63 + (2 ^ 26 - 1) * 64)) := by
        rw [tcMSB, top, bit, if_pos (by decide)]
      rw [show 2 ^ 26 - 1 + 1 = 2 ^ 26 by norm_num, show u32 (63 + (2 ^ 26 - 1) * 64) =
        2 ^ 32 - 1 by norm_num [u32]]
        at highest
      unfold tcDivide
      dsimp only [bind, pure]
      rw [(guard_eq_some' ()).mpr (by norm_num), bind_some, highest, bind_some,
        if_pos (by norm_num [u32])]
  · obtain ⟨cleared, set, _, _⟩ := tcSet_spec 0 0 (by norm_num : 0 < 2 ^ 32 - 1) fun _ => 0
    unfold tcMultiply
    dsimp only [bind, pure]
    rw [(guard_eq_some' ()).mpr (by norm_num), bind_some, set, bind_some]
    apply foldlM_range_none (by norm_num)
    unfold multiplyRow
    rw [tcMultiplyPart_none (.inl (Nat.zero_le _)) (by norm_num [u32])]
    rfl

end EvmBackend.APInt.Parts
