/-
The products of numbers in parts.

A round keeps one equation modulo two parts, which is exact because both sides
fit: the product of two parts, the part that is added and the carry. The rounds
then have one equation between the numbers, and the rows of a product another.
-/

import EvmBackend.APInt.Parts
import Mathlib.Data.Nat.ModEq
import Mathlib.Tactic.LinearCombination

namespace EvmBackend.APInt.Parts

open WordMemory Option Function

def pairValue (pair : WordType × WordType) : Nat := pair.1.toNat + 2 ^ 64 * pair.2.toNat

theorem pairValue_lt (pair : WordType × WordType) : pairValue pair < 2 ^ 128 := by
  have low := pair.1.isLt
  have high := pair.2.isLt
  unfold pairValue
  omega

theorem toNat_lowHalf (part : WordType) : (lowHalf part).toNat = part.toNat % 2 ^ 32 := by
  have mask : lowBitMask (64 / 2) = BitVec.ofNat 64 (2 ^ 32 - 1) := by decide
  rw [lowHalf, mask, BitVec.toNat_and, BitVec.toNat_ofNat, Nat.mod_eq_of_lt (by decide : 2 ^ 32 - 1 < 2 ^ 64),
    Nat.and_two_pow_sub_one_eq_mod]

theorem toNat_highHalf (part : WordType) : (highHalf part).toNat = part.toNat / 2 ^ 32 := by
  rw [highHalf, BitVec.toNat_ushiftRight, Nat.shiftRight_eq_div_pow]

theorem toNat_mul_halves {left right : WordType} (small : left.toNat < 2 ^ 32) (other : right.toNat < 2 ^ 32) :
    (left * right).toNat = left.toNat * right.toNat := by
  have product := Nat.mul_le_mul (Nat.le_sub_one_of_lt small) (Nat.le_sub_one_of_lt other)
  rw [BitVec.toNat_mul]
  apply Nat.mod_eq_of_lt
  omega

/-! ### One round -/

theorem addTo_value (low high addend : WordType) :
    pairValue (addTo low high addend) ≡ pairValue (low, high) + addend.toNat [MOD 2 ^ 128] := by
  have lowBound := low.isLt
  have addendBound := addend.isLt
  unfold addTo pairValue Nat.ModEq
  by_cases wraps : low + addend < low
  · rw [if_pos wraps]
    rw [BitVec.lt_def, BitVec.toNat_add] at wraps
    have one : (1 : WordType).toNat = 1 := rfl
    simp only [BitVec.toNat_add, one]
    omega
  · rw [if_neg wraps]
    rw [BitVec.lt_def, BitVec.toNat_add] at wraps
    simp only [BitVec.toNat_add]
    omega

theorem addMiddle_value (low high mid : WordType) :
    pairValue (addTo low (high + highHalf mid) (mid <<< (64 / 2))) ≡
      pairValue (low, high) + 2 ^ 32 * mid.toNat [MOD 2 ^ 128] := by
  apply (addTo_value low (high + highHalf mid) (mid <<< (64 / 2))).trans
  unfold pairValue Nat.ModEq
  simp only [BitVec.toNat_add, toNat_highHalf, BitVec.toNat_shiftLeft, Nat.shiftLeft_eq]
  omega

theorem partProduct_value (srcPart multiplier carry : WordType) :
    pairValue (partProduct srcPart multiplier carry) = srcPart.toNat * multiplier.toNat + carry.toNat := by
  unfold partProduct
  by_cases none : (multiplier == 0 || srcPart == 0) = true
  · rw [if_pos none]
    have product : srcPart.toNat * multiplier.toNat = 0 := by
      rw [Bool.or_eq_true, beq_iff_eq, beq_iff_eq] at none
      rcases none with rfl | rfl
      · exact Nat.mul_zero _
      · exact Nat.zero_mul _
    rw [product, Nat.zero_add]
    rfl
  · rw [if_neg none]
    have srcBound := srcPart.isLt
    have multiplierBound := multiplier.isLt
    have lows := toNat_lowHalf srcPart
    have highs := toNat_highHalf srcPart
    have lowm := toNat_lowHalf multiplier
    have highm := toNat_highHalf multiplier
    have lowsSmall : (lowHalf srcPart).toNat < 2 ^ 32 := by omega
    have highsSmall : (highHalf srcPart).toNat < 2 ^ 32 := by omega
    have lowmSmall : (lowHalf multiplier).toNat < 2 ^ 32 := by omega
    have highmSmall : (highHalf multiplier).toNat < 2 ^ 32 := by omega
    -- the halves of the two parts and their four products
    have src : srcPart.toNat = (lowHalf srcPart).toNat + 2 ^ 32 * (highHalf srcPart).toNat := by omega
    have mul : multiplier.toNat = (lowHalf multiplier).toNat + 2 ^ 32 * (highHalf multiplier).toNat := by omega
    have first := addMiddle_value (lowHalf srcPart * lowHalf multiplier) (highHalf srcPart * highHalf multiplier)
      (lowHalf srcPart * highHalf multiplier)
    generalize firstSum : addTo (lowHalf srcPart * lowHalf multiplier)
      (highHalf srcPart * highHalf multiplier + highHalf (lowHalf srcPart * highHalf multiplier))
      ((lowHalf srcPart * highHalf multiplier) <<< (64 / 2)) = sum at first
    have second := addMiddle_value sum.1 sum.2 (highHalf srcPart * lowHalf multiplier)
    generalize secondSum : addTo sum.1 (sum.2 + highHalf (highHalf srcPart * lowHalf multiplier))
      ((highHalf srcPart * lowHalf multiplier) <<< (64 / 2)) = whole at second
    have third := addTo_value whole.1 whole.2 carry
    simp only [firstSum, secondSum]
    have fits : srcPart.toNat * multiplier.toNat + carry.toNat < 2 ^ 128 := by
      have carryBound := carry.isLt
      have product := Nat.mul_le_mul (Nat.le_sub_one_of_lt srcBound) (Nat.le_sub_one_of_lt multiplierBound)
      omega
    apply Nat.ModEq.eq_of_lt_of_lt _ (pairValue_lt _) fits
    apply third.trans
    apply Nat.ModEq.add_right
    apply second.trans
    apply (first.add_right _).trans
    rw [toNat_mul_halves lowsSmall highmSmall, toNat_mul_halves highsSmall lowmSmall, src, mul]
    unfold pairValue
    rw [toNat_mul_halves lowsSmall lowmSmall, toNat_mul_halves highsSmall highmSmall]
    unfold Nat.ModEq
    congr 1
    ring

def addend (add : Bool) (part : WordType) : WordType := if add then part else 0

theorem roundPair_value (srcPart multiplier carry old : WordType) (add : Bool) :
    pairValue (if add then addTo (partProduct srcPart multiplier carry).1
        (partProduct srcPart multiplier carry).2 old else partProduct srcPart multiplier carry) =
      srcPart.toNat * multiplier.toNat + carry.toNat + (addend add old).toNat := by
  have product := partProduct_value srcPart multiplier carry
  cases add with
  | false => exact product
  | true =>
      have sum := addTo_value (partProduct srcPart multiplier carry).1
        (partProduct srcPart multiplier carry).2 old
      rw [show pairValue ((partProduct srcPart multiplier carry).1, (partProduct srcPart multiplier carry).2) = _
        from product] at sum
      apply Nat.ModEq.eq_of_lt_of_lt sum (pairValue_lt _)
      have oldBound := old.isLt
      have bound := Nat.mul_le_mul (Nat.le_sub_one_of_lt srcPart.isLt) (Nat.le_sub_one_of_lt multiplier.isLt)
      omega

section Rounds

variable (dst src : Nat) (multiplier carry : WordType) (add : Bool) (memory : Memory 64)

def rounds (count : Nat) : Memory 64 × WordType :=
  (List.range count).foldl (multiplyRound dst src multiplier add) (memory, carry)

def added (count : Nat) : Nat := if add then numberAt memory dst count else 0

theorem rounds_succ (count : Nat) :
    rounds dst src multiplier carry add memory (count + 1) =
      multiplyRound dst src multiplier add (rounds dst src multiplier carry add memory count) count := by
  unfold rounds
  rw [List.range_succ, List.foldl_append]
  rfl

theorem added_succ (count : Nat) :
    added dst add memory (count + 1) =
      added dst add memory count + (addend add (memory (dst + count))).toNat * 2 ^ (64 * count) := by
  cases add with
  | false => simp [added, addend]
  | true => rfl

variable {dst src multiplier carry add memory}

theorem rounds_spec {srcParts count : Nat} (apart : dst ≤ src ∨ src + srcParts ≤ dst) (small : count ≤ srcParts) :
    numberAt (rounds dst src multiplier carry add memory count).1 dst count +
        (rounds dst src multiplier carry add memory count).2.toNat * 2 ^ (64 * count) =
      numberAt memory src count * multiplier.toNat + carry.toNat + added dst add memory count ∧
    ∀ address, (∀ i < count, address ≠ dst + i) →
      (rounds dst src multiplier carry add memory count).1 address = memory address := by
  induction count with
  | zero =>
      constructor
      · simp [rounds, numberAt, added]
      · intro address _
        rfl
  | succ count ih =>
      obtain ⟨equation, kept⟩ := ih (Nat.le_of_succ_le small)
      rw [rounds_succ]
      generalize rounds dst src multiplier carry add memory count = state at equation kept ⊢
      have source : state.1 (src + count) = memory (src + count) := kept _ fun i below => by omega
      have destination : state.1 (dst + count) = memory (dst + count) := kept _ fun i below => by omega
      have round := roundPair_value (memory (src + count)) multiplier state.2 (memory (dst + count)) add
      generalize pair : (if add then addTo (partProduct (memory (src + count)) multiplier state.2).1
        (partProduct (memory (src + count)) multiplier state.2).2 (memory (dst + count))
        else partProduct (memory (src + count)) multiplier state.2) = result at round
      have next : multiplyRound dst src multiplier add state count =
          (update state.1 (dst + count) result.1, result.2) := by
        unfold multiplyRound
        rw [source, destination, ← pair]
      rw [next]
      dsimp only
      constructor
      · rw [number_succ, number_succ, added_succ, two_pow_succ]
        rw [update_self, number_update_outside _ fun i below => by omega]
        unfold pairValue at round
        linear_combination equation + 2 ^ (64 * count) * round
      · intro address away
        rw [update_of_ne (away count (Nat.lt_succ_self _))]
        exact kept address fun i below => away i (below.trans (Nat.lt_succ_self _))

end Rounds

/-! ### One row -/

/-- The low parts of a value are left, the flag is exact and nothing else is written. -/
structure Leaves (memory : Memory 64) (dst parts value : Nat) (after : Memory 64) (overflow : Bool) : Prop where
  low : numberAt after dst parts = value % 2 ^ (64 * parts)
  exact : overflow = true ↔ 2 ^ (64 * parts) ≤ value
  frame : ∀ address, (∀ i < parts, address ≠ dst + i) → after address = memory address

/-- What a row is to leave. The parts above the source are written and not added to. -/
def rowValue (dst src : Nat) (multiplier carry : WordType) (srcParts dstParts : Nat) (add : Bool)
    (memory : Memory 64) : Nat :=
  numberAt memory src srcParts * multiplier.toNat + carry.toNat + added dst add memory (min dstParts srcParts)

theorem added_lt (dst : Nat) (add : Bool) (memory : Memory 64) (count : Nat) :
    added dst add memory count < 2 ^ (64 * count) := by
  cases add with
  | false => exact Nat.two_pow_pos _
  | true => exact number_lt memory dst count

theorem rowValue_lt (dst src : Nat) (multiplier carry : WordType) (srcParts : Nat) (add : Bool)
    (memory : Memory 64) :
    rowValue dst src multiplier carry srcParts (srcParts + 1) add memory < 2 ^ (64 * (srcParts + 1)) := by
  have source := number_lt memory src srcParts
  have addition := added_lt dst add memory srcParts
  have carryBound := carry.isLt
  have product := Nat.mul_le_mul (Nat.le_sub_one_of_lt source) (Nat.le_sub_one_of_lt multiplier.isLt)
  unfold rowValue
  rw [Nat.min_eq_right (Nat.le_succ srcParts), two_pow_succ]
  have positive := Nat.two_pow_pos (64 * srcParts)
  generalize 2 ^ (64 * srcParts) = bound at *
  obtain ⟨less, rfl⟩ := Nat.exists_eq_add_of_le' positive
  rw [Nat.add_sub_cancel] at product
  omega

theorem any_part_iff (memory : Memory 64) (src dstParts srcParts : Nat) :
    ((List.range' dstParts (srcParts - dstParts)).any fun i => memory (src + i) != 0) = true ↔
      numberAt memory (src + dstParts) (srcParts - dstParts) ≠ 0 := by
  rw [Ne, number_eq_zero_iff, List.any_eq_true]
  push Not
  constructor
  · rintro ⟨i, member, nonzero⟩
    obtain ⟨low, high⟩ := List.mem_range'_1.mp member
    refine ⟨i - dstParts, by omega, ?_⟩
    rw [show src + dstParts + (i - dstParts) = src + i by omega]
    exact bne_iff_ne.mp nonzero
  · rintro ⟨i, below, nonzero⟩
    refine ⟨dstParts + i, List.mem_range'_1.mpr ⟨by omega, by omega⟩, ?_⟩
    rw [← Nat.add_assoc]
    exact bne_iff_ne.mpr nonzero

variable {dst src : Nat} {multiplier carry : WordType} {srcParts dstParts : Nat} {add : Bool} {memory : Memory 64}

theorem toNat_eq_zero_iff (part : WordType) : part.toNat = 0 ↔ part = 0 :=
  ⟨fun zero => BitVec.eq_of_toNat_eq zero, fun zero => congrArg BitVec.toNat zero⟩

theorem le_add_mul_iff {low bound high : Nat} (small : low < bound) : bound ≤ low + bound * high ↔ 0 < high := by
  constructor
  · intro large
    apply Nat.pos_of_ne_zero
    rintro rfl
    omega
  · intro positive
    exact (Nat.le_mul_of_pos_right bound positive).trans (Nat.le_add_left _ _)

theorem tcMultiplyPart_none (apart : dst ≤ src ∨ src + srcParts ≤ dst) (tooMany : u32 (srcParts + 1) < dstParts) :
    tcMultiplyPart dst src multiplier carry srcParts dstParts add memory = none := by
  have fails : (guard (dstParts ≤ u32 (srcParts + 1)) : Option Unit) = none := if_neg (Nat.not_le_of_lt tooMany)
  unfold tcMultiplyPart
  dsimp only [bind, pure]
  rw [(guard_eq_some' ()).mpr apart, bind_some, fails]
  rfl

theorem tcMultiplyPart_spec (apart : dst ≤ src ∨ src + srcParts ≤ dst) (parts : dstParts ≤ srcParts + 1)
    (bounded : srcParts + 1 < 2 ^ 32) :
    ∃ after overflow,
      tcMultiplyPart dst src multiplier carry srcParts dstParts add memory = some (after, overflow) ∧
        Leaves memory dst dstParts (rowValue dst src multiplier carry srcParts dstParts add memory) after
          overflow := by
  have next : u32 (srcParts + 1) = srcParts + 1 := Nat.mod_eq_of_lt bounded
  obtain ⟨equation, kept⟩ :=
    @rounds_spec dst src multiplier carry add memory srcParts (min dstParts srcParts) apart
    (Nat.min_le_right dstParts srcParts)
  unfold tcMultiplyPart rowValue
  rw [next]
  dsimp only [bind, pure]
  rw [(guard_eq_some' ()).mpr apart, bind_some, (guard_eq_some' ()).mpr parts,
    bind_some]
  change ∃ after overflow, (if srcParts < dstParts then _ else _) = _ ∧ _
  generalize found : rounds dst src multiplier carry add memory (min dstParts srcParts) = state at equation kept
  unfold rounds at found
  rw [found]
  by_cases full : srcParts < dstParts
  · obtain rfl : dstParts = srcParts + 1 := by omega
    have bound := rowValue_lt dst src multiplier carry srcParts add memory
    unfold rowValue at bound
    rw [Nat.min_eq_right (Nat.le_succ srcParts)] at equation kept bound ⊢
    rw [if_pos full, (guard_eq_some' ()).mpr rfl, bind_some]
    refine ⟨_, _, rfl, ?_, ?_, ?_⟩
    · rw [Nat.mod_eq_of_lt bound, number_succ, update_self,
        number_update_outside _ fun i below => by omega]
      exact equation
    · exact iff_of_false Bool.false_ne_true (Nat.not_le_of_lt bound)
    · intro address away
      rw [update_of_ne (away srcParts (Nat.lt_succ_self _))]
      exact kept address fun i below => away i (below.trans (Nat.lt_succ_self _))
  · have narrow : dstParts ≤ srcParts := Nat.le_of_not_lt full
    rw [if_neg full]
    rw [Nat.min_eq_left narrow] at equation kept ⊢
    have split := number_add memory src dstParts (srcParts - dstParts)
    rw [Nat.add_sub_cancel' narrow] at split
    have stored := number_lt state.1 dst dstParts
    -- the parts that are left out are the carry and the unread parts of the source
    have total : numberAt memory src srcParts * multiplier.toNat + carry.toNat + added dst add memory dstParts =
        numberAt state.1 dst dstParts + 2 ^ (64 * dstParts) *
          (state.2.toNat + numberAt memory (src + dstParts) (srcParts - dstParts) * multiplier.toNat) := by
      rw [split]
      linear_combination -equation
    have unread : numberAt state.1 (src + dstParts) (srcParts - dstParts) =
        numberAt memory (src + dstParts) (srcParts - dstParts) := by
      apply number_congr
      intro i below
      apply kept
      intro j inside
      omega
    have low : numberAt state.1 dst dstParts =
        (numberAt memory src srcParts * multiplier.toNat + carry.toNat + added dst add memory dstParts) %
          2 ^ (64 * dstParts) := by
      rw [total, Nat.add_mul_mod_self_left, Nat.mod_eq_of_lt stored]
    have exact : 2 ^ (64 * dstParts) ≤
        numberAt memory src srcParts * multiplier.toNat + carry.toNat + added dst add memory dstParts ↔
          0 < state.2.toNat + numberAt memory (src + dstParts) (srcParts - dstParts) * multiplier.toNat := by
      rw [total]
      exact le_add_mul_iff stored
    have frame : ∀ address, (∀ i < dstParts, address ≠ dst + i) → state.1 address = memory address := kept
    by_cases carried : state.2 = 0
    · have none := (toNat_eq_zero_iff state.2).mpr carried
      rw [none, Nat.zero_add, Nat.pos_iff_ne_zero, Nat.mul_ne_zero_iff, and_comm, ← unread] at exact
      rw [carried, if_neg (by decide)]
      refine ⟨_, _, rfl, low, ?_, frame⟩
      rw [exact, Bool.and_eq_true, any_part_iff, bne_iff_ne]
      exact and_congr_left' (toNat_eq_zero_iff multiplier).not.symm
    · rw [if_pos (bne_iff_ne.mpr carried)]
      refine ⟨_, _, rfl, low, iff_of_true rfl (exact.mpr ?_), frame⟩
      exact Nat.add_pos_left (Nat.pos_of_ne_zero fun zero => carried ((toNat_eq_zero_iff state.2).mp zero)) _

variable {lhs rhs parts lhsParts rhsParts : Nat}

theorem Leaves.of_whole {after : Memory 64} {value : Nat} {overflow : Bool}
    (leaves : Leaves memory dst parts value after overflow) (fits : value < 2 ^ (64 * parts)) :
    numberAt after dst parts = value ∧ overflow = false := by
  refine ⟨leaves.low.trans (Nat.mod_eq_of_lt fits), ?_⟩
  exact Bool.eq_false_iff.mpr fun flagged => Nat.not_le_of_lt fits (leaves.exact.mp flagged)

theorem tcSet_spec (dst : Nat) (part : WordType) (positive : 0 < parts) (memory : Memory 64) :
    ∃ after, tcSet dst part parts memory = some after ∧ numberAt after dst parts = part.toNat ∧
      ∀ address, (∀ i < parts, address ≠ dst + i) → after address = memory address := by
  obtain ⟨cleared, kept⟩ := forEach_spec (fun i => dst + (i + 1)) (fun _ _ => 0) (fun _ => (0 : WordType))
    (update memory dst part) (parts - 1) (fun i j less _ => by omega) fun _ _ _ _ => rfl
  unfold tcSet
  dsimp only [bind, pure]
  rw [(guard_eq_some' ()).mpr positive, bind_some]
  refine ⟨_, rfl, ?_, ?_⟩
  · obtain ⟨rest, rfl⟩ := Nat.exists_eq_add_of_lt positive
    rw [Nat.zero_add, Nat.add_sub_cancel] at *
    have high : numberAt (forEach (fun i => dst + (i + 1)) (fun _ _ => 0) rest (update memory dst part))
        (dst + 1) rest = 0 := by
      apply number_eq_zero_iff.mpr
      intro i below
      rw [Nat.add_right_comm, Nat.add_assoc]
      exact cleared i below
    have low := kept dst fun i _ => by omega
    rw [Nat.add_comm rest, number_add, high, Nat.mul_zero, Nat.add_zero, number_succ, Nat.add_zero, low,
      update_self, Nat.mul_zero, pow_zero, Nat.mul_one]
    exact Nat.zero_add _
  · intro address away
    rw [kept address fun i below => by have := away (i + 1) (by omega); exact this]
    exact update_of_ne (away 0 positive) part memory

theorem total_step {bound now total term : Nat} {overflow row : Bool} (low : now = total % bound)
    (exact : overflow = true ↔ bound ≤ total) (next : row = true ↔ bound ≤ now + term) :
    (now + term) % bound = (total + term) % bound ∧
      ((overflow || row) = true ↔ bound ≤ total + term) := by
  refine ⟨by rw [low, Nat.mod_add_mod], ?_⟩
  rw [Bool.or_eq_true, exact, next]
  by_cases fits : total < bound
  · rw [Nat.mod_eq_of_lt fits] at low
    rw [low, or_iff_right (Nat.not_le_of_lt fits)]
  · have large := Nat.le_of_not_lt fits
    exact iff_of_true (.inl large) (large.trans (Nat.le_add_right total term))

structure RowsAdded (memory : Memory 64) (dst lhs rhs parts i : Nat) (state : Memory 64 × Bool) : Prop where
  low : numberAt state.1 dst parts = numberAt memory lhs parts * numberAt memory rhs i % 2 ^ (64 * parts)
  exact : state.2 = true ↔ 2 ^ (64 * parts) ≤ numberAt memory lhs parts * numberAt memory rhs i
  frame : ∀ address, (∀ i < parts, address ≠ dst + i) → state.1 address = memory address

theorem raise_value {low unit : Nat} (value bound : Nat) (small : low < unit) :
    low + unit * (value % bound) = (low + unit * value) % (unit * bound) ∧
      (bound ≤ value ↔ unit * bound ≤ low + unit * value) := by
  have positive := Nat.zero_lt_of_lt small
  have quotient : (low + unit * value) / unit = value := by
    rw [Nat.add_mul_div_left _ _ positive, Nat.div_eq_of_lt small, Nat.zero_add]
  constructor
  · rw [Nat.mod_mul, quotient, Nat.add_mul_mod_self_left, Nat.mod_eq_of_lt small]
  · rw [Nat.mul_comm unit bound, ← Nat.le_div_iff_mul_le positive, quotient]

theorem multiplyRow_step {dst i : Nat} {memory : Memory 64} {state : Memory 64 × Bool}
    (bounded : parts + 1 < 2 ^ 32) (left : Apart dst parts lhs parts)
    (right : Apart dst parts rhs parts) (below : i < parts)
    (rows : RowsAdded memory dst lhs rhs parts i state) :
    ∃ next, multiplyRow dst lhs rhs parts state i = some next ∧
      RowsAdded memory dst lhs rhs parts (i + 1) next := by
  unfold Apart at left right
  obtain ⟨after, row, ran, leaves⟩ :=
    @tcMultiplyPart_spec (dst + i) lhs (state.1 (rhs + i)) 0 parts (parts - i) true
    state.1 (by omega) (by omega) bounded
  have factor : state.1 (rhs + i) = memory (rhs + i) := rows.frame _ fun j inside => by omega
  have source : numberAt state.1 lhs parts = numberAt memory lhs parts :=
    number_congr fun j inside => rows.frame _ fun k within => by omega
  have kept : numberAt after dst i = numberAt state.1 dst i :=
    number_congr fun j inside => leaves.frame _ fun k within => by omega
  have unit : 2 ^ (64 * parts) = 2 ^ (64 * i) * 2 ^ (64 * (parts - i)) := by
    rw [← pow_add, ← Nat.mul_add, Nat.add_sub_cancel' below.le]
  have whole : ∀ now : Memory 64, numberAt now dst parts =
      numberAt now dst i + 2 ^ (64 * i) * numberAt now (dst + i) (parts - i) := by
    intro now
    rw [← number_add, Nat.add_sub_cancel' below.le]
  have value : rowValue (dst + i) lhs (state.1 (rhs + i)) 0 parts (parts - i) true state.1 =
      numberAt memory lhs parts * (memory (rhs + i)).toNat + numberAt state.1 (dst + i) (parts - i) := by
    unfold rowValue added
    rw [source, factor, Nat.min_eq_left (Nat.sub_le parts i), if_pos rfl]
    rfl
  rw [value] at leaves
  obtain ⟨stored, exceeded⟩ := raise_value (numberAt memory lhs parts * (memory (rhs + i)).toNat +
    numberAt state.1 (dst + i) (parts - i)) (2 ^ (64 * (parts - i))) (number_lt state.1 dst i)
  have sum : numberAt state.1 dst i + 2 ^ (64 * i) * (numberAt memory lhs parts * (memory (rhs + i)).toNat +
      numberAt state.1 (dst + i) (parts - i)) =
        numberAt state.1 dst parts + numberAt memory lhs parts * ((memory (rhs + i)).toNat * 2 ^ (64 * i)) := by
    rw [whole state.1]
    ring
  rw [← unit, sum] at stored exceeded
  obtain ⟨low, exact⟩ := total_step rows.low rows.exact (leaves.exact.trans exceeded)
  refine ⟨(after, state.2 || row), ?_, ?_, ?_, ?_⟩
  · unfold multiplyRow
    rw [ran]
    rfl
  · rw [whole after, kept, leaves.low, stored, low, number_succ, Nat.mul_add]
  · rw [exact, number_succ, Nat.mul_add]
  · intro address away
    have kept := leaves.frame address fun j inside => by have := away (i + j) (by omega); omega
    exact kept.trans (rows.frame address away)

theorem tcMultiply_spec {dst : Nat} (memory : Memory 64) (positive : 0 < parts)
    (bounded : parts + 1 < 2 ^ 32) (left : Apart dst parts lhs parts)
    (right : Apart dst parts rhs parts) :
    ∃ after overflow, tcMultiply dst lhs rhs parts memory = some (after, overflow) ∧
      Leaves memory dst parts (numberAt memory lhs parts * numberAt memory rhs parts) after overflow := by
  obtain ⟨cleared, set, zero, kept⟩ := tcSet_spec dst 0 positive memory
  have start : RowsAdded memory dst lhs rhs parts 0 (cleared, false) := by
    refine ⟨?_, ?_, kept⟩
    · rw [zero, numberAt, Nat.mul_zero, Nat.zero_mod]
      rfl
    · exact iff_of_false Bool.false_ne_true (Nat.not_le_of_lt (Nat.two_pow_pos _))
  obtain ⟨last, ran, rows⟩ := foldlM_range_holds (multiplyRow dst lhs rhs parts)
    (RowsAdded memory dst lhs rhs parts) start fun i below now => multiplyRow_step bounded left right below
  refine ⟨last.1, last.2, ?_, rows.low, rows.exact, rows.frame⟩
  unfold Apart at left right
  unfold tcMultiply
  dsimp only [bind, pure]
  rw [(guard_eq_some' ()).mpr (by omega), bind_some, set, bind_some]
  exact ran

structure FullRowsAdded (memory : Memory 64) (dst lhs rhs rhsParts i : Nat) (now : Memory 64) : Prop where
  value : numberAt now dst (rhsParts + i) = numberAt memory rhs rhsParts * numberAt memory lhs i
  frame : ∀ address, (∀ j < rhsParts + i, address ≠ dst + j) → now address = memory address

theorem fullMultiplyRow_step {dst i : Nat} {memory now : Memory 64}
    (bounded : rhsParts + 1 < 2 ^ 32) (left : Apart dst (lhsParts + rhsParts) lhs lhsParts)
    (right : Apart dst (lhsParts + rhsParts) rhs rhsParts) (below : i < lhsParts)
    (rows : FullRowsAdded memory dst lhs rhs rhsParts i now) :
    ∃ next, fullMultiplyRow dst lhs rhs rhsParts now i = some next ∧
      FullRowsAdded memory dst lhs rhs rhsParts (i + 1) next := by
  unfold Apart at left right
  have parts : u32 (rhsParts + 1) = rhsParts + 1 := Nat.mod_eq_of_lt bounded
  obtain ⟨after, row, ran, leaves⟩ :=
    @tcMultiplyPart_spec (dst + i) rhs (now (lhs + i)) 0 rhsParts (rhsParts + 1) true now
    (by omega) le_rfl bounded
  have fits := rowValue_lt (dst + i) rhs (now (lhs + i)) 0 rhsParts true now
  obtain ⟨stored, _⟩ := leaves.of_whole fits
  have factor : now (lhs + i) = memory (lhs + i) := rows.frame _ fun j inside => by omega
  have source : numberAt now rhs rhsParts = numberAt memory rhs rhsParts :=
    number_congr fun j inside => rows.frame _ fun k within => by omega
  have kept : numberAt after dst i = numberAt now dst i :=
    number_congr fun j inside => leaves.frame _ fun k within => by omega
  have value : rowValue (dst + i) rhs (now (lhs + i)) 0 rhsParts (rhsParts + 1) true now =
      numberAt memory rhs rhsParts * (memory (lhs + i)).toNat + numberAt now (dst + i) rhsParts := by
    unfold rowValue added
    rw [source, factor, Nat.min_eq_right (Nat.le_succ rhsParts), if_pos rfl]
    rfl
  have before := rows.value
  rw [Nat.add_comm rhsParts i, number_add] at before
  refine ⟨after, ?_, ?_, ?_⟩
  · unfold fullMultiplyRow
    rw [parts, ran]
    rfl
  · rw [show rhsParts + (i + 1) = i + (rhsParts + 1) by omega, number_add, kept, stored, value, number_succ]
    linear_combination before
  · intro address away
    rw [leaves.frame address fun j inside => by have := away (i + j) (by omega); omega]
    exact rows.frame address fun j inside => away j (by omega)

theorem fullMultiplyRows_spec {dst : Nat} (memory : Memory 64) (positive : 0 < rhsParts)
    (bounded : rhsParts + 1 < 2 ^ 32) (left : Apart dst (lhsParts + rhsParts) lhs lhsParts)
    (right : Apart dst (lhsParts + rhsParts) rhs rhsParts) (distinct : dst ≠ lhs) :
    ∃ after, fullMultiplyRows dst lhs rhs lhsParts rhsParts memory = some after ∧
      FullRowsAdded memory dst lhs rhs rhsParts lhsParts after := by
  obtain ⟨cleared, set, zero, kept⟩ := tcSet_spec dst 0 positive memory
  have start : FullRowsAdded memory dst lhs rhs rhsParts 0 cleared := by
    refine ⟨?_, kept⟩
    rw [numberAt, Nat.mul_zero]
    exact zero
  obtain ⟨last, ran, rows⟩ := foldlM_range_holds (fullMultiplyRow dst lhs rhs rhsParts)
    (FullRowsAdded memory dst lhs rhs rhsParts) start
    fun i below now => fullMultiplyRow_step bounded left right below
  refine ⟨last, ?_, rows⟩
  unfold Apart at right
  unfold fullMultiplyRows
  dsimp only [bind, pure]
  rw [(guard_eq_some' ()).mpr ⟨distinct, by omega⟩, bind_some, set, bind_some]
  exact ran

theorem tcFullMultiply_spec {dst : Nat} (memory : Memory 64) (positive : 0 < lhsParts + rhsParts)
    (leftBound : lhsParts + 1 < 2 ^ 32) (rightBound : rhsParts + 1 < 2 ^ 32)
    (left : Apart dst (lhsParts + rhsParts) lhs lhsParts)
    (right : Apart dst (lhsParts + rhsParts) rhs rhsParts) (distinct : dst ≠ lhs ∧ dst ≠ rhs) :
    ∃ after, tcFullMultiply dst lhs rhs lhsParts rhsParts memory = some after ∧
      numberAt after dst (lhsParts + rhsParts) = numberAt memory lhs lhsParts * numberAt memory rhs rhsParts ∧
      ∀ address, (∀ i < lhsParts + rhsParts, address ≠ dst + i) → after address = memory address := by
  unfold tcFullMultiply
  by_cases swapped : rhsParts < lhsParts
  · rw [if_pos swapped]
    rw [Nat.add_comm] at left right
    obtain ⟨after, ran, rows⟩ := fullMultiplyRows_spec memory (by omega) leftBound right left distinct.2
    exact ⟨after, ran, rows.value, rows.frame⟩
  · rw [if_neg swapped]
    obtain ⟨after, ran, rows⟩ := fullMultiplyRows_spec memory (by omega) rightBound left right distinct.1
    refine ⟨after, ran, ?_, ?_⟩
    · rw [Nat.add_comm, rows.value, Nat.mul_comm]
    · rw [Nat.add_comm]
      exact rows.frame

end EvmBackend.APInt.Parts
