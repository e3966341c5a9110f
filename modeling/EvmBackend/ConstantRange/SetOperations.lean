/-
Inclusion, complement, intersection and union of ranges as operations on sets.

A range is an arc of the circle of numbers. Two arcs share an arc, nothing, or
two pieces, and two arcs with a gap between them are in the same way what two
larger arcs share; in these cases one of two ranges is returned.
-/

import EvmBackend.ConstantRange.Preferred

namespace EvmBackend

open APInt Arcs

namespace ConstantRange

variable {W : Nat} {range other : ConstantRange W} {outcome : Option (ConstantRange W)}
  {values : BitVec W → Prop} {value lower upper : BitVec W}

theorem contains_iff_arc : range.contains value = true ↔
    range.isFullSet = true ∨ Arc range.Lower.toNat range.Upper.toNat value.toNat := by
  rw [contains_iff, isFullSet_iff]
  rfl

theorem contains_iff_arc_of_ne (differ : range.Lower.toNat ≠ range.Upper.toNat) :
    range.contains value = true ↔ Arc range.Lower.toNat range.Upper.toNat value.toNat := by
  rw [contains_iff_arc, isFullSet_iff]
  exact or_iff_right fun full => differ full.1

theorem contains_mk_iff_arc (differ : lower.toNat ≠ upper.toNat) :
    (ConstantRange.mk lower upper).contains value = true ↔ Arc lower.toNat upper.toNat value.toNat :=
  contains_iff_arc_of_ne differ

theorem create_of_ne (differ : lower.toNat ≠ upper.toNat) :
    create lower upper = some ⟨lower, upper⟩ := by
  have apart : lower ≠ upper := fun same => differ (congrArg BitVec.toNat same)
  simp [create, apart]

theorem proper_of_ne (differ : range.Lower.toNat ≠ range.Upper.toNat) : range.Proper :=
  fun same => absurd (congrArg BitVec.toNat same) differ

theorem proper_getFull : (getFull W).Proper := fun _ => Or.inl rfl

theorem proper_getEmpty : (getEmpty W).Proper := fun _ => Or.inr rfl

theorem not_contains_getEmpty (positive : 0 < W) : ¬ (getEmpty W).contains value = true := by
  intro member
  have empty := isEmptySet_of_contains positive member
  simp [isEmptySet, getEmpty] at empty

theorem Proper.toNat_cases (proper : range.Proper) :
    range.isFullSet = true ∨ range.isEmptySet = true ∨ range.Lower.toNat ≠ range.Upper.toNat :=
  proper.cases.imp_right fun rest => rest.imp_right fun differ same => differ (BitVec.eq_of_toNat_eq same)

theorem contains_of_isFullSet (full : range.isFullSet = true) : range.contains value = true :=
  contains_iff_arc.mpr (Or.inl full)

theorem not_contains_of_isEmptySet (positive : 0 < W) (empty : range.isEmptySet = true) :
    ¬ range.contains value = true := by
  intro member
  rw [isEmptySet_of_contains positive member] at empty
  exact Bool.false_ne_true empty

theorem not_isFullSet_of_ne (differ : range.Lower.toNat ≠ range.Upper.toNat) : range.isFullSet = false := by
  rw [← Bool.not_eq_true, isFullSet_iff]
  omega

theorem not_isEmptySet_of_ne (differ : range.Lower.toNat ≠ range.Upper.toNat) : range.isEmptySet = false := by
  rw [← Bool.not_eq_true, isEmptySet_iff]
  omega

def Exactly (outcome : Option (ConstantRange W)) (values : BitVec W → Prop) : Prop :=
  ∃ result, outcome = some result ∧ result.Proper ∧ ∀ value, result.contains value = true ↔ values value

theorem Exactly.create (differ : lower.toNat ≠ upper.toNat)
    (same : ∀ value, (ConstantRange.mk lower upper).contains value = true ↔ values value) :
    Exactly (ConstantRange.create lower upper) values :=
  ⟨_, create_of_ne differ, proper_of_ne differ, same⟩

theorem Exactly.empty (positive : 0 < W) (none : ∀ value, ¬ values value) : Exactly (some (getEmpty W)) values :=
  ⟨_, rfl, proper_getEmpty, fun value => iff_of_false (not_contains_getEmpty positive) (none value)⟩

theorem Exactly.full (all : ∀ value, values value) : Exactly (some (getFull W)) values :=
  ⟨_, rfl, proper_getFull, fun value => iff_of_true contains_getFull (all value)⟩

theorem Exactly.congr {others : BitVec W → Prop} (same : ∀ value, values value ↔ others value)
    (exact : Exactly outcome others) : Exactly outcome values := by
  obtain ⟨result, produced, proper, members⟩ := exact
  exact ⟨result, produced, proper, fun value => (members value).trans (same value).symm⟩

theorem create_swapped_exactly (differ : range.Lower.toNat ≠ range.Upper.toNat) :
    Exactly (ConstantRange.create range.Upper range.Lower) fun value => ¬ range.contains value = true := by
  refine .create differ.symm fun value => ?_
  rw [contains_iff_arc_of_ne differ, not_arc_iff differ]
  exact contains_mk_iff_arc differ.symm

theorem inverse_exactly (positive : 0 < W) (proper : range.Proper) :
    Exactly range.inverse fun value => ¬ range.contains value = true := by
  unfold inverse
  rcases proper.toNat_cases with full | empty | differ
  · rw [if_pos full]
    exact .empty positive fun value misses => misses (contains_of_isFullSet full)
  · by_cases full : range.isFullSet = true
    · rw [if_pos full]
      exact .empty positive fun value misses => misses (contains_of_isFullSet full)
    · rw [if_neg full, if_pos empty]
      exact .full fun value => not_contains_of_isEmptySet positive empty
  · rw [not_isFullSet_of_ne differ, not_isEmptySet_of_ne differ]
    exact create_swapped_exactly differ

theorem containsRange_iff_of_ne (differ : range.Lower.toNat ≠ range.Upper.toNat)
    (otherDiffer : other.Lower.toNat ≠ other.Upper.toNat) :
    range.containsRange other = true ↔
      Arc range.Lower.toNat range.Upper.toNat other.Lower.toNat ∧
        ¬ Arc other.Lower.toNat other.Upper.toNat range.Upper.toNat := by
  unfold containsRange
  simp only [not_isFullSet_of_ne differ, not_isEmptySet_of_ne differ, not_isFullSet_of_ne otherDiffer,
    not_isEmptySet_of_ne otherDiffer, Bool.or_self, Bool.false_eq_true, if_false]
  unfold Arc
  cases wraps : range.isUpperWrapped with
  | true =>
      rw [isUpperWrapped_iff] at wraps
      cases otherWraps : other.isUpperWrapped with
      | true =>
          rw [isUpperWrapped_iff] at otherWraps
          simp [BitVec.ule_iff_toNat_le]
          omega
      | false =>
          rw [← Bool.not_eq_true, isUpperWrapped_iff] at otherWraps
          simp [BitVec.ule_iff_toNat_le]
          omega
  | false =>
      rw [← Bool.not_eq_true, isUpperWrapped_iff] at wraps
      cases otherWraps : other.isUpperWrapped with
      | true =>
          rw [isUpperWrapped_iff] at otherWraps
          simp
          omega
      | false =>
          rw [← Bool.not_eq_true, isUpperWrapped_iff] at otherWraps
          simp [BitVec.ule_iff_toNat_le]
          omega

theorem exists_contains (proper : range.Proper) (notEmpty : range.isEmptySet = false) :
    ∃ value, range.contains value = true := by
  rcases proper.toNat_cases with full | empty | differ
  · exact ⟨0, contains_of_isFullSet full⟩
  · rw [notEmpty] at empty
    cases empty
  · exact ⟨range.Lower, (contains_iff_arc_of_ne differ).mpr (arc_first differ)⟩

theorem exists_not_contains (positive : 0 < W) (proper : range.Proper) (notFull : range.isFullSet = false) :
    ∃ value, ¬ range.contains value = true := by
  rcases proper.toNat_cases with full | empty | differ
  · rw [notFull] at full
    cases full
  · exact ⟨0, not_contains_of_isEmptySet positive empty⟩
  · refine ⟨range.Upper, fun member => ?_⟩
    exact (not_arc_iff differ).mpr (arc_first differ.symm) ((contains_iff_arc_of_ne differ).mp member)

theorem containsRange_iff (positive : 0 < W) (proper : range.Proper) (otherProper : other.Proper) :
    range.containsRange other = true ↔
      ∀ value, other.contains value = true → range.contains value = true := by
  by_cases full : range.isFullSet = true
  · rw [containsRange, full, Bool.true_or, if_pos rfl]
    exact iff_of_true rfl fun _ _ => contains_of_isFullSet full
  by_cases otherEmpty : other.isEmptySet = true
  · rw [containsRange, otherEmpty, Bool.or_true, if_pos rfl]
    exact iff_of_true rfl fun _ member => absurd member (not_contains_of_isEmptySet positive otherEmpty)
  rw [Bool.not_eq_true] at full otherEmpty
  rcases otherProper.toNat_cases with otherFull | isEmpty | otherDiffer
  · rw [containsRange, full, otherEmpty, otherFull, Bool.or_true]
    refine iff_of_false Bool.false_ne_true fun inside => ?_
    obtain ⟨value, misses⟩ := exists_not_contains positive proper full
    exact misses (inside value (contains_of_isFullSet otherFull))
  · rw [otherEmpty] at isEmpty
    cases isEmpty
  rcases proper.toNat_cases with isFull | empty | differ
  · rw [full] at isFull
    cases isFull
  · rw [containsRange, full, otherEmpty, empty, Bool.true_or]
    refine iff_of_false Bool.false_ne_true fun inside => ?_
    obtain ⟨value, member⟩ := exists_contains otherProper otherEmpty
    exact not_contains_of_isEmptySet positive empty (inside value member)
  · rw [containsRange_iff_of_ne differ otherDiffer]
    have points := arc_subset_iff differ otherDiffer
    constructor
    · intro ends value member
      rw [contains_iff_arc_of_ne differ]
      exact points.mpr ends _ ((contains_iff_arc_of_ne otherDiffer).mp member)
    · intro inside
      constructor
      · rw [← contains_iff_arc_of_ne differ]
        exact inside _ ((contains_iff_arc_of_ne otherDiffer).mpr (arc_first otherDiffer))
      · intro past
        have member := inside _ ((contains_iff_arc_of_ne otherDiffer).mpr past)
        rw [contains_iff_arc_of_ne differ] at member
        exact (not_arc_iff differ).mpr (arc_first differ.symm) member

def count (range : ConstantRange W) : Nat :=
  ((Finset.range (2 ^ W)).filter fun point => range.contains (BitVec.ofNat W point) = true).card

theorem count_mono (inside : ∀ value, range.contains value = true → other.contains value = true) :
    range.count ≤ other.count :=
  Finset.card_le_card (Finset.monotone_filter_right _ fun _ _ => inside _)

theorem count_of_ne (differ : range.Lower.toNat ≠ range.Upper.toNat) : range.count = range.span := by
  have points : (Finset.range (2 ^ W)).filter (fun point => range.contains (BitVec.ofNat W point) = true) =
      (Finset.range (2 ^ W)).filter (Arc range.Lower.toNat range.Upper.toNat) := by
    apply Finset.filter_congr
    intro point inside
    rw [contains_iff_arc_of_ne differ, BitVec.toNat_ofNat, Nat.mod_eq_of_lt (Finset.mem_range.mp inside)]
  have lowerLimit := range.Lower.isLt
  have upperLimit := range.Upper.isLt
  have size := toNat_sub_cases range.Upper range.Lower
  have sizeLimit := (range.Upper - range.Lower).isLt
  rw [count, points, card_arc differ lowerLimit upperLimit, span]
  split <;> omega

theorem isSizeStrictlySmallerThan_iff (differ : range.Lower.toNat ≠ range.Upper.toNat)
    (otherDiffer : other.Lower.toNat ≠ other.Upper.toNat) :
    range.isSizeStrictlySmallerThan other = true ↔ range.count < other.count := by
  rw [count_of_ne differ, count_of_ne otherDiffer, isSizeStrictlySmallerThan, not_isFullSet_of_ne differ,
    not_isFullSet_of_ne otherDiffer]
  simp only [Bool.false_eq_true, if_false, BitVec.ult_iff_toNat_lt, span]

end ConstantRange

namespace PreferredRangeType

open ConstantRange

variable {W : Nat} {type : PreferredRangeType} {range other result first second : ConstantRange W}
  {values : BitVec W → Prop} {lower upper value : BitVec W}

/-- The way round through the first range meets the second one on both sides. -/
def Crossed (first second : ConstantRange W) : Prop :=
  Cyclic first.Lower.toNat second.Upper.toNat second.Lower.toNat first.Upper.toNat

/-- What is returned for a set: the set as a range, or the preferred one of two
ranges that share the set in two pieces. -/
inductive Represents (type : PreferredRangeType) (values : BitVec W → Prop) : ConstantRange W → Prop
  | exactly {range : ConstantRange W} (proper : range.Proper)
      (same : ∀ value, range.contains value = true ↔ values value) : Represents type values range
  | preferred {first second : ConstantRange W} (crossed : Crossed first second)
      (same : ∀ value, values value ↔ first.contains value = true ∧ second.contains value = true) :
      Represents type values (type.getPreferredRange first second)

def Returns (type : PreferredRangeType) (values : BitVec W → Prop) (outcome : Option (ConstantRange W)) : Prop :=
  ∃ result, outcome = some result ∧ type.Represents values result

theorem Returns.given (proper : range.Proper) (same : ∀ value, range.contains value = true ↔ values value) :
    type.Returns values (some range) :=
  ⟨range, rfl, .exactly proper same⟩

theorem Returns.arc (differ : range.Lower.toNat ≠ range.Upper.toNat)
    (same : ∀ value : BitVec W, Arc range.Lower.toNat range.Upper.toNat value.toNat ↔ values value) :
    type.Returns values (some range) :=
  .given (proper_of_ne differ) fun value => (contains_iff_arc_of_ne differ).trans (same value)

theorem Returns.create (differ : lower.toNat ≠ upper.toNat)
    (same : ∀ value : BitVec W, Arc lower.toNat upper.toNat value.toNat ↔ values value) :
    type.Returns values (create lower upper) := by
  rw [create_of_ne differ]
  exact .arc differ same

theorem Returns.empty (positive : 0 < W) (none : ∀ value, ¬ values value) :
    type.Returns values (some (getEmpty W)) :=
  .given proper_getEmpty fun value => iff_of_false (not_contains_getEmpty positive) (none value)

theorem Returns.full (all : ∀ value, values value) : type.Returns values (some (getFull W)) :=
  .given proper_getFull fun value => iff_of_true contains_getFull (all value)

theorem Crossed.ne (crossed : Crossed first second) :
    first.Lower.toNat ≠ first.Upper.toNat ∧ second.Lower.toNat ≠ second.Upper.toNat := by
  unfold Crossed Cyclic at crossed
  omega

theorem Returns.preferred (crossed : Crossed first second)
    (same : ∀ value : BitVec W, values value ↔ Arc first.Lower.toNat first.Upper.toNat value.toNat ∧
      Arc second.Lower.toNat second.Upper.toNat value.toNat) :
    type.Returns values (some (type.getPreferredRange first second)) := by
  refine ⟨_, rfl, .preferred crossed fun value => ?_⟩
  rw [same, contains_iff_arc_of_ne crossed.ne.1, contains_iff_arc_of_ne crossed.ne.2]

/-! ### Intersection -/

theorem both_iff_arcs (differ : range.Lower.toNat ≠ range.Upper.toNat)
    (otherDiffer : other.Lower.toNat ≠ other.Upper.toNat) :
    (fun value => range.contains value = true ∧ other.contains value = true) = fun value : BitVec W =>
      Arc range.Lower.toNat range.Upper.toNat value.toNat ∧
        Arc other.Lower.toNat other.Upper.toNat value.toNat := by
  funext value
  rw [contains_iff_arc_of_ne differ, contains_iff_arc_of_ne otherDiffer]

theorem intersectWrapped_returns (positive : 0 < W) (otherDiffer : other.Lower.toNat ≠ other.Upper.toNat)
    (wrapped : range.Upper.toNat < range.Lower.toNat) :
    type.Returns (fun value => range.contains value = true ∧ other.contains value = true)
      (type.intersectWrapped range other) := by
  have differ := Nat.ne_of_gt wrapped
  rw [both_iff_arcs differ otherDiffer]
  unfold intersectWrapped
  simp only [Bool.not_eq_true', ← Bool.not_eq_true, isUpperWrapped_iff, BitVec.ult_iff_toNat_lt,
    BitVec.ule_iff_toNat_le]
  split
  · split
    · split
      · refine .arc otherDiffer fun value => ?_
        unfold Arc
        omega
      split
      · refine .create (by omega) fun value => ?_
        unfold Arc
        omega
      · refine .preferred ?_ fun value => Iff.rfl
        unfold Crossed Cyclic
        omega
    split
    · split
      · refine .empty positive fun value => ?_
        unfold Arc
        omega
      · refine .create (by omega) fun value => ?_
        unfold Arc
        omega
    · refine .arc otherDiffer fun value => ?_
      unfold Arc
      omega
  split
  · split
    · refine .preferred ?_ fun value => Iff.rfl
      unfold Crossed Cyclic
      omega
    split
    · refine .create (by omega) fun value => ?_
      unfold Arc
      omega
    · refine .arc otherDiffer fun value => ?_
      unfold Arc
      omega
  split
  · split
    · refine .arc differ fun value => ?_
      unfold Arc
      omega
    · refine .create (by omega) fun value => ?_
      unfold Arc
      omega
  · refine .preferred ?_ fun value => Iff.rfl
    unfold Crossed Cyclic
    omega

theorem Returns.symm {outcome : Option (ConstantRange W)}
    (returns : type.Returns (fun value => other.contains value = true ∧ range.contains value = true) outcome) :
    type.Returns (fun value => range.contains value = true ∧ other.contains value = true) outcome := by
  simpa only [and_comm] using returns

theorem intersectWith_returns (type : PreferredRangeType) (positive : 0 < W) (proper : range.Proper)
    (otherProper : other.Proper) :
    type.Returns (fun value => range.contains value = true ∧ other.contains value = true)
      (type.intersectWith range other) := by
  unfold intersectWith
  split
  · rename_i first
    refine .given proper fun value => ?_
    rcases Bool.or_eq_true_iff.mp first with empty | full
    · have misses : ¬ range.contains value = true := not_contains_of_isEmptySet positive empty
      exact iff_of_false misses fun both => misses both.1
    · exact (and_iff_left (contains_of_isFullSet full)).symm
  split
  · rename_i second
    refine .given otherProper fun value => ?_
    rcases Bool.or_eq_true_iff.mp second with empty | full
    · have misses : ¬ other.contains value = true := not_contains_of_isEmptySet positive empty
      exact iff_of_false misses fun both => misses both.2
    · exact (and_iff_right (contains_of_isFullSet full)).symm
  rename_i common otherCommon
  rw [Bool.or_eq_true, not_or] at common otherCommon
  have differ := (proper.toNat_cases.resolve_left otherCommon.2).resolve_left common.1
  have otherDiffer := (otherProper.toNat_cases.resolve_left common.2).resolve_left otherCommon.1
  cases wraps : range.isUpperWrapped with
  | true => exact intersectWrapped_returns positive otherDiffer (isUpperWrapped_iff.mp wraps)
  | false =>
      cases otherWraps : other.isUpperWrapped with
      | true => exact (intersectWrapped_returns positive differ (isUpperWrapped_iff.mp otherWraps)).symm
      | false =>
          rw [← Bool.not_eq_true, isUpperWrapped_iff] at wraps otherWraps
          simp only [Bool.not_false, Bool.and_false, Bool.false_eq_true, if_false, Bool.and_self, if_true,
            BitVec.ult_iff_toNat_lt, BitVec.ule_iff_toNat_le]
          rw [both_iff_arcs differ otherDiffer]
          split
          · split
            · refine .empty positive fun value => ?_
              unfold Arc
              omega
            split
            · refine .create (by omega) fun value => ?_
              unfold Arc
              omega
            · refine .arc otherDiffer fun value => ?_
              unfold Arc
              omega
          split
          · refine .arc differ fun value => ?_
            unfold Arc
            omega
          split
          · refine .create (by omega) fun value => ?_
            unfold Arc
            omega
          · refine .empty positive fun value => ?_
            unfold Arc
            omega

/-! ### Union -/

theorem either_iff_arcs (differ : range.Lower.toNat ≠ range.Upper.toNat)
    (otherDiffer : other.Lower.toNat ≠ other.Upper.toNat) :
    (fun value => range.contains value = true ∨ other.contains value = true) = fun value : BitVec W =>
      Arc range.Lower.toNat range.Upper.toNat value.toNat ∨
        Arc other.Lower.toNat other.Upper.toNat value.toNat := by
  funext value
  rw [contains_iff_arc_of_ne differ, contains_iff_arc_of_ne otherDiffer]

theorem closeGap_returns
    (apart : Cyclic range.Lower.toNat range.Upper.toNat other.Lower.toNat other.Upper.toNat) :
    type.Returns (fun value : BitVec W => Arc range.Lower.toNat range.Upper.toNat value.toNat ∨
      Arc other.Lower.toNat other.Upper.toNat value.toNat) (type.closeGap range other) := by
  have differ : range.Lower.toNat ≠ other.Upper.toNat ∧ other.Lower.toNat ≠ range.Upper.toNat := by
    unfold Cyclic at apart
    omega
  rw [closeGap, create_of_ne differ.1, create_of_ne differ.2]
  exact .preferred apart fun value => apart.shared_iff.symm

theorem unionWrapped_returns (otherDiffer : other.Lower.toNat ≠ other.Upper.toNat)
    (wrapped : range.Upper.toNat < range.Lower.toNat) :
    type.Returns (fun value => range.contains value = true ∨ other.contains value = true)
      (type.unionWrapped range other) := by
  have differ := Nat.ne_of_gt wrapped
  rw [either_iff_arcs differ otherDiffer]
  unfold unionWrapped
  simp only [Bool.not_eq_true', ← Bool.not_eq_true, isUpperWrapped_iff, BitVec.ult_iff_toNat_lt,
    BitVec.ule_iff_toNat_le, Bool.or_eq_true, Bool.and_eq_true]
  split
  · split
    · refine .arc differ fun value => ?_
      unfold Arc
      omega
    split
    · refine .full fun value => ?_
      unfold Arc
      omega
    split
    · apply closeGap_returns
      unfold Cyclic
      omega
    split
    · refine .create (by omega) fun value => ?_
      unfold Arc
      omega
    · rw [guard, if_pos (by omega)]
      refine .create (by omega) fun value => ?_
      unfold Arc
      omega
  split
  · refine .full fun value => ?_
    unfold Arc
    omega
  · refine .create ?_ fun value => ?_
    · split <;> split <;> omega
    · unfold Arc
      split <;> split <;> omega

theorem Returns.swap {outcome : Option (ConstantRange W)}
    (returns : type.Returns (fun value => other.contains value = true ∨ range.contains value = true) outcome) :
    type.Returns (fun value => range.contains value = true ∨ other.contains value = true) outcome := by
  simpa only [or_comm] using returns

theorem unionWith_returns (type : PreferredRangeType) (positive : 0 < W) (proper : range.Proper)
    (otherProper : other.Proper) :
    type.Returns (fun value => range.contains value = true ∨ other.contains value = true)
      (type.unionWith range other) := by
  unfold unionWith
  split
  · rename_i first
    refine .given proper fun value => ?_
    rcases Bool.or_eq_true_iff.mp first with full | empty
    · have member : range.contains value = true := contains_of_isFullSet full
      exact iff_of_true member (Or.inl member)
    · exact (or_iff_left (not_contains_of_isEmptySet positive empty)).symm
  split
  · rename_i second
    refine .given otherProper fun value => ?_
    rcases Bool.or_eq_true_iff.mp second with full | empty
    · have member : other.contains value = true := contains_of_isFullSet full
      exact iff_of_true member (Or.inr member)
    · exact (or_iff_right (not_contains_of_isEmptySet positive empty)).symm
  rename_i common otherCommon
  rw [Bool.or_eq_true, not_or] at common otherCommon
  have differ := (proper.toNat_cases.resolve_left common.1).resolve_left otherCommon.2
  have otherDiffer := (otherProper.toNat_cases.resolve_left otherCommon.1).resolve_left common.2
  cases wraps : range.isUpperWrapped with
  | true => exact unionWrapped_returns otherDiffer (isUpperWrapped_iff.mp wraps)
  | false =>
      cases otherWraps : other.isUpperWrapped with
      | true => exact (unionWrapped_returns differ (isUpperWrapped_iff.mp otherWraps)).swap
      | false =>
          rw [← Bool.not_eq_true, isUpperWrapped_iff] at wraps otherWraps
          simp only [Bool.not_false, Bool.and_false, Bool.false_eq_true, if_false, Bool.and_self, if_true,
            BitVec.ult_iff_toNat_lt, Bool.or_eq_true]
          rw [either_iff_arcs differ otherDiffer]
          have last := toNat_sub_one positive range.Upper
          have otherLast := toNat_sub_one positive other.Upper
          split
          · apply closeGap_returns
            unfold Cyclic
            omega
          -- the last members are compared, and the greater of them is not the number before zero
          rw [if_neg]
          · refine .create ?_ fun value => ?_
            · split <;> split <;> omega
            · unfold Arc
              split <;> split <;> omega
          · rintro ⟨-, zero⟩
            have none := (congrArg BitVec.toNat zero).trans (BitVec.toNat_ofNat 0 W)
            rw [Nat.zero_mod] at none
            split at none <;> omega

/-! ### The best range -/

theorem Crossed.covers (crossed : Crossed first second)
    (shared : ∀ value, first.contains value = true → second.contains value = true → range.contains value = true) :
    (∀ value, first.contains value = true → range.contains value = true) ∨
      (∀ value, second.contains value = true → range.contains value = true) := by
  have firstArc : ∀ value, first.contains value = true ↔ Arc first.Lower.toNat first.Upper.toNat value.toNat :=
    fun value => contains_iff_arc_of_ne crossed.ne.1
  have secondArc : ∀ value, second.contains value = true ↔
      Arc second.Lower.toNat second.Upper.toNat value.toNat :=
    fun value => contains_iff_arc_of_ne crossed.ne.2
  by_cases full : range.isFullSet = true
  · exact Or.inl fun _ _ => contains_of_isFullSet full
  have rangeArc : ∀ value, range.contains value = true ↔
      Arc range.Lower.toNat range.Upper.toNat value.toNat :=
    fun value => contains_iff_arc.trans (or_iff_right full)
  -- the circle is that of the numbers below the power of two
  have round : Cyclic first.Lower.toFin second.Upper.toFin second.Lower.toFin first.Upper.toFin := crossed
  have covers := round.covers range.Lower.toFin range.Upper.toFin fun point piece => by
    have both := round.shared_iff.mpr piece
    exact (rangeArc ⟨point⟩).mp (shared ⟨point⟩ ((firstArc ⟨point⟩).mpr both.1) ((secondArc ⟨point⟩).mpr both.2))
  refine covers.imp (fun all value member => ?_) fun all value member => ?_
  · exact (rangeArc value).mpr (all value.toFin ((firstArc value).mp member))
  · exact (rangeArc value).mpr (all value.toFin ((secondArc value).mp member))

theorem Crossed.symm (crossed : Crossed first second) : Crossed second first := Cyclic.opposite crossed

theorem Crossed.exists_gap (crossed : Crossed first second) :
    ∃ value, first.contains value = true ∧ ¬ second.contains value = true := by
  refine ⟨second.Upper, ?_, ?_⟩
  · rw [contains_iff_arc_of_ne crossed.ne.1]
    unfold Crossed Cyclic at crossed
    unfold Arc
    omega
  · rw [contains_iff_arc_of_ne crossed.ne.2]
    exact (not_arc_iff crossed.ne.2).mpr (arc_first crossed.ne.2.symm)

theorem Crossed.not_range (crossed : Crossed first second) :
    ¬ ∀ value, range.contains value = true ↔ first.contains value = true ∧ second.contains value = true := by
  intro same
  rcases crossed.covers (fun value inFirst inSecond => (same value).mpr ⟨inFirst, inSecond⟩) with all | all
  · obtain ⟨value, member, misses⟩ := crossed.exists_gap
    exact misses ((same value).mp (all value member)).2
  · obtain ⟨value, member, misses⟩ := crossed.symm.exists_gap
    exact misses ((same value).mp (all value member)).1

theorem getPreferredRange_eq (type : PreferredRangeType) (first second : ConstantRange W) :
    type.getPreferredRange first second = first ∨ type.getPreferredRange first second = second := by
  unfold getPreferredRange
  split
  · exact Or.inl rfl
  split
  · exact Or.inr rfl
  split
  · exact Or.inl rfl
  · exact Or.inr rfl

theorem count_getPreferredRange (crossed : Crossed first second) :
    (Smallest.getPreferredRange first second).count ≤ first.count ∧
      (Smallest.getPreferredRange first second).count ≤ second.count := by
  have smaller := isSizeStrictlySmallerThan_iff crossed.ne.1 crossed.ne.2
  simp only [getPreferredRange, prefers, Bool.false_eq_true, if_false]
  split
  · rename_i less
    exact ⟨Nat.le_refl _, Nat.le_of_lt (smaller.mp less)⟩
  · rename_i less
    exact ⟨Nat.le_of_not_lt (mt smaller.mpr less), Nat.le_refl _⟩

/-- The result covers the set, is the set where that is a range, and with the
preference for the smallest range no range over the set has fewer elements. -/
structure BestFor (type : PreferredRangeType) (values : BitVec W → Prop) (result : ConstantRange W) : Prop where
  proper : result.Proper
  covers : ∀ value, values value → result.contains value = true
  exact : (∃ range : ConstantRange W, ∀ value, range.contains value = true ↔ values value) →
    ∀ value, result.contains value = true → values value
  least : type = Smallest → ∀ range : ConstantRange W, (∀ value, values value → range.contains value = true) →
    result.count ≤ range.count

theorem Represents.bestFor (represents : type.Represents values result) : type.BestFor values result := by
  cases represents with
  | exactly proper same =>
      refine ⟨proper, fun value => (same value).mpr, fun _ value => (same value).mp, fun _ range covers => ?_⟩
      exact count_mono fun value member => covers value ((same value).mp member)
  | @preferred first second crossed same =>
      refine ⟨?_, ?_, ?_, ?_⟩
      · rcases type.getPreferredRange_eq first second with isFirst | isSecond
        · rw [isFirst]
          exact proper_of_ne crossed.ne.1
        · rw [isSecond]
          exact proper_of_ne crossed.ne.2
      · intro value member
        rcases type.getPreferredRange_eq first second with isFirst | isSecond
        · rw [isFirst]
          exact ((same value).mp member).1
        · rw [isSecond]
          exact ((same value).mp member).2
      · rintro ⟨range, isRange⟩
        exact absurd (fun value => (isRange value).trans (same value)) crossed.not_range
      · rintro rfl range covers
        have least := count_getPreferredRange crossed
        rcases crossed.covers (fun value inFirst inSecond => covers value ((same value).mpr ⟨inFirst, inSecond⟩))
          with all | all
        · exact Nat.le_trans least.1 (count_mono all)
        · exact Nat.le_trans least.2 (count_mono all)

theorem Returns.bestFor {outcome : Option (ConstantRange W)} (returns : type.Returns values outcome) :
    ∃ result, outcome = some result ∧ type.BestFor values result := by
  obtain ⟨result, produced, represents⟩ := returns
  exact ⟨result, produced, represents.bestFor⟩

end PreferredRangeType

namespace ConstantRange

variable {W : Nat}

/-- Inclusion and complement are those of sets, and no intersection or union can
be represented better. -/
theorem set_operations_best (positive : 0 < W) {A B : ConstantRange W} (properA : A.Proper) (properB : B.Proper) :
    (A.containsRange B = true ↔ ∀ value, B.contains value = true → A.contains value = true) ∧
    (∃ result, A.inverse = some result ∧ result.Proper ∧
      ∀ value, result.contains value = true ↔ ¬ A.contains value = true) ∧
    ∀ type : PreferredRangeType,
      (∃ result, type.intersectWith A B = some result ∧
        type.BestFor (fun value => A.contains value = true ∧ B.contains value = true) result) ∧
      ∃ result, type.unionWith A B = some result ∧
        type.BestFor (fun value => A.contains value = true ∨ B.contains value = true) result :=
  ⟨containsRange_iff positive properA properB, inverse_exactly positive properA, fun _ =>
    ⟨(PreferredRangeType.intersectWith_returns _ positive properA properB).bestFor,
      (PreferredRangeType.unionWith_returns _ positive properA properB).bestFor⟩⟩

/-- Two ranges with two common pieces, and two with a gap on both sides. -/
theorem set_operations_best_at_four_bits :
    (∃ result, PreferredRangeType.Smallest.intersectWith (⟨6, 3⟩ : ConstantRange 4) ⟨2, 10⟩ = some result ∧
      PreferredRangeType.Smallest.BestFor (fun value => (⟨6, 3⟩ : ConstantRange 4).contains value = true ∧
        (⟨2, 10⟩ : ConstantRange 4).contains value = true) result) ∧
    PreferredRangeType.Smallest.intersectWith (⟨6, 3⟩ : ConstantRange 4) ⟨2, 10⟩ = some ⟨2, 10⟩ :=
  ⟨((set_operations_best (by decide) (by unfold Proper; decide) (by unfold Proper; decide)).2.2 .Smallest).1,
    by decide⟩

end ConstantRange

end EvmBackend
