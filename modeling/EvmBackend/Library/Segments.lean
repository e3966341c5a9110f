/-
Lists of half-open segments that carry values, over any linear order: when such
a list is kept in normal form, and the partial map it stands for.

A list in normal form has no empty segment, is sorted, and neighbours that
touch have different values. Edits replace a stretch of neighbours by one
segment, so there is one rule for that, with the map before and after.
-/

import Mathlib.Tactic.Order

namespace EvmBackend.Segments

open List

/-- The indexes from `start` up to but not including `finish`. -/
structure Segment (Index Value : Type*) where
  start : Index
  finish : Index
  value : Value
  deriving DecidableEq, Repr

variable {Index Value : Type*} [LinearOrder Index]

def Segment.Contains (segment : Segment Index Value) (index : Index) : Prop :=
  segment.start ≤ index ∧ index < segment.finish

instance (segment : Segment Index Value) (index : Index) : Decidable (segment.Contains index) :=
  inferInstanceAs (Decidable (_ ∧ _))

/-- One segment lies before the other, and they do not touch with one value. -/
def Apart (left right : Segment Index Value) : Prop :=
  left.finish ≤ right.start ∧ (left.finish = right.start → left.value ≠ right.value)

/-- Normal form, checked at every segment and its neighbour. -/
def WellFormed : List (Segment Index Value) → Prop
  | [] => True
  | [only] => only.start < only.finish
  | first :: second :: rest =>
      first.start < first.finish ∧ Apart first second ∧ WellFormed (second :: rest)

def valueAt (segments : List (Segment Index Value)) (index : Index) : Option Value :=
  (segments.find? fun segment => decide (segment.Contains index)).map Segment.value

section NormalForm

variable {first left right : Segment Index Value} {segments front back : List (Segment Index Value)}

theorem Apart.trans {middle : Segment Index Value} (one : Apart left middle)
    (filled : middle.start < middle.finish) (two : Apart middle right) : Apart left right := by
  have later : left.finish < right.start :=
    lt_of_le_of_lt one.1 (lt_of_lt_of_le filled two.1)
  exact ⟨le_of_lt later, fun same => absurd same (ne_of_lt later)⟩

theorem wellFormed_cons :
    WellFormed (first :: segments) ↔
      first.start < first.finish ∧ (∀ other ∈ segments, Apart first other) ∧ WellFormed segments := by
  induction segments generalizing first with
  | nil => simp [WellFormed]
  | cons second rest ih =>
      constructor
      · rintro ⟨filled, apart, normal⟩
        obtain ⟨filledSecond, later, _⟩ := ih.mp normal
        refine ⟨filled, fun other member => ?_, normal⟩
        rcases mem_cons.mp member with rfl | deeper
        · exact apart
        · exact apart.trans filledSecond (later other deeper)
      · rintro ⟨filled, apart, normal⟩
        exact ⟨filled, apart second mem_cons_self, normal⟩

theorem wellFormed_append :
    WellFormed (front ++ back) ↔
      WellFormed front ∧ WellFormed back ∧ ∀ left ∈ front, ∀ right ∈ back, Apart left right := by
  induction front with
  | nil => simp [WellFormed]
  | cons first rest ih =>
      rw [List.cons_append, wellFormed_cons, wellFormed_cons, ih]
      simp only [mem_append, mem_cons]
      constructor
      · rintro ⟨filled, apart, normal, behind, across⟩
        refine ⟨⟨filled, fun other member => apart other (.inl member), normal⟩, behind, ?_⟩
        rintro left (rfl | member) right later
        · exact apart right (.inr later)
        · exact across left member right later
      · rintro ⟨⟨filled, apart, normal⟩, behind, across⟩
        refine ⟨filled, ?_, normal, behind, fun left member => across left (.inr member)⟩
        rintro other (member | later)
        · exact apart other member
        · exact across first (.inl rfl) other later

theorem WellFormed.filled (normal : WellFormed segments) {segment : Segment Index Value}
    (member : segment ∈ segments) : segment.start < segment.finish := by
  induction segments with
  | nil => cases member
  | cons first rest ih =>
      obtain ⟨filled, _, later⟩ := wellFormed_cons.mp normal
      rcases mem_cons.mp member with rfl | deeper
      · exact filled
      · exact ih later deeper

theorem wellFormed_insert {segment : Segment Index Value} (normal : WellFormed (front ++ back))
    (filled : segment.start < segment.finish) (before : ∀ left ∈ front, Apart left segment)
    (behind : ∀ right ∈ back, Apart segment right) : WellFormed (front ++ segment :: back) := by
  obtain ⟨normalFront, normalBack, across⟩ := wellFormed_append.mp normal
  refine wellFormed_append.mpr ⟨normalFront, wellFormed_cons.mpr ⟨filled, behind, normalBack⟩, ?_⟩
  intro left member right later
  rcases mem_cons.mp later with rfl | deeper
  · exact before left member
  · exact across left member right deeper

theorem WellFormed.remove {middle : List (Segment Index Value)}
    (normal : WellFormed (front ++ (middle ++ back))) : WellFormed (front ++ back) := by
  obtain ⟨normalFront, rest, across⟩ := wellFormed_append.mp normal
  obtain ⟨_, normalBack, _⟩ := wellFormed_append.mp rest
  refine wellFormed_append.mpr ⟨normalFront, normalBack, fun left member right later => ?_⟩
  exact across left member right (mem_append_right middle later)

theorem WellFormed.filter (normal : WellFormed segments) (keep : Segment Index Value → Bool) :
    WellFormed (segments.filter keep) := by
  induction segments with
  | nil => trivial
  | cons first rest ih =>
      obtain ⟨filled, apart, later⟩ := wellFormed_cons.mp normal
      rw [filter_cons]
      split
      · refine wellFormed_cons.mpr ⟨filled, fun other member => ?_, ih later⟩
        exact apart other (mem_filter.mp member).1
      · exact ih later

end NormalForm

section Map

variable {segment : Segment Index Value} {segments front middle back : List (Segment Index Value)}
  {index : Index}

@[simp]
theorem valueAt_nil : valueAt ([] : List (Segment Index Value)) index = none := rfl

theorem valueAt_cons :
    valueAt (segment :: segments) index =
      if segment.Contains index then some segment.value else valueAt segments index := by
  unfold valueAt
  rw [find?_cons]
  by_cases inside : segment.Contains index
  · simp [inside]
  · simp [inside]

theorem valueAt_append :
    valueAt (front ++ back) index = (valueAt front index).or (valueAt back index) := by
  unfold valueAt
  rw [find?_append]
  cases front.find? fun segment => decide (segment.Contains index) <;> rfl

theorem valueAt_eq_none_iff :
    valueAt segments index = none ↔ ∀ segment ∈ segments, ¬ segment.Contains index := by
  simp [valueAt]

theorem exists_of_valueAt {value : Value} (found : valueAt segments index = some value) :
    ∃ segment ∈ segments, segment.Contains index ∧ segment.value = value := by
  obtain ⟨segment, here, same⟩ := Option.map_eq_some_iff.mp found
  have inside := find?_some here
  exact ⟨segment, mem_of_find?_eq_some here, of_decide_eq_true inside, same⟩

theorem Apart.not_contains_left {left right : Segment Index Value} (apart : Apart left right)
    (inside : right.Contains index) : ¬ left.Contains index := by
  intro also
  have early := also.2
  have late := inside.1
  have between := apart.1
  order

theorem Apart.not_contains_right {left right : Segment Index Value} (apart : Apart left right)
    (inside : left.Contains index) : ¬ right.Contains index :=
  fun also => apart.not_contains_left also inside

theorem valueAt_front (before : ∀ left ∈ front, Apart left segment)
    (inside : segment.Contains index) : valueAt front index = none :=
  valueAt_eq_none_iff.mpr fun left member => (before left member).not_contains_left inside

theorem valueAt_back (behind : ∀ right ∈ back, Apart segment right)
    (inside : segment.Contains index) : valueAt back index = none :=
  valueAt_eq_none_iff.mpr fun right member => (behind right member).not_contains_right inside

theorem valueAt_insert (before : segment.Contains index → valueAt front index = none) :
    valueAt (front ++ segment :: back) index =
      if segment.Contains index then some segment.value else valueAt (front ++ back) index := by
  rw [valueAt_append, valueAt_cons]
  by_cases inside : segment.Contains index
  · rw [if_pos inside, if_pos inside, before inside, Option.none_or]
  · rw [if_neg inside, if_neg inside, valueAt_append]

theorem valueAt_replace {Label : Type*} (rename : Value → Label)
    (before : ∀ left ∈ front, Apart left segment)
    (values : ∀ other ∈ middle, rename other.value = rename segment.value)
    (covers : segment.Contains index ↔ ∃ other ∈ middle, other.Contains index) :
    (valueAt (front ++ segment :: back) index).map rename =
      (valueAt (front ++ (middle ++ back)) index).map rename := by
  rw [valueAt_insert (valueAt_front before)]
  by_cases inside : segment.Contains index
  · rw [if_pos inside, valueAt_append, valueAt_front before inside, Option.none_or, valueAt_append]
    cases found : valueAt middle index with
    | none =>
        obtain ⟨other, member, also⟩ := covers.mp inside
        exact absurd also (valueAt_eq_none_iff.mp found other member)
    | some value =>
        obtain ⟨other, member, _, rfl⟩ := exists_of_valueAt found
        rw [Option.some_or, Option.map_some, Option.map_some, values other member]
  · have none : valueAt middle index = none :=
      valueAt_eq_none_iff.mpr fun other member also => inside (covers.mpr ⟨other, member, also⟩)
    rw [if_neg inside, valueAt_append, valueAt_append, valueAt_append, none, Option.none_or]

theorem valueAt_union (added : Segment Index Value) (before : ∀ left ∈ front, Apart left segment)
    (same : segment.value = added.value) (values : ∀ other ∈ middle, other.value = added.value)
    (covers : segment.Contains index ↔
      added.Contains index ∨ ∃ other ∈ middle, other.Contains index) :
    valueAt (front ++ segment :: back) index =
      if added.Contains index then some added.value
      else valueAt (front ++ (middle ++ back)) index := by
  have replaced : (valueAt (front ++ segment :: back) index).map id =
      (valueAt (front ++ (added :: middle ++ back)) index).map id := by
    refine valueAt_replace id before (fun other member => ?_) ?_
    · rcases mem_cons.mp member with rfl | deeper
      · exact same.symm
      · exact (values other deeper).trans same.symm
    · rw [covers]
      simp only [mem_cons, or_and_right, exists_or, exists_eq_left]
  rw [Option.map_id_fun, id, id] at replaced
  rw [replaced, List.cons_append]
  exact valueAt_insert fun inside => valueAt_front before (covers.mpr (.inl inside))

theorem valueAt_filter_ne [DecidableEq Value] (normal : WellFormed segments) (value : Value) :
    valueAt (segments.filter fun segment => decide (segment.value ≠ value)) index =
      if valueAt segments index = some value then none else valueAt segments index := by
  induction segments with
  | nil => rfl
  | cons first rest ih =>
      obtain ⟨_, apart, later⟩ := wellFormed_cons.mp normal
      have outside : first.Contains index → valueAt rest index = none := valueAt_back apart
      have kept := ih later
      rw [filter_cons]
      by_cases same : first.value = value
      · rw [if_neg (by simp [same]), kept, valueAt_cons]
        by_cases inside : first.Contains index
        · rw [if_pos inside, outside inside, same, if_pos rfl]
          rfl
        · rw [if_neg inside]
      · rw [if_pos (by simp [same]), valueAt_cons, valueAt_cons, kept]
        by_cases inside : first.Contains index
        · rw [if_pos inside, if_pos inside, if_neg (fun equal => same (Option.some.inj equal))]
        · rw [if_neg inside, if_neg inside]

theorem WellFormed.valueAt_eq (normal : WellFormed segments) (member : segment ∈ segments)
    (inside : segment.Contains index) : valueAt segments index = some segment.value := by
  induction segments with
  | nil => cases member
  | cons first rest ih =>
      obtain ⟨_, apart, later⟩ := wellFormed_cons.mp normal
      rw [valueAt_cons]
      rcases mem_cons.mp member with rfl | deeper
      · rw [if_pos inside]
      · rw [if_neg ((apart segment deeper).not_contains_left inside)]
        exact ih later deeper

theorem WellFormed.exists_valueAt (normal : WellFormed segments) (member : segment ∈ segments) :
    ∃ index, valueAt segments index = some segment.value :=
  ⟨segment.start, normal.valueAt_eq member ⟨le_refl _, normal.filled member⟩⟩

end Map

section Searching

variable {segments : List (Segment Index Value)}

/-- The place from which on a property holds, and before which it does not. -/
def PartitionedAt {Item : Type*} (property : Item → Prop) (items : List Item) (place : Nat) : Prop :=
  place ≤ items.length ∧
    ∀ (position : Nat) (item : Item), items[position]? = some item → (property item ↔ place ≤ position)

theorem PartitionedAt.split {Item : Type*} {property : Item → Prop} {items : List Item} {place : Nat}
    (parted : PartitionedAt property items place) :
    ∃ front back, items = front ++ back ∧ front.length = place ∧
      (∀ item ∈ front, ¬ property item) ∧ ∀ item ∈ back, property item := by
  refine ⟨items.take place, items.drop place, (take_append_drop place items).symm,
    length_take_of_le parted.1, fun item member => ?_, fun item member => ?_⟩
  · obtain ⟨position, here⟩ := mem_iff_getElem?.mp member
    rw [getElem?_take] at here
    split at here
    · rename_i early
      rw [parted.2 position item here]
      exact Nat.not_le.mpr early
    · cases here
  · obtain ⟨position, here⟩ := mem_iff_getElem?.mp member
    rw [getElem?_drop] at here
    exact (parted.2 _ item here).mpr (Nat.le_add_right place position)

theorem partitionedAt_findIdx {Item : Type*} {property : Item → Bool} {items : List Item}
    (stays : items.Pairwise fun left right => property left = true → property right = true) :
    PartitionedAt (fun item => property item = true) items (items.findIdx property) := by
  induction items with
  | nil =>
      refine ⟨Nat.zero_le _, fun position item here => ?_⟩
      cases here
  | cons first rest ih =>
      obtain ⟨onward, later⟩ := pairwise_cons.mp stays
      obtain ⟨within, parted⟩ := ih later
      rw [findIdx_cons]
      cases holds : property first with
      | true =>
          refine ⟨Nat.zero_le _, fun position item here => ?_⟩
          have member := mem_of_getElem? here
          rcases mem_cons.mp member with rfl | deeper
          · simp [holds]
          · simp [onward item deeper holds]
      | false =>
          refine ⟨Nat.succ_le_succ within, fun position item here => ?_⟩
          cases position with
          | zero =>
              cases here
              simp [holds]
          | succ position =>
              rw [getElem?_cons_succ] at here
              rw [parted position item here]
              simp

theorem WellFormed.pairwise (normal : WellFormed segments) :
    segments.Pairwise fun left right => left.start < left.finish ∧ Apart left right := by
  induction segments with
  | nil => exact .nil
  | cons first rest ih =>
      obtain ⟨filled, apart, later⟩ := wellFormed_cons.mp normal
      exact .cons (fun other member => ⟨filled, apart other member⟩) (ih later)

/-- Segments in order that do not overlap; neighbours that touch may have one value. -/
structure InOrder (segments : List (Segment Index Value)) : Prop where
  filled : ∀ segment ∈ segments, segment.start < segment.finish
  ordered : segments.Pairwise fun left right => left.finish ≤ right.start

theorem WellFormed.inOrder (normal : WellFormed segments) : InOrder segments :=
  ⟨fun _ => normal.filled, normal.pairwise.imp fun both => both.2.1⟩

theorem InOrder.pairwise (sorted : InOrder segments) :
    segments.Pairwise fun left right => left.start < left.finish ∧ left.finish ≤ right.start ∧
      right.start < right.finish := by
  apply sorted.ordered.imp_of_mem
  intro left right one two ordered
  exact ⟨sorted.filled left one, ordered, sorted.filled right two⟩

theorem InOrder.tail {first : Segment Index Value} (sorted : InOrder (first :: segments)) : InOrder segments :=
  ⟨fun segment member => sorted.filled segment (mem_cons_of_mem first member),
    (pairwise_cons.mp sorted.ordered).2⟩

theorem InOrder.start_le {first segment : Segment Index Value} (sorted : InOrder (first :: segments))
    (member : segment ∈ first :: segments) : first.start ≤ segment.start := by
  rcases mem_cons.mp member with rfl | later
  · exact le_refl _
  · have filled := sorted.filled first mem_cons_self
    exact filled.le.trans ((pairwise_cons.mp sorted.ordered).1 segment later)

theorem inOrder_append {front back : List (Segment Index Value)} :
    InOrder (front ++ back) ↔ InOrder front ∧ InOrder back ∧
      ∀ left ∈ front, ∀ right ∈ back, left.finish ≤ right.start := by
  constructor
  · rintro ⟨filled, ordered⟩
    obtain ⟨one, two, across⟩ := pairwise_append.mp ordered
    exact ⟨⟨fun segment member => filled segment (mem_append_left back member), one⟩,
      ⟨fun segment member => filled segment (mem_append_right front member), two⟩, across⟩
  · rintro ⟨one, two, across⟩
    refine ⟨fun segment member => ?_, pairwise_append.mpr ⟨one.ordered, two.ordered, across⟩⟩
    rcases mem_append.mp member with inFront | inBack
    · exact one.filled segment inFront
    · exact two.filled segment inBack

end Searching

section Order

variable {left right segment : Segment Index Value} {segments part others : List (Segment Index Value)}

theorem Apart.asymm (apart : Apart left right) (filledLeft : left.start < left.finish)
    (filledRight : right.start < right.finish) : ¬ Apart right left := by
  intro back
  have one := apart.1
  have two := back.1
  order

theorem wellFormed_iff_pairwise :
    WellFormed segments ↔
      (∀ segment ∈ segments, segment.start < segment.finish) ∧ segments.Pairwise Apart := by
  constructor
  · intro normal
    exact ⟨fun segment => normal.filled, normal.pairwise.imp And.right⟩
  · rintro ⟨filled, apart⟩
    induction segments with
    | nil => trivial
    | cons first rest ih =>
        obtain ⟨ahead, later⟩ := pairwise_cons.mp apart
        exact wellFormed_cons.mpr ⟨filled first mem_cons_self, ahead,
          ih (fun segment member => filled segment (mem_cons_of_mem first member)) later⟩

section

variable (normal : WellFormed segments)

include normal

theorem WellFormed.apart_of_getLast
    (last : ∀ back ∈ segments.getLast?, Apart back segment) :
    ∀ other ∈ segments, Apart other segment := by
  intro other member
  rcases segments.eq_nil_or_concat with rfl | ⟨front, back, rfl⟩
  · cases member
  · rw [concat_eq_append] at normal last member
    have near : Apart back segment := last back (by simp)
    obtain ⟨_, single, across⟩ := wellFormed_append.mp normal
    rcases mem_append.mp member with early | atEnd
    · exact (across other early back mem_cons_self).trans single near
    · rw [mem_singleton.mp atEnd]
      exact near

/-- Segments taken from a list in normal form lie one before the other, whatever
the order they are kept in. -/
theorem WellFormed.pairwise_of_perm (perm : segments.Perm part) :
    part.Pairwise fun one two => Apart one two ∨ Apart two one :=
  ((wellFormed_iff_pairwise.mp normal).2.imp Or.inl).perm perm Or.symm

theorem WellFormed.of_perm_append
    (perm : segments.Perm (part ++ others))
    (sorted : part.Pairwise fun one two => one.start ≤ two.start) : WellFormed part := by
  have filled : ∀ one ∈ part, one.start < one.finish :=
    fun one member => normal.filled (perm.mem_iff.mpr (mem_append_left others member))
  refine wellFormed_iff_pairwise.mpr ⟨filled, ?_⟩
  have either := (pairwise_append.mp (normal.pairwise_of_perm perm)).1
  refine (either.and sorted).imp_of_mem fun {one two} memberOne memberTwo both => ?_
  rcases both.1 with apart | back
  · exact apart
  · have gap := back.1
    have long := filled two memberTwo
    order

theorem WellFormed.eq_of_perm (normalPart : WellFormed part)
    (perm : segments.Perm part) : segments = part := by
  refine perm.eq_of_pairwise ?_ (wellFormed_iff_pairwise.mp normal).2
    (wellFormed_iff_pairwise.mp normalPart).2
  intro one two memberOne memberTwo apart back
  exact absurd back (apart.asymm (normal.filled memberOne) (normalPart.filled memberTwo))

theorem WellFormed.sorted :
    segments.Pairwise fun one two => one.start ≤ two.start := by
  refine normal.pairwise.imp fun {one two} both => ?_
  have gap := both.2.1
  order

end

end Order

section Unique

variable {first other : Segment Index Value} {segments rest left right : List (Segment Index Value)}

section

variable (normal : WellFormed (first :: rest))

include normal

theorem WellFormed.start_le_of_valueAt {index : Index}
    {value : Value} (found : valueAt (first :: rest) index = some value) : first.start ≤ index := by
  obtain ⟨filled, apart, _⟩ := wellFormed_cons.mp normal
  obtain ⟨segment, member, inside, _⟩ := exists_of_valueAt found
  rcases mem_cons.mp member with rfl | deeper
  · exact inside.1
  · have gap := (apart segment deeper).1
    have started := inside.1
    order

theorem WellFormed.valueAt_start :
    valueAt (first :: rest) first.start = some first.value :=
  normal.valueAt_eq mem_cons_self ⟨le_refl _, normal.filled mem_cons_self⟩

theorem WellFormed.valueAt_finish_ne :
    valueAt (first :: rest) first.finish ≠ some first.value := by
  intro found
  obtain ⟨_, apart, _⟩ := wellFormed_cons.mp normal
  obtain ⟨segment, member, inside, same⟩ := exists_of_valueAt found
  rcases mem_cons.mp member with rfl | deeper
  · exact lt_irrefl _ inside.2
  · obtain ⟨gap, differ⟩ := apart segment deeper
    exact differ (le_antisymm gap inside.1) same.symm

/-- The first segment of a list is read off the map, so its end is no later than
that of another list with the same map. -/
theorem WellFormed.finish_le_of_valueAt
    (normalOther : WellFormed (other :: segments)) (start : first.start = other.start)
    (value : first.value = other.value)
    (same : ∀ index, valueAt (first :: rest) index = valueAt (other :: segments) index) :
    first.finish ≤ other.finish := by
  by_contra short
  have inside : first.Contains other.finish := by
    have filled := normalOther.filled mem_cons_self
    exact ⟨by order, by order⟩
  have found := normal.valueAt_eq mem_cons_self inside
  rw [same, value] at found
  exact normalOther.valueAt_finish_ne found

theorem WellFormed.head_eq_of_valueAt
    (normalOther : WellFormed (other :: segments))
    (same : ∀ index, valueAt (first :: rest) index = valueAt (other :: segments) index) :
    first = other := by
  have here := normal.valueAt_start
  have there := normalOther.valueAt_start
  have start : first.start = other.start := by
    have late := normalOther.start_le_of_valueAt ((same _).symm.trans here)
    have early := normal.start_le_of_valueAt ((same _).trans there)
    order
  have value : first.value = other.value := by
    rw [same, start, there] at here
    exact (Option.some.inj here).symm
  have finish : first.finish = other.finish :=
    le_antisymm (normal.finish_le_of_valueAt normalOther start value same)
      (normalOther.finish_le_of_valueAt normal start.symm value.symm fun index => (same index).symm)
  cases first
  cases other
  simp_all

end

theorem WellFormed.eq_of_valueAt (normalLeft : WellFormed left) (normalRight : WellFormed right)
    (same : ∀ index, valueAt left index = valueAt right index) : left = right := by
  induction left generalizing right with
  | nil =>
      cases right with
      | nil => rfl
      | cons first rest =>
          have found := normalRight.valueAt_start
          rw [← same] at found
          cases found
  | cons first rest ih =>
      cases right with
      | nil =>
          have found := normalLeft.valueAt_start
          rw [same] at found
          cases found
      | cons other segments =>
          obtain rfl := normalLeft.head_eq_of_valueAt normalRight same
          obtain ⟨_, apartLeft, laterLeft⟩ := wellFormed_cons.mp normalLeft
          obtain ⟨_, apartRight, laterRight⟩ := wellFormed_cons.mp normalRight
          rw [ih laterLeft laterRight fun index => ?_]
          by_cases inside : first.Contains index
          · rw [valueAt_back apartLeft inside, valueAt_back apartRight inside]
          · have both := same index
            rw [valueAt_cons, valueAt_cons, if_neg inside, if_neg inside] at both
            exact both

end Unique

end EvmBackend.Segments
