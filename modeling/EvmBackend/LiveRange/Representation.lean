/-
The representation of a live range over whole sequences of calls: when the list
stays in normal form, with the map each call is meant to leave.

A call is judged by what it asserts. Two kinds of calls can still go wrong: a
definition put right behind a segment of its own value is not joined to it, and
calls that only look at the vector do not see the segments of the set.
-/

import EvmBackend.LiveRange.Editing

namespace EvmBackend

open List Option

inductive LiveRangeCall
  | addSegment (segment : LiveSegment)
  | removeSegment (start finish : Nat) (removeDeadValNo : Bool)
  | removeValNo (valno : Nat)
  | createDeadDef (definedAt : Nat)
  | createDeadDefOf (valno : Nat)
  | extendInBlock (startIdx use : Nat)
  | extendInBlockUndefs (undefs : List Nat) (startIdx use : Nat)
  | mergeValueNumberInto (v1 v2 : Nat)
  deriving DecidableEq, Repr

variable {valno definedAt : Nat} {front back : List LiveSegment} {next : LiveRange}

namespace LiveRange

open Segments

def applyCall : LiveRangeCall → LiveRange → Option LiveRange
  | .addSegment segment, range => addSegment segment range
  | .removeSegment start finish removeDeadValNo, range =>
      removeSegment start finish removeDeadValNo range
  | .removeValNo valno, range => some (removeValNo valno range)
  | .createDeadDef definedAt, range => some (createDeadDef definedAt range).1
  | .createDeadDefOf valno, range => (createDeadDefOf valno range).map Prod.fst
  | .extendInBlock startIdx use, range => (extendInBlock startIdx use range).map Prod.fst
  | .extendInBlockUndefs undefs startIdx use, range =>
      (extendInBlockUndefs undefs startIdx use range).map Prod.fst
  | .mergeValueNumberInto v1 v2, range => some (mergeValueNumberInto v1 v2 range).1

def valueMap (range : LiveRange) : Nat → Option Nat := valueAt range.collection

/-- The list in normal form; the vector is empty while the set is used, and the
segments point to values that exist. -/
structure Represented (range : LiveRange) : Prop where
  normal : WellFormed range.collection
  setFirst : range.segmentSet ≠ none → range.segments = []
  exist : ∀ segment ∈ range.collection, segment.value < range.allocated.length

/-- A definition is put into a hole, or where its instruction defines already. -/
def DefAsserted (definedAt : Nat) (forVNI : Option Nat) (range : LiveRange) : Prop :=
  isDead definedAt = false ∧ ∀ segment ∈ range.collection[range.findPos definedAt]?,
    if isSameInstr definedAt segment.start = true then
      forVNI.getD segment.value = segment.value ∧
        (range.info segment.value).definedAt = some segment.start
    else isEarlierInstr definedAt segment.start = true

instance (definedAt : Nat) (forVNI : Option Nat) (range : LiveRange) :
    Decidable (DefAsserted definedAt forVNI range) :=
  inferInstanceAs (Decidable (_ ∧ _))

instance (added : LiveSegment) (segments : List LiveSegment) :
    Decidable (Compatible added segments) :=
  inferInstanceAs (Decidable (∀ _ ∈ _, _))

def Asserted : LiveRangeCall → LiveRange → Prop
  | .addSegment segment, range =>
      segment.start < segment.finish ∧ segment.value < range.allocated.length ∧
        Compatible segment range.collection
  | .removeSegment start finish _, range =>
      start < finish ∧ ∃ segment ∈ range.segments, segment.start ≤ start ∧ finish ≤ segment.finish
  | .removeValNo _, _ => True
  | .createDeadDef definedAt, range => DefAsserted definedAt none range
  | .createDeadDefOf valno, range =>
      valno < range.allocated.length ∧ (range.info valno).definedAt.isSome ∧
        DefAsserted ((range.info valno).definedAt.getD 0) (some valno) range
  | .extendInBlock _ use, _ => 0 < use
  | .extendInBlockUndefs _ _ use, _ => 0 < use
  | .mergeValueNumberInto v1 v2, range =>
      v1 ≠ v2 ∧ v1 < range.allocated.length ∧ v2 < range.allocated.length

instance : ∀ call range, Decidable (Asserted call range)
  | .addSegment _, _ => inferInstanceAs (Decidable (_ ∧ _))
  | .removeSegment _ _ _, _ => inferInstanceAs (Decidable (_ ∧ ∃ _ ∈ _, _))
  | .removeValNo _, _ => inferInstanceAs (Decidable True)
  | .createDeadDef _, _ => inferInstanceAs (Decidable (DefAsserted _ _ _))
  | .createDeadDefOf _, _ => inferInstanceAs (Decidable (_ ∧ _))
  | .extendInBlock _ _, _ => inferInstanceAs (Decidable (_ < _))
  | .extendInBlockUndefs _ _ _, _ => inferInstanceAs (Decidable (_ < _))
  | .mergeValueNumberInto _ _, _ => inferInstanceAs (Decidable (_ ∧ _))

/-- The segment a definition adds: up to the dead slot, or up to the definition
its instruction has already. -/
def defSegment (definedAt valno : Nat) (range : LiveRange) : LiveSegment :=
  match range.collection[range.findPos definedAt]? with
  | none => ⟨definedAt, getDeadSlot definedAt, valno⟩
  | some segment =>
      if isSameInstr definedAt segment.start then ⟨definedAt, segment.start, segment.value⟩
      else ⟨definedAt, getDeadSlot definedAt, valno⟩

/-- The segment an extension adds behind the last one that starts before the
use, if that is live in the block and no index in between is undefined. -/
def useSegment (undefs : List Nat) (startIdx use : Nat) (range : LiveRange) : Option LiveSegment :=
  match segmentBefore use range with
  | none => none
  | some (_, segment) =>
      if segment.finish ≤ startIdx ∨ isUndefIn undefs segment.finish (getPrevSlot use) = true then none
      else some ⟨segment.finish, use, segment.value⟩

def withUse (added : Option LiveSegment) (map : Nat → Option Nat) : Nat → Option Nat :=
  match added with
  | none => map
  | some segment => withSegment segment map

def mergeGone (v1 v2 : Nat) (range : LiveRange) : Nat :=
  if (range.info v1).id < (range.info v2).id then v2 else v1

def mergeKept (v1 v2 : Nat) (range : LiveRange) : Nat :=
  if (range.info v1).id < (range.info v2).id then v1 else v2

def expectedMap : LiveRangeCall → LiveRange → Nat → Option Nat
  | .addSegment segment, range => withSegment segment range.valueMap
  | .removeSegment start finish _, range => withoutSpan start finish range.valueMap
  | .removeValNo valno, range => withoutValue valno range.valueMap
  | .createDeadDef definedAt, range =>
      withSegment (defSegment definedAt range.allocated.length range) range.valueMap
  | .createDeadDefOf valno, range =>
      withSegment (defSegment ((range.info valno).definedAt.getD 0) valno range) range.valueMap
  | .extendInBlock startIdx use, range => withUse (useSegment [] startIdx use range) range.valueMap
  | .extendInBlockUndefs undefs startIdx use, range =>
      withUse (useSegment undefs startIdx use range) range.valueMap
  | .mergeValueNumberInto v1 v2, range => fun index =>
      (range.valueMap index).map (renamed (mergeGone v1 v2 range) (mergeKept v1 v2 range))

/-- The call returns, the list is in normal form, and the map is the one meant. -/
def KeepsRepresentation (call : LiveRangeCall) (range : LiveRange) : Prop :=
  ∃ next, applyCall call range = some next ∧ Represented next ∧
    ∀ index, next.valueMap index = expectedMap call range index

/-! ### When they do -/

def FreeBefore (added : LiveSegment) (range : LiveRange) : Prop :=
  added.start < added.finish → ∀ segment ∈ range.collection,
    segment.finish = added.start → segment.value ≠ added.value

def NotInSet (valno : Nat) (range : LiveRange) : Prop :=
  ∀ segment ∈ range.segmentSet.getD [], segment.value ≠ valno

def JoinsNothing : LiveRangeCall → LiveRange → Prop
  | .createDeadDef definedAt, range =>
      FreeBefore (defSegment definedAt range.allocated.length range) range
  | .createDeadDefOf valno, range =>
      FreeBefore (defSegment ((range.info valno).definedAt.getD 0) valno range) range
  | .removeValNo valno, range => NotInSet valno range
  | .mergeValueNumberInto v1 v2, range => NotInSet (mergeGone v1 v2 range) range
  | _, _ => True

instance (added : LiveSegment) (range : LiveRange) : Decidable (FreeBefore added range) :=
  inferInstanceAs (Decidable (_ → ∀ _ ∈ _, _))

instance (valno : Nat) (range : LiveRange) : Decidable (NotInSet valno range) :=
  inferInstanceAs (Decidable (∀ _ ∈ _, _))

instance : ∀ call range, Decidable (JoinsNothing call range)
  | .createDeadDef _, _ => inferInstanceAs (Decidable (FreeBefore _ _))
  | .createDeadDefOf _, _ => inferInstanceAs (Decidable (FreeBefore _ _))
  | .removeValNo _, _ => inferInstanceAs (Decidable (NotInSet _ _))
  | .mergeValueNumberInto _ _, _ => inferInstanceAs (Decidable (NotInSet _ _))
  | .addSegment _, _ | .removeSegment _ _ _, _ | .extendInBlock _ _, _
  | .extendInBlockUndefs _ _ _, _ => inferInstanceAs (Decidable True)

variable {range : LiveRange}

@[simp]
theorem collection_setCollection (segments : List LiveSegment) :
    (range.setCollection segments).collection = segments := by
  unfold setCollection collection
  cases kept : range.segmentSet <;> simp

theorem represented_setCollection {segments : List LiveSegment} {map : Nat → Option Nat}
    (rep : Represented range) (holds : Holds segments map)
    (exist : ∀ index value, map index = some value → value < range.allocated.length) :
    Represented (range.setCollection segments) ∧
      ∀ index, (range.setCollection segments).valueMap index = map index := by
  have values : ∀ segment ∈ segments, segment.value < range.allocated.length := by
    intro segment member
    obtain ⟨index, found⟩ := holds.normal.exists_valueAt member
    exact exist index _ ((holds.values index).symm.trans found)
  refine ⟨⟨?_, ?_, ?_⟩, fun index => ?_⟩
  · rw [collection_setCollection]
    exact holds.normal
  · have first := rep.setFirst
    unfold setCollection
    cases kept : range.segmentSet with
    | none => exact fun absent => absurd rfl absent
    | some set => exact fun _ => first (by rw [kept]; exact some_ne_none set)
  · rw [collection_setCollection]
    intro segment member
    have bound := values segment member
    unfold setCollection
    cases range.segmentSet <;> exact bound
  · unfold valueMap
    rw [collection_setCollection]
    exact holds.values index

theorem Represented.exists_lt (rep : Represented range) {index value : Nat}
    (found : range.valueMap index = some value) : value < range.allocated.length := by
  obtain ⟨segment, member, _, rfl⟩ := exists_of_valueAt found
  exact rep.exist segment member

theorem withSegment_lt {added : LiveSegment} (rep : Represented range)
    (exists_ : added.value < range.allocated.length) (index value : Nat)
    (found : withSegment added range.valueMap index = some value) :
    value < range.allocated.length := by
  unfold withSegment at found
  split at found
  · cases found
    exact exists_
  · exact rep.exists_lt found

theorem addSegment_keeps {segment : LiveSegment} (rep : Represented range)
    (asserted : Asserted (.addSegment segment) range) :
    KeepsRepresentation (.addSegment segment) range := by
  obtain ⟨filled, known, compatible⟩ := asserted
  obtain ⟨segments, done, holds⟩ := addSegmentAt_holds rep.normal filled compatible
    (findInsertPos_partitioned rep.normal.inOrder segment)
  refine ⟨range.setCollection segments, ?_, ?_⟩
  · simp only [applyCall, addSegment, done, map_some]
  · exact represented_setCollection rep holds (withSegment_lt rep known)

theorem collection_of_vector (vector : range.segmentSet = none) :
    range.collection = range.segments := by
  unfold collection
  rw [vector]
  rfl

theorem collection_of_set {set : List LiveSegment} (used : range.segmentSet = some set) :
    range.collection = set := by
  unfold collection
  rw [used]
  rfl

theorem represented_of_vector {map : Nat → Option Nat} (vector : next.segmentSet = none)
    (holds : Holds next.segments map)
    (exist : ∀ index value, map index = some value → value < next.allocated.length) :
    Represented next ∧ ∀ index, next.valueMap index = map index := by
  have same := collection_of_vector vector
  refine ⟨⟨?_, fun used => absurd vector used, ?_⟩, fun index => ?_⟩
  · rw [same]
    exact holds.normal
  · intro segment member
    rw [same] at member
    obtain ⟨index, found⟩ := holds.normal.exists_valueAt member
    exact exist index _ ((holds.values index).symm.trans found)
  · unfold valueMap
    rw [same]
    exact holds.values index

theorem removeSegment_keeps {start finish : Nat} {removeDeadValNo : Bool} (rep : Represented range)
    (asserted : Asserted (.removeSegment start finish removeDeadValNo) range) :
    KeepsRepresentation (.removeSegment start finish removeDeadValNo) range := by
  obtain ⟨span, held⟩ := asserted
  -- a segment in the vector: the set is not in use
  have vector : range.segmentSet = none := by
    by_contra used
    obtain ⟨segment, member, _⟩ := held
    rw [rep.setFirst used] at member
    cases member
  have same := collection_of_vector vector
  have normal := rep.normal
  rw [same] at normal
  obtain ⟨segments, valnos, allocated, done, long, holds⟩ :=
    removeSegment_holds removeDeadValNo normal span held
  rw [← same] at holds
  refine ⟨_, done, represented_of_vector vector holds fun index value found => ?_⟩
  change value < allocated.length
  change withoutSpan start finish range.valueMap index = some value at found
  unfold withoutSpan at found
  split at found
  · cases found
  · rw [long]
    exact rep.exists_lt found

theorem notInSet_of_vector (vector : range.segmentSet = none) : NotInSet valno range := by
  unfold NotInSet
  rw [vector]
  exact fun _ absent => by cases absent

theorem keeps_iff_notInSet {call : LiveRangeCall} {set : List LiveSegment}
    (rep : Represented range) (used : range.segmentSet = some set)
    (done : applyCall call range = some next) (kept : Represented next)
    (same : ∀ index, next.valueMap index = range.valueMap index)
    (moved : ∀ index, expectedMap call range index = range.valueMap index ↔ range.valueMap index ≠ some valno) :
    KeepsRepresentation call range ↔ NotInSet valno range := by
  have collected := collection_of_set used
  constructor
  · rintro ⟨other, alsoDone, _, values⟩ segment member isValue
    obtain rfl := Option.some.inj (done.symm.trans alsoDone)
    rw [used] at member
    obtain ⟨index, found⟩ := rep.normal.exists_valueAt (collected.symm ▸ member)
    exact (moved index).mp ((values index).symm.trans (same index)) (isValue ▸ found)
  · intro absent
    refine ⟨next, done, kept, fun index => (same index).trans ((moved index).mpr fun found => ?_).symm⟩
    obtain ⟨segment, member, _, isValue⟩ := exists_of_valueAt found
    refine absent segment ?_ isValue
    rw [used]
    exact collected ▸ member

theorem removeValNo_keeps_iff (rep : Represented range) :
    KeepsRepresentation (.removeValNo valno) range ↔ NotInSet valno range := by
  cases used : range.segmentSet with
  | none =>
      refine ⟨fun _ => notInSet_of_vector used, fun _ => ?_⟩
      have same := collection_of_vector used
      have normal := rep.normal
      rw [same] at normal
      obtain ⟨next, done, vector, long, segments⟩ : ∃ next,
          removeValNo valno range = next ∧ next.segmentSet = none ∧
          next.allocated.length = range.allocated.length ∧
          next.segments = range.segments.filter fun segment => decide (segment.value ≠ valno) := by
        refine ⟨_, rfl, ?_⟩
        unfold removeValNo
        split
        · rename_i empty
          rw [empty]
          exact ⟨used, rfl, rfl⟩
        · obtain ⟨valnos, allocated, marked, long⟩ := markValNoForDeletion_frame valno
            { range with segments :=
              range.segments.filter fun segment => decide (segment.value ≠ valno) }
          rw [marked]
          exact ⟨used, long, rfl⟩
      have holds : Holds next.segments (withoutValue valno (valueAt range.collection)) := by
        rw [segments, same]
        exact ⟨normal.filter _, fun index => valueAt_filter_ne normal valno⟩
      refine ⟨next, congrArg some done, represented_of_vector vector holds fun index value found => ?_⟩
      change withoutValue valno range.valueMap index = some value at found
      unfold withoutValue at found
      split at found
      · cases found
      · rw [long]
        exact rep.exists_lt found
  | some set =>
      have empty := rep.setFirst (by rw [used]; exact some_ne_none set)
      have unchanged : removeValNo valno range = range := if_pos empty
      refine keeps_iff_notInSet rep used (congrArg some unchanged) rep (fun _ => rfl) fun index => ?_
      change withoutValue valno range.valueMap index = _ ↔ _
      unfold withoutValue
      by_cases found : range.valueMap index = some valno
      · simp [found]
      · simp [found]

theorem mergeGone_ne_mergeKept {v1 v2 : Nat} (distinct : v1 ≠ v2) (range : LiveRange) :
    mergeGone v1 v2 range ≠ mergeKept v1 v2 range := by
  unfold mergeGone mergeKept
  split
  · exact distinct.symm
  · exact distinct

theorem mergeValueNumberInto_frame (v1 v2 : Nat) (range : LiveRange) :
    ∃ next, (mergeValueNumberInto v1 v2 range).1 = next ∧
      next.segmentSet = range.segmentSet ∧ next.allocated.length = range.allocated.length ∧
      next.segments = mergeLoop (mergeGone v1 v2 range) (mergeKept v1 v2 range) [] range.segments := by
  refine ⟨_, rfl, ?_⟩
  unfold mergeValueNumberInto
  simp only
  obtain ⟨valnos, allocated, marked, long⟩ := markValNoForDeletion_frame (mergeGone v1 v2 range)
    { (if (range.info v1).id < (range.info v2).id then setDef v1 (range.info v2).definedAt range
        else range) with
      segments := mergeLoop (mergeGone v1 v2 range) (mergeKept v1 v2 range) [] range.segments }
  have result := marked
  unfold mergeGone mergeKept at result
  rw [result]
  refine ⟨?_, long.trans ?_, rfl⟩
  · change (if (range.info v1).id < (range.info v2).id then setDef v1 (range.info v2).definedAt range
      else range).segmentSet = range.segmentSet
    split <;> rfl
  · change (if (range.info v1).id < (range.info v2).id then setDef v1 (range.info v2).definedAt range
      else range).allocated.length = range.allocated.length
    split
    · exact length_set
    · rfl

theorem renamed_lt {gone kept value count : Nat} (keptKnown : kept < count) (known : value < count) :
    renamed gone kept value < count := by
  unfold renamed
  split
  · exact keptKnown
  · exact known

theorem mergeValueNumberInto_keeps_iff {v1 v2 : Nat} (rep : Represented range)
    (asserted : Asserted (.mergeValueNumberInto v1 v2) range) :
    KeepsRepresentation (.mergeValueNumberInto v1 v2) range ↔
      NotInSet (mergeGone v1 v2 range) range := by
  obtain ⟨distinct, known1, known2⟩ := asserted
  have apart := mergeGone_ne_mergeKept distinct range
  have keptKnown : mergeKept v1 v2 range < range.allocated.length := by
    unfold mergeKept
    split
    · exact known1
    · exact known2
  obtain ⟨next, done, sets, long, segments⟩ := mergeValueNumberInto_frame v1 v2 range
  cases used : range.segmentSet with
  | none =>
      refine ⟨fun _ => notInSet_of_vector used, fun _ => ?_⟩
      have same := collection_of_vector used
      have normal := rep.normal
      rw [same] at normal
      have holds := mergeLoop_holds apart [] range.segments normal (fun _ absent => by cases absent)
      rw [← segments] at holds
      have holds' : Holds next.segments (expectedMap (.mergeValueNumberInto v1 v2) range) := by
        refine ⟨holds.normal, fun index => (holds.values index).trans ?_⟩
        change _ = (valueAt range.collection index).map _
        rw [same]
        rfl
      refine ⟨next, congrArg some done,
        represented_of_vector (sets.trans used) holds' fun index value found => ?_⟩
      obtain ⟨old, before, rfl⟩ := map_eq_some_iff.mp found
      rw [long]
      exact renamed_lt keptKnown (rep.exists_lt before)
  | some set =>
      have empty := rep.setFirst (by rw [used]; exact some_ne_none set)
      have now := collection_of_set (sets.trans used)
      have before := collection_of_set used
      have kept : Represented next := by
        refine ⟨by rw [now, ← before]; exact rep.normal, fun _ => by rw [segments, empty]; rfl, ?_⟩
        rw [now, ← before, long]
        exact rep.exist
      refine keeps_iff_notInSet rep used (congrArg some done) kept (fun index => ?_) fun index => ?_
      · unfold valueMap
        rw [now, before]
      · change (range.valueMap index).map (renamed _ _) = _ ↔ _
        cases found : range.valueMap index with
        | none => simp
        | some value =>
            simp only [map_some, Option.some.injEq, ne_eq, renamed]
            split
            · rename_i gone
              exact ⟨fun same => absurd (gone ▸ same.symm) apart, fun stays => absurd gone stays⟩
            · rename_i stays
              exact ⟨fun _ => stays, fun _ => rfl⟩

/-! ### Definitions -/

theorem wellFormed_insert_iff (added : LiveSegment) (normal : WellFormed (front ++ back))
    (filled : added.start < added.finish) (early : ∀ left ∈ front, left.finish ≤ added.start)
    (behind : ∀ right ∈ back, Apart added right) :
    WellFormed (front ++ added :: back) ↔
      ∀ left ∈ front, left.finish = added.start → left.value ≠ added.value := by
  constructor
  · intro tidy left member touches
    exact ((wellFormed_append.mp tidy).2.2 left member added mem_cons_self).2 touches
  · intro free
    exact wellFormed_insert normal filled (fun left member => ⟨early left member, free left member⟩)
      behind

theorem findPos_split (rep : Represented range) (definedAt : Nat) :
    ∃ front back, range.collection = front ++ back ∧ range.findPos definedAt = front.length ∧
      (∀ left ∈ front, left.finish ≤ definedAt) ∧ ∀ right ∈ back, definedAt < right.finish := by
  obtain ⟨front, back, shape, place, early, late⟩ :=
    (findPos_partitioned rep.normal.inOrder definedAt).split
  exact ⟨front, back, shape, place.symm, fun left member => Nat.not_lt.mp (early left member), late⟩

theorem freeBefore_iff {added : LiveSegment} (shape : range.collection = front ++ back)
    (filled : added.start < added.finish) (late : ∀ right ∈ back, added.start < right.finish) :
    FreeBefore added range ↔
      ∀ left ∈ front, left.finish = added.start → left.value ≠ added.value := by
  unfold FreeBefore
  rw [shape]
  constructor
  · intro free left member
    exact free filled left (mem_append_left back member)
  · intro free _ segment member touches
    rcases mem_append.mp member with inFront | inBack
    · exact free segment inFront touches
    · have ends := late segment inBack
      omega

theorem valueFor_frame (definedAt : Nat) (forVNI : Option Nat) (range : LiveRange) :
    ∃ valnos allocated, valueFor definedAt forVNI range =
        ({ range with valnos := valnos, allocated := allocated },
          forVNI.getD range.allocated.length) ∧
      range.allocated.length ≤ allocated.length ∧
      (forVNI = none → range.allocated.length < allocated.length) := by
  cases forVNI with
  | none => exact ⟨_, _, rfl, by simp, fun _ => by simp⟩
  | some valno => exact ⟨_, _, rfl, Nat.le_refl _, fun absent => by cases absent⟩

theorem newDef_iff {forVNI : Option Nat} (rep : Represented range)
    (alive : isDead definedAt = false) (known : ∀ valno ∈ forVNI, valno < range.allocated.length)
    (shape : range.collection = front ++ back) (early : ∀ left ∈ front, left.finish ≤ definedAt)
    (late : ∀ right ∈ back, getDeadSlot definedAt < right.start)
    (found : valueFor definedAt forVNI range = (next, valno)) :
    Represented (next.setCollection (front ++ ⟨definedAt, getDeadSlot definedAt, valno⟩ :: back)) ∧
        (∀ index, (next.setCollection
            (front ++ ⟨definedAt, getDeadSlot definedAt, valno⟩ :: back)).valueMap index =
          withSegment ⟨definedAt, getDeadSlot definedAt, valno⟩ range.valueMap index) ↔
      FreeBefore ⟨definedAt, getDeadSlot definedAt, valno⟩ range := by
  obtain ⟨valnos, allocated, same, long, fresh⟩ := valueFor_frame definedAt forVNI range
  obtain ⟨rfl, rfl⟩ := Prod.mk.inj (found.symm.trans same)
  have filled : definedAt < getDeadSlot definedAt := by
    have notDead : definedAt % 4 ≠ 3 := by simpa [isDead] using alive
    unfold getDeadSlot
    omega
  have normal := rep.normal
  rw [shape] at normal
  have behind : ∀ right ∈ back, Apart (⟨definedAt, getDeadSlot definedAt,
      forVNI.getD range.allocated.length⟩ : LiveSegment) right :=
    fun right member => ⟨Nat.le_of_lt (late right member),
      fun touches => absurd touches (Nat.ne_of_lt (late right member))⟩
  have ends : ∀ right ∈ back, definedAt < right.finish := by
    intro right member
    have starts := late right member
    have rightFilled := normal.filled (mem_append_right front member)
    omega
  rw [freeBefore_iff shape filled ends, ← wellFormed_insert_iff _ normal filled early behind]
  constructor
  · rintro ⟨kept, _⟩
    have tidy := kept.normal
    rwa [collection_setCollection] at tidy
  · intro tidy
    have grown : Represented { range with valnos := valnos, allocated := allocated } :=
      ⟨rep.normal, rep.setFirst, fun segment member =>
        Nat.lt_of_lt_of_le (rep.exist segment member) long⟩
    have before := (wellFormed_append.mp tidy).2.2
    refine represented_setCollection grown ⟨tidy, fun index => ?_⟩
      (withSegment_lt grown ?_)
    · change _ = withSegment _ (valueAt range.collection) index
      rw [shape]
      exact valueAt_insert (valueAt_front fun left member => before left member _ mem_cons_self)
    · change forVNI.getD range.allocated.length < allocated.length
      cases forVNI with
      | none => exact fresh rfl
      | some valno => exact Nat.lt_of_lt_of_le (known valno rfl) long

theorem represented_setDef {definedAt : Option Nat} :
    Represented (range.setDef valno definedAt) ↔ Represented range := by
  have long : (range.setDef valno definedAt).allocated.length = range.allocated.length :=
    length_set
  constructor
  · rintro ⟨normal, setFirst, exist⟩
    rw [long] at exist
    exact ⟨normal, setFirst, exist⟩
  · rintro ⟨normal, setFirst, exist⟩
    refine ⟨normal, setFirst, ?_⟩
    rw [long]
    exact exist

theorem movedDef_iff {later : List LiveSegment} {segment : LiveSegment} (rep : Represented range)
    (shape : range.collection = front ++ segment :: later)
    (early : ∀ left ∈ front, left.finish ≤ definedAt)
    (late : ∀ right ∈ segment :: later, definedAt < right.finish)
    (starts : definedAt < segment.start) :
    Represented ((range.setCollection
          (front ++ { segment with start := definedAt } :: later)).setDef segment.value (some definedAt)) ∧
        (∀ index, ((range.setCollection (front ++ { segment with start := definedAt } :: later)).setDef
            segment.value (some definedAt)).valueMap index =
          withSegment ⟨definedAt, segment.start, segment.value⟩ range.valueMap index) ↔
      FreeBefore ⟨definedAt, segment.start, segment.value⟩ range := by
  have normal := rep.normal
  rw [shape] at normal
  obtain ⟨_, ordered, _⟩ := wellFormed_append.mp normal
  obtain ⟨filled, apart, _⟩ := wellFormed_cons.mp ordered
  have removed : WellFormed (front ++ later) :=
    WellFormed.remove (show WellFormed (front ++ ([segment] ++ later)) from normal)
  have inserted := wellFormed_insert_iff { segment with start := definedAt } removed
    (Nat.lt_trans starts filled) early apart
  rw [freeBefore_iff shape starts late, represented_setDef]
  refine Iff.trans ⟨fun both => ?_, fun tidy => ?_⟩ inserted
  · have tidy := both.1.normal
    rwa [collection_setCollection] at tidy
  · have before := (wellFormed_append.mp tidy).2.2
    have ahead : ∀ left ∈ front, Apart left { segment with start := definedAt } :=
      fun left member => before left member _ mem_cons_self
    refine represented_setCollection rep ⟨tidy, fun index => ?_⟩
      (withSegment_lt rep (rep.exist segment (by rw [shape]; simp)))
    change _ = withSegment _ (valueAt range.collection) index
    rw [shape]
    have values : ∀ other ∈ [segment], other.value = segment.value := by simp
    refine valueAt_union ⟨definedAt, segment.start, segment.value⟩ ahead rfl values ?_
    simp only [Segment.Contains, mem_singleton, exists_eq_left]
    omega

theorem createDeadDefAt_iff {forVNI : Option Nat} (rep : Represented range)
    (asserted : DefAsserted definedAt forVNI range)
    (known : ∀ valno ∈ forVNI, valno < range.allocated.length) :
    (Represented (createDeadDefAt definedAt forVNI range).1 ∧
        ∀ index, (createDeadDefAt definedAt forVNI range).1.valueMap index =
          withSegment (defSegment definedAt (forVNI.getD range.allocated.length) range)
            range.valueMap index) ↔
      FreeBefore (defSegment definedAt (forVNI.getD range.allocated.length) range) range := by
  obtain ⟨alive, here⟩ := asserted
  obtain ⟨front, back, shape, place, early, late⟩ := findPos_split rep definedAt
  obtain ⟨next, valno, found⟩ : ∃ next valno, valueFor definedAt forVNI range = (next, valno) :=
    ⟨_, _, rfl⟩
  have value : valno = forVNI.getD range.allocated.length := by
    obtain ⟨_, _, same, _⟩ := valueFor_frame definedAt forVNI range
    exact (Prod.mk.inj (found.symm.trans same)).2
  have atPlace : range.collection[range.findPos definedAt]? = back.head? := by
    rw [shape, place, getElem?_append_right (Nat.le_refl _), Nat.sub_self,
      head?_eq_getElem?]
  rw [atPlace] at here
  unfold createDeadDefAt defSegment
  simp only [atPlace, found]
  cases back with
  | nil =>
      simp only [head?_nil]
      rw [← value, shape, append_nil]
      exact newDef_iff rep alive known shape early (fun _ absent => by cases absent) found
  | cons segment later =>
      simp only [head?_cons]
      have holds := here segment rfl
      by_cases sameInstr : isSameInstr definedAt segment.start = true
      · simp only [if_pos sameInstr]
        by_cases starts : definedAt < segment.start
        · have lower : min definedAt segment.start = definedAt := Nat.min_eq_left (Nat.le_of_lt starts)
          rw [lower, if_pos (Nat.ne_of_lt starts)]
          have replaced : range.collection.set (range.findPos definedAt)
              { segment with start := definedAt } =
              front ++ { segment with start := definedAt } :: later := by
            rw [shape, place, set_append_right _ _ (Nat.le_refl _), Nat.sub_self, set_cons_zero]
          rw [replaced]
          exact movedDef_iff rep shape early late starts
        · have lower : min definedAt segment.start = segment.start :=
            Nat.min_eq_right (Nat.not_lt.mp starts)
          rw [lower, if_neg (not_not.mpr rfl)]
          have nothing : ∀ index, withSegment ⟨definedAt, segment.start, segment.value⟩
              range.valueMap index = range.valueMap index :=
            fun index => if_neg fun inside => starts (Nat.lt_of_le_of_lt inside.1 inside.2)
          exact ⟨fun _ filled => absurd filled starts, fun _ => ⟨rep, fun index => (nothing index).symm⟩⟩
      · simp only [if_neg sameInstr] at holds ⊢
        rw [← value, shape, place, insertIdx_length_append]
        refine newDef_iff rep alive known shape early (fun right member => ?_) found
        have first : getDeadSlot definedAt < segment.start := by
          have earlier : definedAt / 4 < segment.start / 4 := by simpa [isEarlierInstr] using holds
          unfold getDeadSlot
          omega
        rcases mem_cons.mp member with rfl | deeper
        · exact first
        · have normal := rep.normal
          rw [shape] at normal
          obtain ⟨_, ordered, _⟩ := wellFormed_append.mp normal
          obtain ⟨filled, apart, _⟩ := wellFormed_cons.mp ordered
          have gap := (apart right deeper).1
          omega

/-! ### Uses -/

theorem segmentBefore_cases {use : Nat} (sorted : InOrder range.collection) (positive : 0 < use) :
    segmentBefore use range = none ∨
      ∃ earlier segment back, range.collection = earlier ++ segment :: back ∧
        segmentBefore use range = some (earlier.length, segment) ∧ segment.start < use ∧
        ∀ right ∈ back, use ≤ right.start := by
  obtain ⟨front, back, shape, place, early, late⟩ :=
    (findInsertPos_partitioned sorted ⟨getPrevSlot use, use, 0⟩).split
  unfold segmentBefore
  rw [← place]
  rcases eq_nil_or_concat front with rfl | ⟨earlier, segment, rfl⟩
  · exact .inl rfl
  · rw [concat_eq_append] at *
    refine .inr ⟨earlier, segment, back, by rw [shape]; simp, ?_, ?_, fun right member => ?_⟩
    · rw [length_append, length_singleton]
      have here : range.collection[earlier.length]? = some segment := by
        rw [shape, List.append_assoc, getElem?_append_right (Nat.le_refl _), Nat.sub_self]
        rfl
      simp only [here, map_some]
    · have started := early segment (by simp)
      simp only [startsAfter, getPrevSlot] at started
      omega
    · have starts := late right member
      simp only [startsAfter, getPrevSlot] at starts
      omega

theorem isUndefIn_nil (start finish : Nat) : isUndefIn [] start finish = false := rfl

theorem extendInBlock_eq (startIdx use : Nat) (range : LiveRange) :
    extendInBlock startIdx use range =
      (extendInBlockUndefs [] startIdx use range).map fun result => (result.1, result.2.1) := by
  unfold extendInBlock extendInBlockUndefs
  split
  · rfl
  · split
    · rfl
    · split
      · rfl
      · split
        · rw [isUndefIn_nil, if_neg (by simp), Option.map_map]
          rfl
        · rfl

theorem extendInBlockUndefs_keeps {undefs : List Nat} {startIdx use : Nat} (rep : Represented range)
    (positive : 0 < use) :
    ∃ next, (extendInBlockUndefs undefs startIdx use range).map Prod.fst = some next ∧
      Represented next ∧ ∀ index, next.valueMap index =
        withUse (useSegment undefs startIdx use range) range.valueMap index := by
  unfold extendInBlockUndefs useSegment
  rcases segmentBefore_cases rep.normal.inOrder positive with absent
    | ⟨earlier, segment, back, shape, found, early, late⟩
  · rw [absent]
    refine ⟨range, ?_, rep, fun index => rfl⟩
    split <;> rfl
  rw [found]
  have some_segment : range.collection ≠ [] := by
    rw [shape]
    simp
  rw [if_neg some_segment]
  simp only
  by_cases outside : segment.finish ≤ startIdx
  · rw [if_pos outside, if_pos (.inl outside)]
    exact ⟨range, rfl, rep, fun index => rfl⟩
  rw [if_neg outside]
  by_cases undefined : isUndefIn undefs segment.finish (getPrevSlot use) = true
  · have stops : segment.finish ≤ startIdx ∨
        isUndefIn undefs segment.finish (getPrevSlot use) = true := .inr undefined
    rw [if_pos undefined, if_pos stops]
    refine ⟨range, ?_, rep, fun index => rfl⟩
    split <;> rfl
  have goes : ¬ (segment.finish ≤ startIdx ∨
      isUndefIn undefs segment.finish (getPrevSlot use) = true) := not_or.mpr ⟨outside, undefined⟩
  rw [if_neg undefined, if_neg goes]
  by_cases short : segment.finish < use
  · rw [if_pos short]
    have normal := rep.normal
    rw [shape] at normal
    have nothing : ∀ other ∈ back, other.start < use → other.value = segment.value :=
      fun other member crosses => absurd (late other member) (Nat.not_le.mpr crosses)
    obtain ⟨segments, done, holds⟩ := extendSegmentEndTo_holds normal nothing
    rw [shape, done]
    rw [← shape] at holds
    have wanted : Holds segments
        (withSegment ⟨segment.finish, use, segment.value⟩ range.valueMap) := by
      refine ⟨holds.normal, fun index => (holds.values index).trans ?_⟩
      unfold withSegment
      by_cases beyond : Segment.Contains ⟨segment.finish, use, segment.value⟩ index
      · have filled := normal.filled (mem_append_right earlier mem_cons_self)
        have wider : Segment.Contains ⟨segment.start, use, segment.value⟩ index :=
          ⟨Nat.le_trans (Nat.le_of_lt filled) beyond.1, beyond.2⟩
        rw [if_pos beyond, if_pos wider]
      · rw [if_neg beyond]
        split
        · rename_i wider
          have held : segment.Contains index := by
            refine ⟨wider.1, Nat.lt_of_not_le fun past => beyond ⟨past, wider.2⟩⟩
          exact (rep.normal.valueAt_eq (by rw [shape]; simp) held).symm
        · rfl
    refine ⟨_, rfl, represented_setCollection rep wanted (withSegment_lt rep ?_)⟩
    exact rep.exist segment (by rw [shape]; simp)
  · rw [if_neg short]
    refine ⟨range, rfl, rep, fun index => ?_⟩
    exact (if_neg fun inside => short (Nat.lt_of_le_of_lt inside.1 inside.2)).symm

/-! ### Whole sequences of calls -/

theorem call_keeps_iff {call : LiveRangeCall} (rep : Represented range)
    (asserted : Asserted call range) :
    KeepsRepresentation call range ↔ JoinsNothing call range := by
  cases call with
  | addSegment segment => exact ⟨fun _ => trivial, fun _ => addSegment_keeps rep asserted⟩
  | removeSegment start finish removeDeadValNo =>
      exact ⟨fun _ => trivial, fun _ => removeSegment_keeps rep asserted⟩
  | removeValNo valno => exact removeValNo_keeps_iff rep
  | createDeadDef definedAt =>
      refine Iff.trans ?_ (createDeadDefAt_iff rep asserted (fun _ absent => by cases absent))
      constructor
      · rintro ⟨next, done, kept⟩
        cases done
        exact kept
      · exact fun kept => ⟨_, rfl, kept⟩
  | createDeadDefOf valno =>
      obtain ⟨known, defined, defAsserted⟩ := asserted
      obtain ⟨definedAt, isDefined⟩ := isSome_iff_exists.mp defined
      have result : applyCall (.createDeadDefOf valno) range =
          some (createDeadDefAt definedAt (some valno) range).1 := by
        simp only [applyCall, createDeadDefOf, isDefined, map_some]
      have exactly := createDeadDefAt_iff rep defAsserted (fun other same => by
        cases same
        exact known)
      rw [isDefined, getD_some, getD_some] at exactly
      change _ ↔ FreeBefore (defSegment ((range.info valno).definedAt.getD 0) valno range) range
      rw [isDefined, getD_some, ← exactly]
      have meant : expectedMap (.createDeadDefOf valno) range =
          withSegment (defSegment definedAt valno range) range.valueMap := by
        simp only [expectedMap, isDefined, getD_some]
      constructor
      · rintro ⟨next, done, kept⟩
        rw [result] at done
        cases done
        rw [meant] at kept
        exact kept
      · intro kept
        refine ⟨_, result, ?_⟩
        rw [meant]
        exact kept
  | extendInBlock startIdx use =>
      refine ⟨fun _ => trivial, fun _ => ?_⟩
      obtain ⟨next, done, kept⟩ := extendInBlockUndefs_keeps rep asserted
      refine ⟨next, ?_, kept⟩
      rw [applyCall, extendInBlock_eq, Option.map_map]
      exact done
  | extendInBlockUndefs undefs startIdx use =>
      exact ⟨fun _ => trivial, fun _ => extendInBlockUndefs_keeps rep asserted⟩
  | mergeValueNumberInto v1 v2 => exact mergeValueNumberInto_keeps_iff rep asserted

/-- Over every sequence of calls that meet their assertions: each call returns
with the list in normal form and the map it is meant to leave exactly when no
definition is put right behind a segment of its value, and no value that is to
go has a segment in the set. -/
theorem calls_keep_iff_joinNothing (calls : List LiveRangeCall) (range : LiveRange)
    (rep : Represented range) (asserted : Runs.EveryStep applyCall Asserted calls range) :
    Runs.EveryStep applyCall KeepsRepresentation calls range ↔
      Runs.EveryStep applyCall JoinsNothing calls range := by
  induction calls generalizing range with
  | nil => exact Iff.rfl
  | cons call rest ih =>
      have first := call_keeps_iff rep asserted.1
      constructor
      · rintro ⟨keeps, later⟩
        refine ⟨first.mp keeps, fun next done => ?_⟩
        obtain ⟨other, alsoDone, kept, _⟩ := keeps
        obtain rfl := Option.some.inj (done.symm.trans alsoDone)
        exact (ih next kept (asserted.2 next done)).mp (later next done)
      · rintro ⟨joins, later⟩
        have keeps := first.mpr joins
        refine ⟨keeps, fun next done => ?_⟩
        obtain ⟨other, alsoDone, kept, _⟩ := keeps
        obtain rfl := Option.some.inj (done.symm.trans alsoDone)
        exact (ih next kept (asserted.2 next done)).mpr (later next done)

def emptyRange (allocated : List VNInfo) : LiveRange where
  segments := []
  segmentSet := none
  valnos := List.range allocated.length
  allocated := allocated

theorem represented_emptyRange (allocated : List VNInfo) : Represented (emptyRange allocated) :=
  ⟨trivial, fun used => absurd rfl used, fun _ absent => by cases absent⟩

/-- Two values joined by a third segment, one of them removed and the other
defined anew. -/
theorem mixedCalls_keep :
    Runs.EveryStep applyCall KeepsRepresentation
      [.addSegment ⟨6, 10, 0⟩, .addSegment ⟨14, 18, 0⟩, .addSegment ⟨8, 15, 0⟩,
        .addSegment ⟨18, 30, 1⟩, .extendInBlock 16 34, .removeSegment 20 22 false,
        .mergeValueNumberInto 0 1, .createDeadDef 40, .removeValNo 0]
      (emptyRange [⟨0, some 6⟩, ⟨1, some 18⟩]) :=
  (calls_keep_iff_joinNothing _ _ (represented_emptyRange _) (by decide)).mpr (by decide)

/-- A value live up to the block that defines it, and its definition there: two
segments that touch have one value. -/
theorem definitionBehind_not_kept :
    Runs.EveryStep applyCall Asserted [.addSegment ⟨2, 8, 0⟩, .createDeadDefOf 0]
        (emptyRange [⟨0, some 8⟩]) ∧
      (Runs.run applyCall [.addSegment ⟨2, 8, 0⟩, .createDeadDefOf 0]
        (emptyRange [⟨0, some 8⟩])).map collection = some [⟨2, 8, 0⟩, ⟨8, 11, 0⟩] ∧
      ¬ WellFormed ([⟨2, 8, 0⟩, ⟨8, 11, 0⟩] : List LiveSegment) := by
  refine ⟨by decide, by decide, fun normal => ?_⟩
  obtain ⟨_, apart, _⟩ := normal
  exact apart.2 rfl rfl

end LiveRange

end EvmBackend
