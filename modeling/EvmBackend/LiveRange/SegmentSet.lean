/-
A live range that keeps its segments in a set while it is computed, against one
that has them in the vector from the start.

The set places a segment by its key, whatever the hint, and the searches in it
go by start and end; the vector is searched by bisection. As long as the calls
keep the segments in order, both see the same list.
-/

import EvmBackend.LiveRange.Representation

namespace EvmBackend.LiveRange

open Segments

def setInsert (segment : LiveSegment) (set : List LiveSegment) : List LiveSegment :=
  if set.any fun other => other.start == segment.start && other.finish == segment.finish then set
  else set.insertIdx (set.findIdx (segmentLess segment)) segment

def addSegmentToSet (segment : LiveSegment) (set : List LiveSegment) : Option (List LiveSegment) :=
  let place := setFindInsertPos set segment
  if extendsBefore place segment set then extendSegmentEndTo (place - 1) segment.finish set
  else if extendsAfter place segment set then do
    let (extended, mergedAt) ← extendSegmentStartTo place segment.start set
    let found ← extended[mergedAt]?
    if found.finish < segment.finish then extendSegmentEndTo mergedAt segment.finish extended
    else some extended
  else some (setInsert segment set)

def createDeadDefInSet (definedAt : Nat) (forVNI : Option Nat) (set : List LiveSegment) (range : LiveRange) :
    LiveRange × Nat :=
  let place := setFind set definedAt
  match set[place]? with
  | none =>
      let (next, valno) := valueFor definedAt forVNI range
      (next.setCollection (setInsert ⟨definedAt, getDeadSlot definedAt, valno⟩ set), valno)
  | some segment =>
      if isSameInstr definedAt segment.start then
        let earlier := min definedAt segment.start
        if earlier ≠ segment.start then
          ((range.setCollection (set.set place { segment with start := earlier })).setDef
            segment.value (some earlier), segment.value)
        else (range, segment.value)
      else
        let (next, valno) := valueFor definedAt forVNI range
        (next.setCollection (setInsert ⟨definedAt, getDeadSlot definedAt, valno⟩ set), valno)

def flushSegmentSet (range : LiveRange) : Option LiveRange :=
  match range.segmentSet with
  | none => none
  | some set =>
      if range.segments = [] then some { range with segments := set, segmentSet := none } else none

inductive ComputeCall
  | addSegment (segment : LiveSegment)
  | createDeadDef (definedAt : Nat)
  | createDeadDefOf (valno : Nat)
  | extendInBlock (startIdx use : Nat)
  | extendInBlockUndefs (undefs : List Nat) (startIdx use : Nat)
  deriving DecidableEq, Repr

/-- A place among the segments of the vector, the end if there is none; or a
value, with the sign of an index where it is undefined. -/
inductive Returned
  | segmentAt (place : Option Nat)
  | value (valno : Option Nat)
  | valueOrUndef (valno : Option Nat) (undef : Bool)
  deriving DecidableEq, Repr

def addedPlace (place : Nat) (segment : LiveSegment) (segments : List LiveSegment) : Nat :=
  if extendsBefore place segment segments then place - 1
  else if extendsAfter place segment segments then
    match extendSegmentStartTo place segment.start segments with
    | some (_, mergedAt) => mergedAt
    | none => place
  else place

def defineAt (definedAt : Nat) (forVNI : Option Nat) (range : LiveRange) : LiveRange × Nat :=
  match range.segmentSet with
  | some set => createDeadDefInSet definedAt forVNI set range
  | none => createDeadDefAt definedAt forVNI range

def compute : ComputeCall → LiveRange → Option (LiveRange × Returned)
  | .addSegment segment, range =>
      match range.segmentSet with
      | some set => (addSegmentToSet segment set).map fun next => (range.setCollection next, .segmentAt none)
      | none => (addSegment segment range).map fun next =>
          (next, .segmentAt (some (addedPlace (range.findInsertPos segment) segment range.segments)))
  | .createDeadDef definedAt, range =>
      let (next, valno) := defineAt definedAt none range
      some (next, .value (some valno))
  | .createDeadDefOf valno, range =>
      (range.info valno).definedAt.map fun definedAt =>
        let (next, value) := defineAt definedAt (some valno) range
        (next, .value (some value))
  | .extendInBlock startIdx use, range =>
      (extendInBlock startIdx use range).map fun (next, valno) => (next, .value valno)
  | .extendInBlockUndefs undefs startIdx use, range =>
      (extendInBlockUndefs undefs startIdx use range).map fun (next, valno, undef) =>
        (next, .valueOrUndef valno undef)

def Allowed : ComputeCall → LiveRange → Prop
  | .addSegment segment, range => segment.start < segment.finish ∧ Compatible segment range.collection
  | .createDeadDef definedAt, range => DefAsserted definedAt none range
  | .createDeadDefOf valno, range =>
      ∃ definedAt, (range.info valno).definedAt = some definedAt ∧ DefAsserted definedAt (some valno) range
  | .extendInBlock _ use, _ => 0 < use
  | .extendInBlockUndefs _ _ use, _ => 0 < use

def computeAll : List ComputeCall → LiveRange → Option (LiveRange × List Returned)
  | [], range => some (range, [])
  | call :: calls, range => do
      let (next, returned) ← compute call range
      let (last, others) ← computeAll calls next
      some (last, returned :: others)

def AllAllowed : List ComputeCall → LiveRange → Prop
  | [], _ => True
  | call :: calls, range => Allowed call range ∧
      ∀ next returned, compute call range = some (next, returned) → AllAllowed calls next

def Returned.inSet : Returned → Returned
  | .segmentAt _ => .segmentAt none
  | other => other

def asSet (range : LiveRange) : LiveRange := { range with segmentSet := some range.segments, segments := [] }

theorem PartitionedAt.unique {Item : Type*} {property : Item → Prop} {items : List Item} {one two : Nat}
    (first : PartitionedAt property items one) (second : PartitionedAt property items two) : one = two := by
  rcases Nat.lt_trichotomy one two with less | same | more
  · have inside : one < items.length := less.trans_le second.1
    have here := List.getElem?_eq_getElem inside
    have holds := (first.2 one _ here).mpr (Nat.le_refl one)
    exact absurd ((second.2 one _ here).mp holds) (Nat.not_le_of_lt less)
  · exact same
  · have inside : two < items.length := more.trans_le first.1
    have here := List.getElem?_eq_getElem inside
    have holds := (second.2 two _ here).mpr (Nat.le_refl two)
    exact absurd ((first.2 two _ here).mp holds) (Nat.not_le_of_lt more)

section Agreement

variable {segments front back rest : List LiveSegment} {segment added : LiveSegment} {range : LiveRange}

theorem setFind_eq_find (sorted : InOrder segments) (pos : Nat) : setFind segments pos = find segments pos :=
  PartitionedAt.unique (setFind_partitioned sorted pos) (find_partitioned sorted pos)

theorem setFindInsertPos_eq_upperBound (sorted : InOrder segments) (sought : LiveSegment) :
    setFindInsertPos segments sought = upperBound segments sought.start :=
  PartitionedAt.unique (setFindInsertPos_partitioned sorted sought) (upperBound_partitioned sorted sought.start)

theorem setInsert_eq (before : ∀ left ∈ front, left.start < segment.start)
    (behind : ∀ right ∈ back, segment.start < right.start) :
    setInsert segment (front ++ back) = front ++ segment :: back := by
  have fresh : ((front ++ back).any fun other => other.start == segment.start && other.finish == segment.finish) =
      false := by
    rw [List.any_eq_false]
    intro other member same
    rw [Bool.and_eq_true, beq_iff_eq] at same
    rcases List.mem_append.mp member with inFront | inBack
    · exact absurd same.1 (before other inFront).ne
    · exact absurd same.1 (behind other inBack).ne'
  have place : (front ++ back).findIdx (segmentLess segment) = front.length := by
    have parted : PartitionedAt (fun other => segmentLess segment other = true) (front ++ back) front.length := by
      refine ⟨by simp, fun position other here => ?_⟩
      change segmentLess segment other = true ↔ _
      rw [segmentLess_iff]
      by_cases early : position < front.length
      · rw [List.getElem?_append_left early] at here
        have less := before other (List.mem_of_getElem? here)
        omega
      · rw [List.getElem?_append_right (Nat.le_of_not_lt early)] at here
        have more := behind other (List.mem_of_getElem? here)
        omega
    refine PartitionedAt.unique (partitionedAt_findIdx ?_) parted
    apply List.pairwise_append.mpr
    refine ⟨List.pairwise_of_forall_mem_list fun left member right also less => ?_,
      List.pairwise_of_forall_mem_list fun left member right also _ => ?_, fun left member right also _ => ?_⟩
    · have less := segmentLess_iff.mp less
      have early := before left member
      omega
    · exact segmentLess_iff.mpr (.inl (behind right also))
    · exact segmentLess_iff.mpr (.inl (behind right also))
  unfold setInsert
  rw [fresh, if_neg Bool.false_ne_true, place, insertIdx_length_append]

/-! ### The segments stay in order -/

theorem extendSegmentEndTo_inOrder {newEnd : Nat} (sorted : InOrder (front ++ segment :: rest))
    (compatible : ∀ other ∈ rest, other.start < newEnd → other.value = segment.value) :
    ∃ next, extendSegmentEndTo front.length newEnd (front ++ segment :: rest) = some next ∧ InOrder next := by
  obtain ⟨sortedFront, joined, across⟩ := inOrder_append.mp sorted
  have filled := joined.filled segment List.mem_cons_self
  have behind := (List.pairwise_cons.mp joined.ordered).1
  unfold extendSegmentEndTo
  rw [List.drop_left, List.take_left]
  dsimp only
  have split := @List.takeWhile_append_dropWhile _
    (fun other : LiveSegment => decide (other.finish ≤ newEnd)) rest
  have stops := List.head?_dropWhile_not (fun other : LiveSegment => decide (other.finish ≤ newEnd)) rest
  generalize rest.takeWhile (fun other => decide (other.finish ≤ newEnd)) = merged at split ⊢
  generalize rest.dropWhile (fun other => decide (other.finish ≤ newEnd)) = after at split stops ⊢
  subst split
  obtain ⟨sortedMerged, sortedAfter, between⟩ := inOrder_append.mp joined.tail
  -- the last segment swallowed ends where the first left starts, or before
  have reach : ∀ other ∈ after, (merged.getLast?.getD segment).finish ≤ other.start := by
    intro other member
    cases last : merged.getLast? with
    | none => exact behind other (List.mem_append_right merged member)
    | some final => exact between final (List.mem_of_getLast? last) other member
  have grown : segment.finish ≤ (merged.getLast?.getD segment).finish := by
    cases last : merged.getLast? with
    | none => exact Nat.le_refl _
    | some final =>
        have member := List.mem_of_getLast? last
        have order := behind final (List.mem_append_left after member)
        exact order.trans (sortedMerged.filled final member).le
  generalize (merged.getLast?.getD segment).finish = reached at reach grown ⊢
  have extended : ∀ finish, segment.start < finish → ∀ others : List LiveSegment, InOrder others →
      (∀ other ∈ others, finish ≤ other.start) → (∀ left ∈ front, ∀ other ∈ others, left.finish ≤ other.start) →
        InOrder (front ++ { segment with finish := finish } :: others) := by
    intro finish long others sortedOthers later beyond
    refine inOrder_append.mpr ⟨sortedFront, ⟨?_, List.pairwise_cons.mpr ⟨later, sortedOthers.ordered⟩⟩, ?_⟩
    · intro other member
      rcases List.mem_cons.mp member with rfl | deeper
      · exact long
      · exact sortedOthers.filled other deeper
    · intro left member other also
      rcases List.mem_cons.mp also with rfl | deeper
      · exact across left member segment List.mem_cons_self
      · exact beyond left member other deeper
  have ahead : ∀ left ∈ front, ∀ other ∈ after, left.finish ≤ other.start := fun left member other also =>
    across left member other (List.mem_cons_of_mem segment (List.mem_append_right merged also))
  cases after with
  | nil => exact ⟨_, rfl, extended _ (by omega) [] ⟨nofun, .nil⟩ nofun nofun⟩
  | cons next later =>
      have nextReach := reach next List.mem_cons_self
      have nextFilled := sortedAfter.filled next List.mem_cons_self
      dsimp only
      by_cases joins : next.start ≤ max newEnd reached ∧ next.value = segment.value
      · rw [if_pos joins]
        exact ⟨_, rfl, extended _ (by omega) later sortedAfter.tail
          (fun other member => (List.pairwise_cons.mp sortedAfter.ordered).1 other member)
          fun left member other also => ahead left member other (List.mem_cons_of_mem next also)⟩
      · rw [if_neg joins]
        have apart : max newEnd reached ≤ next.start := by
          by_contra crosses
          have starts : next.start < newEnd := by omega
          have same := compatible next (List.mem_append_right merged List.mem_cons_self) starts
          exact joins ⟨by omega, same⟩
        exact ⟨_, rfl, extended _ (by omega) (next :: later) sortedAfter
          (fun other member => apart.trans (sortedAfter.start_le member)) ahead⟩

theorem addSegmentToSet_eq (sorted : InOrder segments) (filled : added.start < added.finish)
    (compatible : Compatible added segments)
    (parted : PartitionedAt (startsAfter added.start) segments (setFindInsertPos segments added)) :
    addSegmentToSet added segments = addSegmentAt (setFindInsertPos segments added) added segments := by
  obtain ⟨front, back, rfl, place, early, late⟩ := parted.split
  unfold addSegmentAt addSegmentToSet
  rw [← place]
  dsimp only
  cases joins : extendsBefore front.length added (front ++ back) with
  | true => rw [if_pos rfl, if_pos rfl]
  | false =>
      rw [if_neg Bool.false_ne_true, if_neg Bool.false_ne_true]
      cases extendsAfter front.length added (front ++ back) with
      | true => rw [if_pos rfl, if_pos rfl]
      | false =>
          have apart := apart_before sorted filled compatible
            (fun left member => Nat.not_lt.mp (early left member)) joins
          rw [if_neg Bool.false_ne_true, if_neg Bool.false_ne_true, insertIdx_length_append]
          refine congrArg some (setInsert_eq (fun left member => ?_) late)
          have leftFilled := sorted.filled left (List.mem_append_left back member)
          exact leftFilled.trans_le (apart left member).1

theorem addSegmentAt_inOrder {place : Nat} (sorted : InOrder segments) (filled : added.start < added.finish)
    (compatible : Compatible added segments) (parted : PartitionedAt (startsAfter added.start) segments place) :
    ∃ next, addSegmentAt place added segments = some next ∧ InOrder next := by
  rcases addSegmentAt_cases sorted filled compatible parted with
    ⟨earlier, last, back, rfl, same, starts, reaches, late, added_⟩ |
    ⟨front, back, rfl, apart, ⟨behind, added_⟩ | ⟨next, later, rfl, same, nextStart, starts, added_⟩⟩
  · rw [added_]
    refine extendSegmentEndTo_inOrder sorted fun other member crosses => ?_
    have ends := (inOrder_append.mp sorted).2.1.filled other (List.mem_cons_of_mem last member)
    have inside : other ∈ earlier ++ last :: back :=
      List.mem_append_right earlier (List.mem_cons_of_mem last member)
    exact (compatible other inside crosses ((late other member).trans ends)).trans same
  · obtain ⟨sortedFront, sortedBack, across⟩ := inOrder_append.mp sorted
    refine ⟨_, added_, inOrder_append.mpr ⟨sortedFront, ⟨?_, ?_⟩, ?_⟩⟩
    · exact List.forall_mem_cons.mpr ⟨filled, sortedBack.filled⟩
    · exact List.pairwise_cons.mpr ⟨fun right member => (behind right member).1, sortedBack.ordered⟩
    · exact fun left member =>
        List.forall_mem_cons.mpr ⟨(apart left member).1, across left member⟩
  · obtain ⟨sortedFront, sortedBack, across⟩ := inOrder_append.mp sorted
    have nextFilled := sortedBack.filled next List.mem_cons_self
    have nextApart := (List.pairwise_cons.mp sortedBack.ordered).1
    have started : InOrder (front ++ { next with start := added.start } :: later) := by
      refine inOrder_append.mpr ⟨sortedFront, ⟨?_, List.pairwise_cons.mpr
        ⟨nextApart, sortedBack.tail.ordered⟩⟩, fun left member => ?_⟩
      · exact List.forall_mem_cons.mpr ⟨nextStart.trans nextFilled, sortedBack.tail.filled⟩
      · exact List.forall_mem_cons.mpr ⟨(apart left member).1, fun other also =>
          across left member other (List.mem_cons_of_mem next also)⟩
    rw [added_]
    by_cases longer : next.finish < added.finish
    · rw [if_pos longer]
      refine extendSegmentEndTo_inOrder started fun other member crosses => ?_
      have gap := nextApart other member
      have ends := sortedBack.tail.filled other member
      have inside : other ∈ front ++ next :: later :=
        List.mem_append_right front (List.mem_cons_of_mem next member)
      exact (compatible other inside crosses (by omega)).trans same
    · rw [if_neg longer]
      exact ⟨_, rfl, started⟩

end Agreement

section Steps

variable {range : LiveRange} (vector : range.segmentSet = none) (sorted : InOrder range.segments)

/-- A call leaves the vector in order, and does the same with the set. -/
def Agrees (range : LiveRange) (call : ComputeCall) : Prop :=
  ∃ next returned, compute call range = some (next, returned) ∧
    compute call (asSet range) = some (asSet next, returned.inSet) ∧
    next.segmentSet = none ∧ InOrder next.segments

include vector in
theorem asSet_setCollection (segments : List LiveSegment) :
    asSet (range.setCollection segments) = (asSet range).setCollection segments := by
  unfold setCollection asSet
  rw [vector]

include vector in
theorem segments_setCollection (segments : List LiveSegment) :
    (range.setCollection segments).segments = segments ∧ (range.setCollection segments).segmentSet = none := by
  unfold setCollection
  rw [vector]
  exact ⟨rfl, rfl⟩

include vector sorted in
theorem sorted_collection : InOrder range.collection := by
  rw [collection_of_vector vector]
  exact sorted

include vector sorted in
theorem findPos_eq (pos : Nat) : range.findPos pos = setFind range.segments pos := by
  unfold findPos
  rw [vector]
  exact (setFind_eq_find sorted pos).symm

include vector sorted in
theorem findInsertPos_eq (segment : LiveSegment) :
    range.findInsertPos segment = setFindInsertPos range.segments segment := by
  unfold findInsertPos
  rw [vector]
  exact (setFindInsertPos_eq_upperBound sorted segment).symm

include vector sorted in
theorem addSegment_agrees {segment : LiveSegment} (allowed : Allowed (.addSegment segment) range) :
    Agrees range (.addSegment segment) := by
  obtain ⟨filled, compatible⟩ := allowed
  have collected := collection_of_vector vector
  have place := findInsertPos_partitioned (sorted_collection vector sorted) segment
  rw [collected] at place compatible
  obtain ⟨next, done, ordered⟩ := addSegmentAt_inOrder sorted filled compatible place
  have inSet : addSegmentToSet segment range.segments = some next := by
    rw [findInsertPos_eq vector sorted] at place done
    rw [addSegmentToSet_eq sorted filled compatible place, done]
  have kept := segments_setCollection vector next
  refine ⟨range.setCollection next,
    .segmentAt (some (addedPlace (range.findInsertPos segment) segment range.segments)), ?_, ?_, kept.2, ?_⟩
  · unfold compute addSegment
    dsimp only
    rw [vector, collected, done]
    rfl
  · change (addSegmentToSet segment range.segments).map _ = _
    rw [inSet, Option.map_some, asSet_setCollection vector]
    rfl
  · rw [kept.1]
    exact ordered

include vector sorted in
theorem extendInBlockUndefs_agrees {undefs : List Nat} {startIdx use : Nat} (positive : 0 < use) :
    ∃ next valno undef, extendInBlockUndefs undefs startIdx use range = some (next, valno, undef) ∧
      extendInBlockUndefs undefs startIdx use (asSet range) = some (asSet next, valno, undef) ∧
      next.segmentSet = none ∧ InOrder next.segments := by
  have collected := collection_of_vector vector
  have before : segmentBefore use (asSet range) = segmentBefore use range := by
    unfold segmentBefore
    rw [findInsertPos_eq vector sorted, collected]
    rfl
  unfold extendInBlockUndefs
  rw [before, collected]
  change ∃ next valno undef, _ ∧ (if range.segments = [] then _ else _) = _ ∧ _
  by_cases empty : range.segments = []
  · rw [if_pos empty, if_pos empty]
    exact ⟨range, _, _, rfl, rfl, vector, sorted⟩
  rw [if_neg empty, if_neg empty]
  rcases segmentBefore_cases (sorted_collection vector sorted) positive with
    absent | ⟨earlier, segment, back, shape, found, early, late⟩
  · rw [absent]
    exact ⟨range, _, _, rfl, rfl, vector, sorted⟩
  rw [found]
  dsimp only
  by_cases outside : segment.finish ≤ startIdx
  · rw [if_pos outside, if_pos outside]
    exact ⟨range, _, _, rfl, rfl, vector, sorted⟩
  rw [if_neg outside, if_neg outside]
  by_cases short : segment.finish < use
  · rw [if_pos short, if_pos short]
    by_cases undefined : isUndefIn undefs segment.finish (getPrevSlot use) = true
    · rw [if_pos undefined, if_pos undefined]
      exact ⟨range, _, _, rfl, rfl, vector, sorted⟩
    rw [if_neg undefined, if_neg undefined]
    rw [collected] at shape
    rw [shape] at sorted
    have nothing : ∀ other ∈ back, other.start < use → other.value = segment.value :=
      fun other member crosses => absurd (late other member) (Nat.not_le.mpr crosses)
    obtain ⟨next, done, ordered⟩ := extendSegmentEndTo_inOrder sorted nothing
    have kept := segments_setCollection vector next
    refine ⟨range.setCollection next, some segment.value, false, ?_, ?_, kept.2, ?_⟩
    · rw [shape, done]
      rfl
    · change (extendSegmentEndTo earlier.length use range.segments).map _ = _
      rw [shape, done, Option.map_some, asSet_setCollection vector]
    · rw [kept.1]
      exact ordered
  · rw [if_neg short, if_neg short]
    exact ⟨range, _, _, rfl, rfl, vector, sorted⟩

include vector in
theorem valueFor_agrees (definedAt : Nat) (forVNI : Option Nat) :
    ∃ next valno, valueFor definedAt forVNI range = (next, valno) ∧
      valueFor definedAt forVNI (asSet range) = (asSet next, valno) ∧ next.segmentSet = none ∧
      next.segments = range.segments := by
  cases forVNI with
  | some valno => exact ⟨range, valno, rfl, rfl, vector, rfl⟩
  | none => exact ⟨_, _, rfl, rfl, vector, rfl⟩

include vector sorted in
theorem defineAt_agrees {definedAt : Nat} {forVNI : Option Nat} (asserted : DefAsserted definedAt forVNI range) :
    ∃ next valno, defineAt definedAt forVNI range = (next, valno) ∧
      defineAt definedAt forVNI (asSet range) = (asSet next, valno) ∧ next.segmentSet = none ∧
      InOrder next.segments := by
  obtain ⟨alive, held⟩ := asserted
  have collected := collection_of_vector vector
  rw [collected, findPos_eq vector sorted] at held
  obtain ⟨front, back, shape, length, early, late⟩ := (setFind_partitioned sorted definedAt).split
  unfold endsAfter at early late
  have filled : definedAt < getDeadSlot definedAt := by
    have notDead : definedAt % 4 ≠ 3 := fun dead => by rw [isDead, beq_eq_false_iff_ne] at alive; exact alive dead
    unfold getDeadSlot
    omega
  obtain ⟨fresh, valno, allocated, inSet, freshVector, same⟩ := valueFor_agrees vector definedAt forVNI
  have created : ∀ segments, InOrder segments →
      (fresh.setCollection segments).segmentSet = none ∧ InOrder (fresh.setCollection segments).segments := by
    intro segments ordered
    have kept := segments_setCollection freshVector segments
    rw [kept.1]
    exact ⟨kept.2, ordered⟩
  unfold defineAt
  rw [vector]
  change ∃ next valno, createDeadDefAt definedAt forVNI range = _ ∧
    createDeadDefInSet definedAt forVNI range.segments (asSet range) = _ ∧ _
  unfold createDeadDefAt createDeadDefInSet
  rw [findPos_eq vector sorted, collected]
  rw [← length] at held ⊢
  rw [shape] at sorted held ⊢
  obtain ⟨sortedFront, sortedBack, across⟩ := inOrder_append.mp sorted
  have before : ∀ left ∈ front, left.finish ≤ definedAt := fun left member => Nat.le_of_not_lt (early left member)
  have starts : ∀ left ∈ front, left.start < definedAt := fun left member =>
    (sortedFront.filled left member).trans_le (before left member)
  cases back with
  | nil =>
      have absent : (front ++ ([] : List LiveSegment))[front.length]? = none := by simp
      dsimp only
      rw [absent]
      dsimp only
      rw [allocated, inSet, setInsert_eq starts (List.forall_mem_nil _)]
      have ordered : InOrder (front ++ [⟨definedAt, getDeadSlot definedAt, valno⟩]) := by
        refine inOrder_append.mpr ⟨sortedFront, ⟨?_, List.pairwise_singleton _ _⟩, ?_⟩
        · intro segment member
          rw [List.mem_singleton.mp member]
          exact filled
        · intro left member right also
          rw [List.mem_singleton.mp also]
          exact before left member
      refine ⟨_, _, rfl, ?_, ?_⟩
      · rw [asSet_setCollection freshVector, List.append_nil]
      · rw [List.append_nil]
        exact created _ ordered
  | cons segment later =>
      have present : (front ++ segment :: later)[front.length]? = some segment := by
        rw [List.getElem?_append_right (Nat.le_refl _), Nat.sub_self]
        rfl
      have segmentFilled := sortedBack.filled segment List.mem_cons_self
      have behind := (List.pairwise_cons.mp sortedBack.ordered).1
      have holds := held segment present
      dsimp only
      rw [present]
      dsimp only
      by_cases sameInstr : isSameInstr definedAt segment.start = true
      · rw [if_pos sameInstr, if_pos sameInstr]
        by_cases moves : min definedAt segment.start ≠ segment.start
        · rw [if_pos moves, if_pos moves]
          have replaced : (front ++ segment :: later).set front.length
              { segment with start := min definedAt segment.start } =
                front ++ { segment with start := min definedAt segment.start } :: later := by
            rw [List.set_append_right _ _ (Nat.le_refl _), Nat.sub_self]
            rfl
          have ordered : InOrder (front ++ { segment with start := min definedAt segment.start } :: later) := by
            refine inOrder_append.mpr
              ⟨sortedFront, ⟨?_, List.pairwise_cons.mpr ⟨behind, sortedBack.tail.ordered⟩⟩, ?_⟩
            · intro other member
              rcases List.mem_cons.mp member with rfl | deeper
              · exact (Nat.min_le_right _ _).trans_lt segmentFilled
              · exact sortedBack.tail.filled other deeper
            · intro left member other also
              rcases List.mem_cons.mp also with rfl | deeper
              · have order := before left member
                have gap := across left member segment List.mem_cons_self
                exact Nat.le_min.mpr ⟨order, gap⟩
              · exact across left member other (List.mem_cons_of_mem segment deeper)
          rw [replaced]
          have kept := segments_setCollection vector
            (front ++ { segment with start := min definedAt segment.start } :: later)
          refine ⟨_, _, rfl, ?_, ?_, ?_⟩
          · rw [← asSet_setCollection vector]
            rfl
          · exact kept.2
          · change InOrder (setCollection _ range).segments
            rw [kept.1]
            exact ordered
        · rw [if_neg moves, if_neg moves]
          exact ⟨_, _, rfl, rfl, vector, by rw [shape]; exact sorted⟩
      · rw [if_neg sameInstr, if_neg sameInstr]
        rw [if_neg sameInstr] at holds
        have gap : getDeadSlot definedAt < segment.start := by
          have earlier : definedAt / 4 < segment.start / 4 := of_decide_eq_true holds
          unfold getDeadSlot
          omega
        have startsLater : ∀ right ∈ segment :: later, definedAt < right.start := fun right member =>
          (filled.trans gap).trans_le (sortedBack.start_le member)
        rw [allocated, inSet, setInsert_eq starts startsLater, insertIdx_length_append]
        have ordered : InOrder (front ++ ⟨definedAt, getDeadSlot definedAt, valno⟩ :: segment :: later) := by
          refine inOrder_append.mpr ⟨sortedFront, ⟨?_, List.pairwise_cons.mpr ⟨?_, sortedBack.ordered⟩⟩, ?_⟩
          · intro other member
            rcases List.mem_cons.mp member with rfl | deeper
            · exact filled
            · exact sortedBack.filled other deeper
          · exact fun right member => gap.le.trans (sortedBack.start_le member)
          · intro left member other also
            rcases List.mem_cons.mp also with rfl | deeper
            · exact before left member
            · exact across left member other deeper
        refine ⟨_, _, rfl, ?_, ?_⟩
        · rw [asSet_setCollection freshVector]
        · exact created _ ordered

theorem compute_agrees {range : LiveRange} (vector : range.segmentSet = none) (sorted : InOrder range.segments)
    {call : ComputeCall} (allowed : Allowed call range) : Agrees range call := by
  cases call with
  | addSegment segment => exact addSegment_agrees vector sorted allowed
  | createDeadDef definedAt =>
      obtain ⟨next, valno, ran, inSet, kept, ordered⟩ := defineAt_agrees vector sorted allowed
      refine ⟨next, .value (some valno), ?_, ?_, kept, ordered⟩
      · unfold compute
        dsimp only
        rw [ran]
      · unfold compute
        dsimp only
        rw [inSet]
        rfl
  | createDeadDefOf valno =>
      obtain ⟨definedAt, known, asserted⟩ := allowed
      obtain ⟨next, value, ran, inSet, kept, ordered⟩ := defineAt_agrees vector sorted asserted
      refine ⟨next, .value (some value), ?_, ?_, kept, ordered⟩
      · unfold compute
        dsimp only
        rw [known, Option.map_some, ran]
      · unfold compute
        change (range.info valno).definedAt.map _ = _
        rw [known, Option.map_some, inSet]
        rfl
  | extendInBlock startIdx use =>
      obtain ⟨next, valno, undef, ran, inSet, kept, ordered⟩ :=
        extendInBlockUndefs_agrees vector sorted allowed
      refine ⟨next, .value valno, ?_, ?_, kept, ordered⟩
      · unfold compute
        dsimp only
        rw [extendInBlock_eq, ran]
        rfl
      · unfold compute
        dsimp only
        rw [extendInBlock_eq, inSet]
        rfl
  | extendInBlockUndefs undefs startIdx use =>
      obtain ⟨next, valno, undef, ran, inSet, kept, ordered⟩ :=
        extendInBlockUndefs_agrees vector sorted allowed
      refine ⟨next, .valueOrUndef valno undef, ?_, ?_, kept, ordered⟩
      · unfold compute
        dsimp only
        rw [ran]
        rfl
      · unfold compute
        dsimp only
        rw [inSet]
        rfl

end Steps

/-! ### Every run -/

theorem flushSegmentSet_asSet {range : LiveRange} (vector : range.segmentSet = none) :
    flushSegmentSet (asSet range) = some range := by
  unfold flushSegmentSet asSet
  dsimp only
  rw [if_pos rfl, ← vector]

theorem allowed_asSet {range : LiveRange} (vector : range.segmentSet = none) (sorted : InOrder range.segments)
    {call : ComputeCall} (allowed : Allowed call range) : Allowed call (asSet range) := by
  have collected := collection_of_vector vector
  have defined : ∀ definedAt forVNI, DefAsserted definedAt forVNI range →
      DefAsserted definedAt forVNI (asSet range) := by
    intro definedAt forVNI asserted
    refine ⟨asserted.1, ?_⟩
    have held := asserted.2
    rw [collected, findPos_eq vector sorted] at held
    exact held
  cases call with
  | addSegment segment =>
      have compatible := allowed.2
      rw [collected] at compatible
      exact ⟨allowed.1, compatible⟩
  | createDeadDef definedAt => exact defined definedAt none allowed
  | createDeadDefOf valno =>
      obtain ⟨definedAt, known, asserted⟩ := allowed
      exact ⟨definedAt, known, defined definedAt (some valno) asserted⟩
  | extendInBlock | extendInBlockUndefs => exact allowed

theorem AllAllowed.cons {call : ComputeCall} {calls : List ComputeCall} {range next : LiveRange}
    {returned : Returned}
    (allowed : Allowed call range) (ran : compute call range = some (next, returned))
    (others : AllAllowed calls next) : AllAllowed (call :: calls) range := by
  refine ⟨allowed, fun reached given also => ?_⟩
  rw [ran] at also
  cases also
  exact others

/-- Run with the set, the calls leave in it what they leave in the vector. -/
theorem segmentSet_agrees (calls : List ComputeCall) {range : LiveRange} (vector : range.segmentSet = none)
    (sorted : InOrder range.segments) (allowed : AllAllowed calls range) :
    ∃ final results, computeAll calls range = some (final, results) ∧
      AllAllowed calls (asSet range) ∧
      computeAll calls (asSet range) = some (asSet final, results.map Returned.inSet) ∧
      flushSegmentSet (asSet final) = some final := by
  induction calls generalizing range with
  | nil => exact ⟨range, [], rfl, trivial, rfl, flushSegmentSet_asSet vector⟩
  | cons call calls ih =>
      obtain ⟨now, later⟩ := allowed
      obtain ⟨next, returned, ran, inSet, kept, ordered⟩ := compute_agrees vector sorted now
      obtain ⟨final, results, others, othersAllowed, othersInSet, flushed⟩ :=
        ih kept ordered (later next returned ran)
      refine ⟨final, returned :: results, ?_, ?_, ?_, flushed⟩
      · unfold computeAll
        rw [ran, Option.bind_eq_bind, Option.bind_some]
        dsimp only
        rw [others]
        rfl
      · exact AllAllowed.cons (allowed_asSet vector sorted now) inSet othersAllowed
      · unfold computeAll
        rw [inSet, Option.bind_eq_bind, Option.bind_some]
        dsimp only
        rw [othersInSet]
        rfl

/-- A definition, a longer segment of its value and a use behind it. -/
theorem segmentSet_agrees_ofDefinition :
    AllAllowed [.createDeadDef 4, .addSegment ⟨7, 16, 0⟩, .extendInBlock 4 24] ⟨[], none, [], []⟩ ∧
      ∃ final results,
        computeAll [.createDeadDef 4, .addSegment ⟨7, 16, 0⟩, .extendInBlock 4 24] ⟨[], none, [], []⟩ =
          some (final, results) ∧
        AllAllowed [.createDeadDef 4, .addSegment ⟨7, 16, 0⟩, .extendInBlock 4 24] (asSet ⟨[], none, [], []⟩) ∧
        computeAll [.createDeadDef 4, .addSegment ⟨7, 16, 0⟩, .extendInBlock 4 24] (asSet ⟨[], none, [], []⟩) =
          some (asSet final, results.map Returned.inSet) ∧
        flushSegmentSet (asSet final) = some final := by
  have allowed : AllAllowed [.createDeadDef 4, .addSegment ⟨7, 16, 0⟩, .extendInBlock 4 24]
      ⟨[], none, [], []⟩ := by
    refine AllAllowed.cons (by unfold Allowed; decide) rfl
      (AllAllowed.cons ?_ rfl (AllAllowed.cons ?_ rfl trivial))
    · unfold Allowed
      decide
    · unfold Allowed
      decide
  exact ⟨allowed, segmentSet_agrees _ rfl ⟨nofun, .nil⟩ allowed⟩

/-- The place of the new segment is returned from the vector only. -/
theorem segmentSet_returns_end :
    ¬ ∀ (calls : List ComputeCall) (range : LiveRange), range.segmentSet = none → InOrder range.segments →
      AllAllowed calls range → ∃ final results, computeAll calls range = some (final, results) ∧
        ∃ inSet, computeAll calls (asSet range) = some (inSet, results) ∧ flushSegmentSet inSet = some final := by
  intro same
  have allowed : AllAllowed [.addSegment ⟨4, 8, 0⟩] ⟨[], none, [0], [⟨0, some 4⟩]⟩ := by
    refine AllAllowed.cons ?_ rfl trivial
    unfold Allowed
    decide
  obtain ⟨final, results, ran, inSet, also, -⟩ :=
    same [.addSegment ⟨4, 8, 0⟩] ⟨[], none, [0], [⟨0, some 4⟩]⟩ rfl ⟨nofun, .nil⟩ allowed
  have one : some (_, [Returned.segmentAt (some 0)]) = some (final, results) := ran
  have two : some (_, [Returned.segmentAt none]) = some (inSet, results) := also
  cases one
  cases two

end EvmBackend.LiveRange
