/-
What each edit of a list of live segments does, for lists in normal form: where
the searches end up, and the list and the map after an extension, an addition,
a removal and a merge of values.
-/

import EvmBackend.LiveRange

namespace EvmBackend.LiveRange

open Segments List

variable {segments front rest : List LiveSegment} {segment : LiveSegment}

/-! ### Searching -/

def endsAfter (pos : Nat) (segment : LiveSegment) : Prop := pos < segment.finish

def startsAfter (pos : Nat) (segment : LiveSegment) : Prop := pos < segment.start

theorem ordered_of_getElem? (sorted : InOrder segments) {left right : LiveSegment} {one two : Nat}
    (here : segments[one]? = some left) (there : segments[two]? = some right) (less : one < two) :
    left.start < left.finish ∧ left.finish ≤ right.start ∧ right.start < right.finish := by
  obtain ⟨within, rfl⟩ := List.getElem?_eq_some_iff.mp here
  obtain ⟨alsoWithin, rfl⟩ := List.getElem?_eq_some_iff.mp there
  exact pairwise_iff_getElem.mp sorted.pairwise one two within alsoWithin less

theorem findFrom_partitioned (sorted : InOrder segments) {pos : Nat}
    {fuel place len : Nat} (enough : len ≤ fuel) (inside : place + len ≤ segments.length)
    (before : ∀ (position : Nat) item, segments[position]? = some item → position < place →
      ¬ endsAfter pos item)
    (behind : ∀ (position : Nat) item, segments[position]? = some item → place + len ≤ position →
      endsAfter pos item) :
    PartitionedAt (endsAfter pos) segments (findFrom segments pos fuel place len) := by
  induction fuel generalizing place len with
  | zero =>
      refine ⟨by simp only [findFrom]; omega, fun position item here => ?_⟩
      constructor
      · intro later
        by_contra early
        exact before position item here (by simpa [findFrom] using early) later
      · intro late
        have past : place ≤ position := late
        exact behind position item here (by omega)
  | succ fuel ih =>
      rw [findFrom]
      split
      · refine ⟨by omega, fun position item here => ?_⟩
        constructor
        · intro later
          by_contra early
          exact before position item here (by omega) later
        · intro late
          exact behind position item here (by omega)
      · rename_i some_left
        have within : place + len / 2 < segments.length := by omega
        rw [List.getElem?_eq_getElem within]
        have middle := List.getElem?_eq_getElem within
        simp only
        split
        · rename_i ends
          refine ih (by omega) (by omega) before fun position item here late => ?_
          rcases Nat.eq_or_lt_of_le late with same | later
          · rw [← same, middle] at here
            cases here
            exact ends
          · obtain ⟨_, apart, filled⟩ := ordered_of_getElem? sorted middle here later
            unfold endsAfter
            omega
        · rename_i ends
          refine ih (by omega) (by omega) (fun position item here early => ?_)
            fun position item here late => behind position item here (by omega)
          by_cases same : position = place + len / 2
          · rw [same, middle] at here
            cases here
            exact ends
          · obtain ⟨_, apart, filled⟩ := ordered_of_getElem? sorted here middle (by omega)
            unfold endsAfter
            omega

theorem find_partitioned (sorted : InOrder segments) (pos : Nat) :
    PartitionedAt (endsAfter pos) segments (find segments pos) := by
  unfold find
  split
  · rename_i empty
    obtain rfl := getLast?_eq_none_iff.mp empty
    refine ⟨Nat.le_refl _, fun position item here => ?_⟩
    cases here
  · rename_i last found
    have atEnd : segments[segments.length - 1]? = some last := by
      rw [← getLast?_eq_getElem?]
      exact found
    split
    · rename_i past
      refine ⟨Nat.le_refl _, fun position item here => ?_⟩
      obtain ⟨within, _⟩ := List.getElem?_eq_some_iff.mp here
      have early : ¬ segments.length ≤ position := by omega
      refine ⟨fun later => absurd later ?_, fun late => absurd late early⟩
      rcases Nat.eq_or_lt_of_le (Nat.le_sub_one_of_lt within) with same | less
      · rw [same, atEnd] at here
        cases here
        exact Nat.not_lt.mpr past
      · obtain ⟨_, apart, filled⟩ := ordered_of_getElem? sorted here atEnd less
        unfold endsAfter
        omega
    · refine findFrom_partitioned sorted (Nat.le_refl _) (by omega)
        (fun position item _ absent => absurd absent (Nat.not_lt_zero _))
        fun position item here late => ?_
      obtain ⟨within, _⟩ := List.getElem?_eq_some_iff.mp here
      omega

theorem upperBound_partitioned (sorted : InOrder segments) (start : Nat) :
    PartitionedAt (startsAfter start) segments (upperBound segments start) := by
  have stays : segments.Pairwise fun left right =>
      decide (start < left.start) = true → decide (start < right.start) = true := by
    refine sorted.pairwise.imp fun {left right} both later => ?_
    simp only [decide_eq_true_eq] at later ⊢
    omega
  obtain ⟨within, parted⟩ := partitionedAt_findIdx stays
  refine ⟨within, fun position item here => Iff.trans ?_ (parted position item here)⟩
  change start < item.start ↔ _
  exact decide_eq_true_iff.symm

theorem segmentLess_iff {left right : LiveSegment} :
    segmentLess left right = true ↔
      left.start < right.start ∨ (left.start = right.start ∧ left.finish < right.finish) := by
  simp [segmentLess]

theorem setUpperBound_partitioned (sorted : InOrder segments) (sought : LiveSegment) :
    PartitionedAt (fun item => segmentLess sought item = true) segments
      (setUpperBound segments sought) := by
  refine partitionedAt_findIdx (sorted.pairwise.imp fun {left right} both later => ?_)
  rw [segmentLess_iff] at later ⊢
  omega

theorem setFind_partitioned (sorted : InOrder segments) (pos : Nat) :
    PartitionedAt (endsAfter pos) segments (setFind segments pos) := by
  have parted := setUpperBound_partitioned sorted ⟨pos, getNextSlot pos, 0⟩
  unfold setFind
  generalize setUpperBound segments ⟨pos, getNextSlot pos, 0⟩ = bound at parted ⊢
  have after : ∀ (position : Nat) item, segments[position]? = some item → bound ≤ position →
      endsAfter pos item := by
    intro position item here late
    have less := segmentLess_iff.mp ((parted.2 position item here).mpr late)
    have filled := sorted.filled _ (mem_of_getElem? here)
    unfold endsAfter
    simp only [getNextSlot] at less
    omega
  have before : ∀ (position : Nat) item, segments[position]? = some item → position < bound →
      item.start ≤ pos := by
    intro position item here early
    have notLess : ¬ segmentLess ⟨pos, getNextSlot pos, 0⟩ item = true := by
      intro less
      exact Nat.not_le.mpr early ((parted.2 position item here).mp less)
    rw [segmentLess_iff] at notLess
    simp only [getNextSlot] at notLess
    omega
  cases bound with
  | zero =>
      refine ⟨Nat.zero_le _, fun position item here => ?_⟩
      exact ⟨fun _ => Nat.zero_le _, fun late => after position item here late⟩
  | succ bound =>
      have within := parted.1
      have found := List.getElem?_eq_getElem (show bound < segments.length by omega)
      simp only [found]
      split
      · rename_i ends
        refine ⟨by omega, fun position item here => ⟨fun later => ?_, fun late => ?_⟩⟩
        · by_contra early
          obtain ⟨_, apart, _⟩ := ordered_of_getElem? sorted here found (by omega)
          have started := before bound _ found (by omega)
          unfold endsAfter at later
          omega
        · rcases Nat.eq_or_lt_of_le late with same | more
          · rw [← same, found] at here
            cases here
            exact ends
          · exact after position item here more
      · rename_i ends
        refine ⟨within, fun position item here => ⟨fun later => ?_, after position item here⟩⟩
        by_contra early
        unfold endsAfter at later
        rcases Nat.eq_or_lt_of_le (Nat.le_of_lt_succ (Nat.not_le.mp early)) with same | less
        · rw [same, found] at here
          cases here
          exact ends later
        · obtain ⟨_, apart, filled⟩ := ordered_of_getElem? sorted here found less
          omega

theorem setFindInsertPos_partitioned (sorted : InOrder segments) (sought : LiveSegment) :
    PartitionedAt (startsAfter sought.start) segments (setFindInsertPos segments sought) := by
  have parted := setUpperBound_partitioned sorted sought
  unfold setFindInsertPos
  generalize setUpperBound segments sought = bound at parted ⊢
  have before : ∀ (position : Nat) item, segments[position]? = some item → position < bound →
      ¬ startsAfter sought.start item := by
    intro position item here early
    have notLess : ¬ segmentLess sought item = true := by
      intro less
      exact Nat.not_le.mpr early ((parted.2 position item here).mp less)
    rw [segmentLess_iff] at notLess
    unfold startsAfter
    omega
  have within := parted.1
  simp only
  split
  · rename_i past
    refine ⟨within, fun position item here => ⟨fun later => ?_, fun late => ?_⟩⟩
    · by_contra early
      exact before position item here (Nat.not_le.mp early) later
    · obtain ⟨short, _⟩ := List.getElem?_eq_some_iff.mp here
      have long := List.getElem?_eq_none_iff.mp past
      omega
  · rename_i found atBound
    have onward : ∀ (position : Nat) item, segments[position]? = some item → bound < position →
        startsAfter sought.start item := by
      intro position item here late
      have less := segmentLess_iff.mp ((parted.2 bound found atBound).mpr (Nat.le_refl _))
      obtain ⟨filled, apart, _⟩ := ordered_of_getElem? sorted atBound here late
      unfold startsAfter
      omega
    split
    · rename_i starts
      refine ⟨within, fun position item here => ⟨fun later => ?_, fun late => ?_⟩⟩
      · by_contra early
        exact before position item here (Nat.not_le.mp early) later
      · rcases Nat.eq_or_lt_of_le late with same | more
        · rw [← same, atBound] at here
          cases here
          exact starts
        · exact onward position item here more
    · rename_i starts
      obtain ⟨short, _⟩ := List.getElem?_eq_some_iff.mp atBound
      refine ⟨short, fun position item here => ⟨fun later => ?_, onward position item here⟩⟩
      by_contra early
      rcases Nat.eq_or_lt_of_le (Nat.le_of_lt_succ (Nat.not_le.mp early)) with same | less
      · rw [same, atBound] at here
        cases here
        exact starts later
      · exact before position item here less later

variable {gone kept start : Nat} {range : LiveRange} {middle : List LiveSegment}

theorem findPos_partitioned (sorted : InOrder range.collection) (pos : Nat) :
    PartitionedAt (endsAfter pos) range.collection (range.findPos pos) := by
  unfold findPos
  unfold collection at sorted ⊢
  cases kept : range.segmentSet with
  | none =>
      rw [kept] at sorted
      exact find_partitioned sorted pos
  | some set =>
      rw [kept] at sorted
      exact setFind_partitioned sorted pos

theorem findInsertPos_partitioned (sorted : InOrder range.collection) (sought : LiveSegment) :
    PartitionedAt (startsAfter sought.start) range.collection (range.findInsertPos sought) := by
  unfold findInsertPos
  unfold collection at sorted ⊢
  cases kept : range.segmentSet with
  | none =>
      rw [kept] at sorted
      exact upperBound_partitioned sorted sought.start
  | some set =>
      rw [kept] at sorted
      exact setFindInsertPos_partitioned sorted sought

/-! ### Extending a segment -/

/-- The map with a segment added: its value on its indexes, as before elsewhere. -/
def withSegment (added : LiveSegment) (map : Nat → Option Nat) (index : Nat) : Option Nat :=
  if added.Contains index then some added.value else map index

/-- The list is in normal form and stands for the given map. -/
structure Holds (segments : List LiveSegment) (map : Nat → Option Nat) : Prop where
  normal : WellFormed segments
  values : ∀ index, valueAt segments index = map index

theorem apart_of_normal {back : List LiveSegment}
    (normal : WellFormed (front ++ (middle ++ back))) :
    (∀ left ∈ front, ∀ right ∈ middle, Apart left right) ∧
      ∀ left ∈ middle, ∀ right ∈ back, Apart left right := by
  obtain ⟨_, rest, across⟩ := wellFormed_append.mp normal
  obtain ⟨_, _, behind⟩ := wellFormed_append.mp rest
  exact ⟨fun left one right two => across left one right (mem_append_left back two), behind⟩

theorem holds_of_merged {back : List LiveSegment} {finish newEnd : Nat}
    (normal : WellFormed (front ++ (segment :: middle ++ back)))
    (values : ∀ other ∈ middle, other.value = segment.value) (reaches : segment.start < finish)
    (covers : ∀ index, segment.start ≤ index →
    (index < finish ↔ index < newEnd ∨ ∃ other ∈ segment :: middle, other.Contains index))
    (behind : ∀ other ∈ back, Apart { segment with finish := finish } other) :
    Holds (front ++ { segment with finish := finish } :: back)
      (withSegment ⟨segment.start, newEnd, segment.value⟩
        (valueAt (front ++ (segment :: middle ++ back)))) := by
  obtain ⟨before, _⟩ := apart_of_normal normal
  have ahead : ∀ left ∈ front, Apart left { segment with finish := finish } :=
    fun left member => before left member segment mem_cons_self
  refine ⟨wellFormed_insert normal.remove reaches ahead behind, fun index => ?_⟩
  refine valueAt_union _ ahead rfl (fun other member => ?_) ?_
  · rcases mem_cons.mp member with rfl | deeper
    · rfl
    · exact values other deeper
  · constructor
    · intro inside
      rcases (covers index inside.1).mp inside.2 with early | held
      · exact .inl ⟨inside.1, early⟩
      · exact .inr held
    · intro either
      have started : segment.start ≤ index := by
        rcases either with inside | ⟨other, member, held⟩
        · exact inside.1
        · rcases mem_cons.mp member with rfl | deeper
          · exact held.1
          · obtain ⟨_, joined, _⟩ := wellFormed_append.mp normal
            obtain ⟨filled, apart, _⟩ := wellFormed_cons.mp (List.cons_append ▸ joined)
            have gap := (apart other (mem_append_left back deeper)).1
            have later := held.1
            omega
      refine ⟨started, (covers index started).mpr ?_⟩
      exact either.imp And.right id

/-- What the extension of a segment takes in: segments of its value that end by
the new end, and an end for all of them. -/
structure Swallows (segment : LiveSegment) (merged : List LiveSegment) (newEnd finish : Nat) :
    Prop where
  within : ∀ other ∈ merged, other.finish ≤ newEnd
  values : ∀ other ∈ merged, other.value = segment.value
  reaches : newEnd ≤ finish
  keeps : segment.finish ≤ finish
  tight : finish = newEnd ∨ finish = segment.finish

section Swallowing

variable {merged later : List LiveSegment} {next : LiveSegment} {newEnd finish : Nat}

theorem Swallows.covers (swallows : Swallows segment merged newEnd finish) (index : Nat)
    (started : segment.start ≤ index) :
    index < finish ↔ index < newEnd ∨ ∃ other ∈ segment :: merged, other.Contains index := by
  have reaches := swallows.reaches
  have keeps := swallows.keeps
  constructor
  · intro early
    rcases swallows.tight with same | same
    · exact .inl (same ▸ early)
    · exact .inr ⟨segment, mem_cons_self, started, same ▸ early⟩
  · rintro (early | ⟨other, member, held⟩)
    · omega
    · have ended := held.2
      rcases mem_cons.mp member with rfl | deeper
      · omega
      · have short := swallows.within other deeper
        omega

theorem swallows_takeWhile (ordered : WellFormed (segment :: rest))
    (compatible : ∀ other ∈ rest, other.start < newEnd → other.value = segment.value) :
    Swallows segment (rest.takeWhile fun other => decide (other.finish ≤ newEnd)) newEnd
      (max newEnd ((rest.takeWhile fun other => decide (other.finish ≤ newEnd)).getLast?.getD
        segment).finish) := by
  obtain ⟨_, apart, filled⟩ := wellFormed_cons.mp ordered
  have split : rest = rest.takeWhile (fun other => decide (other.finish ≤ newEnd)) ++
      rest.dropWhile (fun other => decide (other.finish ≤ newEnd)) :=
    takeWhile_append_dropWhile.symm
  have listed : ∀ other ∈ rest.takeWhile (fun other => decide (other.finish ≤ newEnd)),
      other ∈ rest ∧ other.finish ≤ newEnd := by
    intro other member
    have holds := mem_takeWhile_imp member
    rw [split]
    exact ⟨mem_append_left _ member, of_decide_eq_true holds⟩
  generalize rest.takeWhile (fun other => decide (other.finish ≤ newEnd)) = merged at listed
  have ends : max newEnd (merged.getLast?.getD segment).finish = newEnd ∧ segment.finish ≤ newEnd ∨
      max newEnd (merged.getLast?.getD segment).finish = max newEnd segment.finish := by
    cases last : merged.getLast? with
    | none => exact Or.inr rfl
    | some final =>
        obtain ⟨member, ended⟩ := listed final (mem_of_getLast? last)
        have gap := (apart final member).1
        have started := filled.filled member
        refine Or.inl ⟨Nat.max_eq_left ended, ?_⟩
        omega
  refine ⟨fun other member => (listed other member).2, fun other member => ?_, ?_, ?_, ?_⟩
  · obtain ⟨present, ended⟩ := listed other member
    have started := filled.filled present
    exact compatible other present (by omega)
  · exact Nat.le_max_left _ _
  · omega
  · omega

theorem Swallows.holds_touching (swallows : Swallows segment merged newEnd finish)
    (normal : WellFormed (front ++ segment :: (merged ++ next :: later)))
    (touches : next.start ≤ finish) (same : next.value = segment.value)
    (nextEnds : newEnd < next.finish) :
    Holds (front ++ { segment with finish := next.finish } :: later)
      (withSegment ⟨segment.start, newEnd, segment.value⟩
        (valueAt (front ++ segment :: (merged ++ next :: later)))) := by
  have shape : segment :: (merged ++ next :: later) = segment :: (merged ++ [next]) ++ later := by
    simp
  obtain ⟨filled, apart, ordered⟩ := wellFormed_cons.mp (wellFormed_append.mp normal).2.1
  obtain ⟨_, tidy, _⟩ := wellFormed_append.mp ordered
  obtain ⟨nextFilled, nextApart, _⟩ := wellFormed_cons.mp tidy
  have nextGap := (apart next (mem_append_right merged mem_cons_self)).1
  have covered := swallows.covers
  rw [shape] at normal ⊢
  refine holds_of_merged normal (fun other member => ?_) (by omega) (fun index started => ?_)
    (fun other member => ?_)
  · rcases mem_append.mp member with inside | last
    · exact swallows.values other inside
    · rw [mem_singleton.mp last]
      exact same
  · constructor
    · intro early
      by_cases short : index < finish
      · rcases (covered index started).mp short with early | ⟨other, member, held⟩
        · exact .inl early
        · exact .inr ⟨other, by simp at member ⊢; tauto, held⟩
      · exact .inr ⟨next, by simp, by omega, early⟩
    · rintro (early | ⟨other, member, held⟩)
      · omega
      · have ended := held.2
        simp only [mem_cons, mem_append, not_mem_nil, or_false] at member
        rcases member with rfl | inside | rfl
        · omega
        · have short := swallows.within other inside
          omega
        · exact ended
  · have gap := nextApart other member
    refine ⟨gap.1, fun meets => ?_⟩
    rw [← same]
    exact gap.2 meets

theorem Swallows.holds_apart (swallows : Swallows segment merged newEnd finish)
    (normal : WellFormed (front ++ segment :: (merged ++ next :: later)))
    (compatible : next.start < newEnd → next.value = segment.value)
    (apart : ¬ (next.start ≤ finish ∧ next.value = segment.value)) :
    Holds (front ++ { segment with finish := finish } :: next :: later)
      (withSegment ⟨segment.start, newEnd, segment.value⟩
        (valueAt (front ++ segment :: (merged ++ next :: later)))) := by
  obtain ⟨filled, gaps, ordered⟩ := wellFormed_cons.mp (wellFormed_append.mp normal).2.1
  obtain ⟨_, tidy, _⟩ := wellFormed_append.mp ordered
  obtain ⟨nextFilled, nextApart, _⟩ := wellFormed_cons.mp tidy
  have nextGap := (gaps next (mem_append_right merged mem_cons_self)).1
  have keeps := swallows.keeps
  have nextBehind : Apart { segment with finish := finish } next := by
    refine ⟨?_, fun same differs => apart ⟨Nat.le_of_eq same.symm, differs.symm⟩⟩
    by_contra less
    have early : next.start < finish := Nat.not_le.mp less
    refine apart ⟨Nat.le_of_lt early, compatible ?_⟩
    rcases swallows.tight with same | same
    · omega
    · omega
  refine holds_of_merged normal swallows.values (by omega) swallows.covers (fun other member => ?_)
  rcases mem_cons.mp member with rfl | deeper
  · exact nextBehind
  · exact nextBehind.trans nextFilled (nextApart other deeper)

end Swallowing

theorem extendSegmentEndTo_holds {newEnd : Nat} (normal : WellFormed (front ++ segment :: rest))
    (compatible : ∀ other ∈ rest, other.start < newEnd → other.value = segment.value) :
    ∃ next, extendSegmentEndTo front.length newEnd (front ++ segment :: rest) = some next ∧
      Holds next (withSegment ⟨segment.start, newEnd, segment.value⟩
        (valueAt (front ++ segment :: rest))) := by
  have joined := (wellFormed_append.mp normal).2.1
  have swallows := swallows_takeWhile joined compatible
  unfold extendSegmentEndTo
  rw [drop_left, take_left]
  simp only
  generalize max newEnd _ = finish at swallows ⊢
  have stops := head?_dropWhile_not (fun other : LiveSegment => decide (other.finish ≤ newEnd)) rest
  have split : rest = rest.takeWhile (fun other => decide (other.finish ≤ newEnd)) ++
      rest.dropWhile (fun other => decide (other.finish ≤ newEnd)) :=
    takeWhile_append_dropWhile.symm
  generalize rest.takeWhile (fun other => decide (other.finish ≤ newEnd)) = merged at swallows split
  generalize rest.dropWhile (fun other => decide (other.finish ≤ newEnd)) = after at stops split
  subst split
  cases after with
  | nil =>
      have filled := joined.filled mem_cons_self
      have keeps := swallows.keeps
      refine ⟨_, rfl, ?_⟩
      exact holds_of_merged normal swallows.values (by omega) swallows.covers
        (fun _ absent => by cases absent)
  | cons next later =>
      have nextEnds : newEnd < next.finish := by simpa using stops
      by_cases touches : next.start ≤ finish ∧ next.value = segment.value
      · exact ⟨_, if_pos touches, swallows.holds_touching normal touches.1 touches.2 nextEnds⟩
      · refine ⟨_, if_neg touches, swallows.holds_apart normal (compatible next ?_) touches⟩
        exact mem_append_right merged mem_cons_self

/-! ### Adding a segment -/

variable {back : List LiveSegment} {added : LiveSegment}

theorem insertIdx_length_append (front back : List LiveSegment) (added : LiveSegment) :
    (front ++ back).insertIdx front.length added = front ++ added :: back := by
  induction front with
  | nil => rfl
  | cons first rest ih =>
      rw [length_cons, List.cons_append, insertIdx_succ_cons, ih, List.cons_append]

def Compatible (added : LiveSegment) (segments : List LiveSegment) : Prop :=
  ∀ other ∈ segments, other.start < added.finish → added.start < other.finish →
    other.value = added.value

theorem extendsBefore_append (added last : LiveSegment) (earlier back : List LiveSegment) :
    extendsBefore (earlier ++ [last]).length added (earlier ++ [last] ++ back) = true ↔
      added.value = last.value ∧ last.start ≤ added.start ∧ added.start ≤ last.finish := by
  have found : (earlier ++ [last] ++ back)[earlier.length]? = some last := by
    rw [List.append_assoc, getElem?_append_right (Nat.le_refl _), Nat.sub_self]
    rfl
  rw [length_append, length_singleton]
  simp only [extendsBefore, found, Bool.and_eq_true, beq_iff_eq, decide_eq_true_eq, and_assoc]

theorem extendsAfter_append (added next : LiveSegment) (front later : List LiveSegment) :
    extendsAfter front.length added (front ++ next :: later) = true ↔
      added.value = next.value ∧ next.start ≤ added.finish := by
  have found : (front ++ next :: later)[front.length]? = some next := by
    rw [getElem?_append_right (Nat.le_refl _), Nat.sub_self]
    rfl
  simp only [extendsAfter, found, Bool.and_eq_true, beq_iff_eq, decide_eq_true_eq]

/-- When the segment before the place does not take the new one in, all those
before it are apart from it. -/
theorem apart_before (sorted : InOrder (front ++ back)) (filled : added.start < added.finish)
    (compatible : Compatible added (front ++ back)) (before : ∀ left ∈ front, left.start ≤ added.start)
    (alone : extendsBefore front.length added (front ++ back) = false) :
    ∀ left ∈ front, Apart left added := by
  rcases eq_nil_or_concat front with rfl | ⟨earlier, last, rfl⟩
  · exact fun _ absent => by cases absent
  rw [concat_eq_append] at *
  have stays := mt (extendsBefore_append added last earlier back).mpr (by rw [alone]; simp)
  have lastStart := before last (by simp)
  have overlapping := compatible last (by simp) (by omega)
  have lastApart : Apart last added := by
    constructor
    · by_contra reaches
      have crosses : added.start < last.finish := Nat.not_le.mp reaches
      exact stays ⟨(overlapping crosses).symm, lastStart, Nat.le_of_lt crosses⟩
    · intro touching same
      exact stays ⟨same.symm, lastStart, Nat.le_of_eq touching.symm⟩
  obtain ⟨sortedFront, _, _⟩ := inOrder_append.mp sorted
  obtain ⟨_, single, across⟩ := inOrder_append.mp sortedFront
  intro left member
  rcases mem_append.mp member with inside | atEnd
  · have ordered := across left inside last (by simp)
    have lastFilled := single.filled last (by simp)
    have ends := lastApart.1
    exact ⟨by omega, fun touching => by omega⟩
  · rw [mem_singleton.mp atEnd]
    exact lastApart

theorem apart_behind (sorted : InOrder (front ++ back))
    (compatible : Compatible added (front ++ back)) (behind : ∀ right ∈ back, added.start < right.start)
    (alone : extendsAfter front.length added (front ++ back) = false) :
    ∀ right ∈ back, Apart added right := by
  cases back with
  | nil => exact fun _ absent => by cases absent
  | cons next later =>
      obtain ⟨_, ordered, _⟩ := inOrder_append.mp sorted
      have nextFilled := ordered.filled next mem_cons_self
      have stays := mt (extendsAfter_append added next front later).mpr (by rw [alone]; simp)
      have nextStart := behind next mem_cons_self
      have first : Apart added next := by
        constructor
        · by_contra reaches
          have crosses : next.start < added.finish := Nat.not_le.mp reaches
          have same := compatible next (by simp) crosses (by omega)
          exact stays ⟨same.symm, Nat.le_of_lt crosses⟩
        · intro touching same
          exact stays ⟨same, Nat.le_of_eq touching.symm⟩
      intro right member
      rcases mem_cons.mp member with rfl | deeper
      · exact first
      · have gap := (pairwise_cons.mp ordered.ordered).1 right deeper
        have ends := first.1
        exact ⟨by omega, fun touching => by omega⟩

theorem extendSegmentStartTo_eq {next : LiveSegment} {later : List LiveSegment}
    (before : ∀ left ∈ front, Apart left added) (filled : ∀ left ∈ front, left.start < left.finish)
    (same : next.value = added.value) :
    extendSegmentStartTo front.length added.start (front ++ next :: later) =
      some (front ++ { next with start := added.start } :: later, front.length) := by
  have found : (front ++ next :: later)[front.length]? = some next := by
    rw [getElem?_append_right (Nat.le_refl _), Nat.sub_self]
    rfl
  have dropped : (front ++ next :: later).drop (front.length + 1) = later := by
    simp
  unfold extendSegmentStartTo
  rw [found, dropped]
  simp only
  rcases eq_nil_or_concat front with rfl | ⟨earlier, last, rfl⟩
  · rfl
  rw [concat_eq_append] at *
  have lastApart := before last (by simp)
  have lastFilled := filled last (by simp)
  have atLast : (earlier ++ [last] ++ next :: later)[earlier.length]? = some last := by
    rw [List.append_assoc, getElem?_append_right (Nat.le_refl _), Nat.sub_self]
    rfl
  have walked : mergeStart added.start (earlier ++ [last] ++ next :: later)
      (earlier ++ [last]).length = some earlier.length := by
    rw [length_append, length_singleton, mergeStart, atLast]
    have early := lastApart.1
    simp only
    rw [if_neg (by omega)]
  have stays : ¬ (added.start ≤ last.finish ∧ last.value = next.value) := by
    rintro ⟨reaches, equal⟩
    have early := lastApart.1
    exact lastApart.2 (by omega) (equal.trans same)
  have again : (earlier ++ [last] ++ next :: later)[earlier.length + 1]? = some next := by
    rw [← found, length_append, length_singleton]
  have taken : (earlier ++ [last] ++ next :: later).take (earlier.length + 1) = earlier ++ [last] := by
    have long : earlier.length + 1 = (earlier ++ [last]).length := by simp
    rw [long, take_left]
  rw [walked]
  simp only [atLast, if_neg stays, again, taken]
  rw [length_append, length_singleton]

/-- What adding a segment comes to: the segment before the place takes it in, it
stands alone, or the segment at the place starts earlier and may end later too. -/
theorem addSegmentAt_cases {place : Nat} (sorted : InOrder segments)
    (filled : added.start < added.finish) (compatible : Compatible added segments)
    (parted : PartitionedAt (startsAfter added.start) segments place) :
    (∃ earlier last back, segments = earlier ++ last :: back ∧ added.value = last.value ∧
      last.start ≤ added.start ∧ added.start ≤ last.finish ∧
      (∀ other ∈ back, added.start < other.start) ∧
      addSegmentAt place added segments = extendSegmentEndTo earlier.length added.finish segments) ∨
    ∃ front back, segments = front ++ back ∧ (∀ left ∈ front, Apart left added) ∧
      ((∀ right ∈ back, Apart added right) ∧
        addSegmentAt place added segments = some (front ++ added :: back) ∨
      ∃ next later, back = next :: later ∧ added.value = next.value ∧ added.start < next.start ∧
        next.start ≤ added.finish ∧ addSegmentAt place added segments =
          if next.finish < added.finish then
            extendSegmentEndTo front.length added.finish
              (front ++ { next with start := added.start } :: later)
          else some (front ++ { next with start := added.start } :: later)) := by
  obtain ⟨front, back, rfl, rfl, early, late⟩ := parted.split
  have before : ∀ left ∈ front, left.start ≤ added.start :=
    fun left member => Nat.not_lt.mp (early left member)
  unfold addSegmentAt
  cases joins : extendsBefore front.length added (front ++ back) with
  | true =>
      rcases eq_nil_or_concat front with rfl | ⟨earlier, last, rfl⟩
      · cases joins
      rw [concat_eq_append] at *
      obtain ⟨same, starts, reaches⟩ := (extendsBefore_append added last earlier back).mp joins
      refine .inl ⟨earlier, last, back, by simp, same, starts, reaches, late, ?_⟩
      rw [if_pos rfl, length_append, length_singleton, Nat.add_sub_cancel]
  | false =>
      have apart := apart_before sorted filled compatible before joins
      refine .inr ⟨front, back, rfl, apart, ?_⟩
      rw [if_neg Bool.false_ne_true]
      cases meets : extendsAfter front.length added (front ++ back) with
      | false =>
          refine .inl ⟨apart_behind sorted compatible late meets, ?_⟩
          rw [if_neg Bool.false_ne_true, insertIdx_length_append]
      | true =>
          cases back with
          | nil => simp [extendsAfter] at meets
          | cons next later =>
              obtain ⟨same, starts⟩ := (extendsAfter_append added next front later).mp meets
              refine .inr ⟨next, later, rfl, same, late next mem_cons_self, starts, ?_⟩
              have found : (front ++ { next with start := added.start } :: later)[front.length]? =
                  some { next with start := added.start } := by
                rw [getElem?_append_right (Nat.le_refl _), Nat.sub_self]
                rfl
              rw [if_pos rfl, extendSegmentStartTo_eq apart
                (inOrder_append.mp sorted).1.filled same.symm]
              simp only [Option.bind_eq_bind, Option.bind_some, found]

theorem extendBefore_holds {earlier : List LiveSegment} {last : LiveSegment}
    (normal : WellFormed (earlier ++ last :: back))
    (compatible : Compatible added (earlier ++ last :: back))
    (late : ∀ other ∈ back, startsAfter added.start other) (same : added.value = last.value)
    (starts : last.start ≤ added.start) (reaches : added.start ≤ last.finish) :
    ∃ next, extendSegmentEndTo earlier.length added.finish (earlier ++ last :: back) = some next ∧
      Holds next (withSegment added (valueAt (earlier ++ last :: back))) := by
  obtain ⟨next, done, holds⟩ := extendSegmentEndTo_holds normal
    (fun other member crosses => by
      have started := late other member
      have ends := (wellFormed_append.mp normal).2.1.filled (mem_cons_of_mem last member)
      refine (compatible other (by simp [member]) crosses ?_).trans same
      unfold startsAfter at started
      omega)
  refine ⟨next, done, holds.normal, fun index => ?_⟩
  rw [holds.values]
  unfold withSegment
  by_cases inside : added.Contains index
  · have wider : Segment.Contains ⟨last.start, added.finish, last.value⟩ index :=
      ⟨Nat.le_trans starts inside.1, inside.2⟩
    rw [if_pos inside, if_pos wider, same]
  · rw [if_neg inside]
    by_cases wider : Segment.Contains ⟨last.start, added.finish, last.value⟩ index
    · rw [if_pos wider]
      have held : last.Contains index := by
        have below := wider.2
        have early : ¬ added.start ≤ index := fun started => inside ⟨started, below⟩
        exact ⟨wider.1, by omega⟩
      exact (normal.valueAt_eq (by simp) held).symm
    · rw [if_neg wider]

section After

variable {next : LiveSegment} {later : List LiveSegment}

theorem startEarlier_holds (normal : WellFormed (front ++ next :: later))
    (apart : ∀ left ∈ front, Apart left added) (same : added.value = next.value)
    (nextStart : added.start < next.start) :
    Holds (front ++ { next with start := added.start } :: later)
      (withSegment ⟨added.start, next.finish, added.value⟩ (valueAt (front ++ next :: later))) := by
  obtain ⟨_, ordered, _⟩ := wellFormed_append.mp normal
  obtain ⟨nextFilled, nextApart, _⟩ := wellFormed_cons.mp ordered
  have ahead : ∀ left ∈ front, Apart left { next with start := added.start } := by
    intro left member
    have gap := apart left member
    exact ⟨gap.1, fun touching => same ▸ gap.2 touching⟩
  have removed : WellFormed (front ++ later) :=
    WellFormed.remove (show WellFormed (front ++ ([next] ++ later)) from normal)
  refine ⟨wellFormed_insert removed (Nat.lt_trans nextStart nextFilled) ahead nextApart,
    fun index => ?_⟩
  have values : ∀ other ∈ [next], other.value = added.value := by
    intro other member
    rw [mem_singleton.mp member]
    exact same.symm
  refine valueAt_union ⟨added.start, next.finish, added.value⟩ ahead same.symm values ?_
  constructor
  · exact fun inside => .inl inside
  · rintro (inside | ⟨other, member, held⟩)
    · exact inside
    · rw [mem_singleton.mp member] at held
      exact ⟨Nat.le_trans (Nat.le_of_lt nextStart) held.1, held.2⟩

theorem extendBoth_holds (normal : WellFormed (front ++ next :: later))
    (compatible : Compatible added (front ++ next :: later)) (same : added.value = next.value)
    (started : Holds (front ++ { next with start := added.start } :: later)
      (withSegment ⟨added.start, next.finish, added.value⟩ (valueAt (front ++ next :: later))))
    (longer : next.finish < added.finish) :
    ∃ last, extendSegmentEndTo front.length added.finish
        (front ++ { next with start := added.start } :: later) = some last ∧
      Holds last (withSegment added (valueAt (front ++ next :: later))) := by
  obtain ⟨_, ordered, _⟩ := wellFormed_append.mp normal
  obtain ⟨nextFilled, nextApart, _⟩ := wellFormed_cons.mp ordered
  have addedStart := started.normal.filled (mem_append_right front mem_cons_self)
  obtain ⟨last, done, holds⟩ := extendSegmentEndTo_holds started.normal
    (fun other member crosses => by
      have gap := (nextApart other member).1
      have ends := ordered.filled (mem_cons_of_mem next member)
      simp only at addedStart
      exact (compatible other (by simp [member]) crosses (by omega)).trans same)
  refine ⟨last, done, holds.normal, fun index => ?_⟩
  rw [holds.values]
  unfold withSegment
  by_cases inside : added.Contains index
  · rw [if_pos inside, same]
    exact if_pos inside
  · rw [if_neg inside]
    refine (if_neg inside).trans ?_
    rw [started.values]
    refine if_neg fun shorter => inside ⟨shorter.1, ?_⟩
    exact Nat.lt_trans shorter.2 longer

theorem Holds.withSegment_shorter (normal : WellFormed (front ++ next :: later))
    (same : added.value = next.value) (starts : next.start ≤ added.finish)
    (started : Holds (front ++ { next with start := added.start } :: later)
      (withSegment ⟨added.start, next.finish, added.value⟩ (valueAt (front ++ next :: later))))
    (enough : added.finish ≤ next.finish) :
    Holds (front ++ { next with start := added.start } :: later)
      (withSegment added (valueAt (front ++ next :: later))) := by
  refine ⟨started.normal, fun index => ?_⟩
  rw [started.values]
  unfold withSegment
  by_cases inside : added.Contains index
  · rw [if_pos inside]
    exact if_pos ⟨inside.1, Nat.lt_of_lt_of_le inside.2 enough⟩
  · rw [if_neg inside]
    split
    · rename_i wider
      have late : added.finish ≤ index := Nat.not_lt.mp fun early => inside ⟨wider.1, early⟩
      have held : next.Contains index := ⟨Nat.le_trans starts late, wider.2⟩
      rw [normal.valueAt_eq (by simp) held, same]
    · rfl

end After

theorem addSegmentAt_holds {place : Nat} (normal : WellFormed segments)
    (filled : added.start < added.finish) (compatible : Compatible added segments)
    (parted : PartitionedAt (startsAfter added.start) segments place) :
    ∃ next, addSegmentAt place added segments = some next ∧
      Holds next (withSegment added (valueAt segments)) := by
  rcases addSegmentAt_cases normal.inOrder filled compatible parted with
    ⟨earlier, last, back, rfl, same, starts, reaches, late, added_⟩ |
    ⟨front, back, rfl, apart, ⟨behind, added_⟩ | ⟨next, later, rfl, same, nextStart, starts, added_⟩⟩
  · rw [added_]
    exact extendBefore_holds normal compatible late same starts reaches
  · refine ⟨_, added_, wellFormed_insert normal filled apart behind, fun index => ?_⟩
    exact valueAt_insert (valueAt_front apart)
  · have started := startEarlier_holds normal apart same nextStart
    rw [added_]
    by_cases longer : next.finish < added.finish
    · rw [if_pos longer]
      exact extendBoth_holds normal compatible same started longer
    · rw [if_neg longer]
      exact ⟨_, rfl, .withSegment_shorter normal same starts started (Nat.not_lt.mp longer)⟩

/-! ### Removing a span -/

def withoutSpan (start finish : Nat) (map : Nat → Option Nat) (index : Nat) : Option Nat :=
  if start ≤ index ∧ index < finish then none else map index

def withoutValue (valno : Nat) (map : Nat → Option Nat) (index : Nat) : Option Nat :=
  if map index = some valno then none else map index

theorem holds_of_pieces (pieces : List LiveSegment) {finish : Nat}
    (normal : WellFormed (front ++ segment :: back)) (tidy : WellFormed pieces)
    (starts : segment.start ≤ start) (ends : finish ≤ segment.finish)
    (inside : ∀ piece ∈ pieces, segment.start ≤ piece.start ∧ piece.finish ≤ segment.finish ∧
      piece.value = segment.value)
    (covers : ∀ index, segment.Contains index →
    ((∃ piece ∈ pieces, piece.Contains index) ↔ ¬ (start ≤ index ∧ index < finish))) :
    Holds (front ++ (pieces ++ back))
      (withoutSpan start finish (valueAt (front ++ segment :: back))) := by
  obtain ⟨before, behind⟩ := apart_of_normal (show WellFormed (front ++ ([segment] ++ back)) from normal)
  obtain ⟨normalFront, ordered, across⟩ := wellFormed_append.mp normal
  obtain ⟨_, _, normalBack⟩ := wellFormed_cons.mp ordered
  have ahead : ∀ left ∈ front, ∀ piece ∈ pieces, Apart left piece := by
    intro left member piece present
    have gap := before left member segment (by simp)
    obtain ⟨starts, _, same⟩ := inside piece present
    refine ⟨Nat.le_trans gap.1 starts, fun touching => ?_⟩
    rw [same]
    exact gap.2 (by have early := gap.1; omega)
  have onward : ∀ piece ∈ pieces, ∀ right ∈ back, Apart piece right := by
    intro piece present right member
    have gap := behind segment (by simp) right member
    obtain ⟨_, ends, same⟩ := inside piece present
    refine ⟨Nat.le_trans ends gap.1, fun touching => ?_⟩
    rw [same]
    exact gap.2 (by have early := gap.1; omega)
  refine ⟨?_, fun index => ?_⟩
  · refine wellFormed_append.mpr ⟨normalFront, wellFormed_append.mpr ⟨tidy, normalBack, onward⟩, ?_⟩
    intro left member right present
    rcases mem_append.mp present with inPieces | inBack
    · exact ahead left member right inPieces
    · exact across left member right (mem_cons_of_mem segment inBack)
  unfold withoutSpan
  rw [valueAt_append, valueAt_append]
  by_cases held : segment.Contains index
  · have gapFront := valueAt_front (fun left member => before left member segment (by simp)) held
    have gapBack := valueAt_back (fun right member => behind segment (by simp) right member) held
    rw [gapFront, gapBack, Option.none_or, Option.or_none, normal.valueAt_eq (by simp) held]
    by_cases within : start ≤ index ∧ index < finish
    · rw [if_pos within]
      refine valueAt_eq_none_iff.mpr fun piece present also => ?_
      exact (covers index held).mp ⟨piece, present, also⟩ within
    · rw [if_neg within]
      obtain ⟨piece, present, also⟩ := (covers index held).mpr within
      rw [tidy.valueAt_eq present also, (inside piece present).2.2]
  · have gapPieces : valueAt pieces index = none := by
      refine valueAt_eq_none_iff.mpr fun piece present also => held ?_
      obtain ⟨starts, ends, _⟩ := inside piece present
      exact ⟨Nat.le_trans starts also.1, Nat.lt_of_lt_of_le also.2 ends⟩
    have outside : ¬ (start ≤ index ∧ index < finish) := by
      intro within
      exact held ⟨Nat.le_trans starts within.1, Nat.lt_of_lt_of_le within.2 ends⟩
    rw [gapPieces, Option.none_or, if_neg outside, valueAt_append, valueAt_cons, if_neg held]

theorem find_containing {finish : Nat} (normal : WellFormed segments) (span : start < finish)
    (held : ∃ segment ∈ segments, segment.start ≤ start ∧ finish ≤ segment.finish) :
    ∃ front segment back, segments = front ++ segment :: back ∧ find segments start = front.length ∧
      segment.start ≤ start ∧ finish ≤ segment.finish := by
  obtain ⟨front, rest, rfl, found, early, late⟩ := (find_partitioned normal.inOrder start).split
  obtain ⟨segment, member, starts, ends⟩ := held
  have after : segment ∈ rest := by
    rcases mem_append.mp member with inFront | inRest
    · refine absurd ?_ (early segment inFront)
      unfold endsAfter
      omega
    · exact inRest
  cases rest with
  | nil => cases after
  | cons next later =>
      refine ⟨front, next, later, rfl, found.symm, ?_⟩
      rcases mem_cons.mp after with rfl | deeper
      · exact ⟨starts, ends⟩
      · obtain ⟨_, ordered, _⟩ := wellFormed_append.mp normal
        obtain ⟨_, apart, _⟩ := wellFormed_cons.mp ordered
        have gap := (apart segment deeper).1
        have reaches : start < next.finish := late next mem_cons_self
        omega

theorem markValNoForDeletion_frame (valno : Nat) (range : LiveRange) :
    ∃ valnos allocated, markValNoForDeletion valno range =
      { range with valnos := valnos, allocated := allocated } ∧
        allocated.length = range.allocated.length := by
  unfold markValNoForDeletion
  split
  · exact ⟨_, _, rfl, rfl⟩
  · exact ⟨_, _, rfl, length_set⟩

theorem removeSegment_holds {finish : Nat} (removeDeadValNo : Bool)
    (normal : WellFormed range.segments) (span : start < finish)
    (held : ∃ segment ∈ range.segments, segment.start ≤ start ∧ finish ≤ segment.finish) :
    ∃ segments valnos allocated,
      removeSegment start finish removeDeadValNo range = some
        { range with segments := segments, valnos := valnos, allocated := allocated } ∧
      allocated.length = range.allocated.length ∧
      Holds segments (withoutSpan start finish (valueAt range.segments)) := by
  obtain ⟨front, segment, back, shape, found, starts, ends⟩ := find_containing normal span held
  have here : range.segments[front.length]? = some segment := by
    rw [shape, getElem?_append_right (Nat.le_refl _), Nat.sub_self]
    rfl
  have taken : range.segments.take front.length = front := by
    rw [shape, take_left]
  have dropped : range.segments.drop (front.length + 1) = back := by
    rw [shape]
    simp
  rw [shape] at normal
  unfold removeSegment
  simp only [found, here, taken, dropped]
  rw [shape]
  by_cases atStart : segment.start = start
  · rw [if_pos atStart]
    by_cases atEnd : segment.finish = finish
    · rw [if_pos atEnd]
      have holds := holds_of_pieces [] normal trivial starts ends (fun _ absent => by cases absent)
        (fun index inside => by simp only [Segment.Contains] at inside; simp; omega)
      split
      · obtain ⟨valnos, allocated, marked, long⟩ := markValNoForDeletion_frame segment.value range
        rw [marked]
        exact ⟨front ++ back, valnos, allocated, rfl, long, holds⟩
      · exact ⟨front ++ back, _, _, rfl, rfl, holds⟩
    · rw [if_neg atEnd]
      refine ⟨_, _, _, rfl, rfl,
        holds_of_pieces [{ segment with start := finish }] normal ?_ starts ends ?_ ?_⟩
      · change finish < segment.finish
        omega
      · simp only [mem_singleton, forall_eq]
        exact ⟨by omega, Nat.le_refl _, trivial⟩
      · intro index inside
        simp only [Segment.Contains, mem_singleton, exists_eq_left] at inside ⊢
        omega
  · rw [if_neg atStart]
    by_cases atEnd : segment.finish = finish
    · rw [if_pos atEnd]
      refine ⟨_, _, _, rfl, rfl,
        holds_of_pieces [{ segment with finish := start }] normal ?_ starts ends ?_ ?_⟩
      · change segment.start < start
        omega
      · simp only [mem_singleton, forall_eq]
        exact ⟨Nat.le_refl _, by omega, trivial⟩
      · intro index inside
        simp only [Segment.Contains, mem_singleton, exists_eq_left] at inside ⊢
        omega
    · rw [if_neg atEnd]
      refine ⟨_, _, _, rfl, rfl, holds_of_pieces
        [{ segment with finish := start }, ⟨finish, segment.finish, segment.value⟩] normal ?_ starts
        ends ?_ ?_⟩
      · refine ⟨?_, ⟨Nat.le_of_lt span, fun touching => absurd touching (Nat.ne_of_lt span)⟩, ?_⟩
        · change segment.start < start
          omega
        · change finish < segment.finish
          omega
      · simp only [mem_cons, not_mem_nil, or_false, forall_eq_or_imp, forall_eq]
        exact ⟨⟨Nat.le_refl _, by omega, trivial⟩, by omega, Nat.le_refl _, trivial⟩
      · intro index inside
        simp only [Segment.Contains, mem_cons, not_mem_nil, or_false,
          exists_eq_or_imp, exists_eq_left] at inside ⊢
        omega

/-! ### Merging two values -/

def renamed (gone kept valno : Nat) : Nat := if valno = gone then kept else valno

/-- Neighbours that are renamed to one value, and the segment they become. -/
structure Fused (gone kept : Nat) (middle : List LiveSegment) (fused : LiveSegment) : Prop where
  filled : fused.start < fused.finish
  value : fused.value = kept
  values : ∀ other ∈ middle, renamed gone kept other.value = kept
  covers : ∀ index, fused.Contains index ↔ ∃ other ∈ middle, other.Contains index

theorem fused_holds {fused : LiveSegment} (distinct : gone ≠ kept)
    (normal : WellFormed (front ++ (middle ++ back))) (fuses : Fused gone kept middle fused)
    (before : ∀ left ∈ front, Apart left fused) (behind : ∀ right ∈ back, Apart fused right) :
    WellFormed (front ++ fused :: back) ∧ ∀ index,
      (valueAt (front ++ fused :: back) index).map (renamed gone kept) =
        (valueAt (front ++ (middle ++ back)) index).map (renamed gone kept) := by
  refine ⟨wellFormed_insert normal.remove fuses.filled before behind, fun index => ?_⟩
  refine valueAt_replace (renamed gone kept) before (fun other member => ?_) (fuses.covers index)
  rw [fuses.values other member, fuses.value, renamed, if_neg distinct.symm]

theorem contains_of_touching (left right : LiveSegment) (filledLeft : left.start < left.finish)
    (filledRight : right.start < right.finish) (touches : left.finish = right.start) (value index : Nat) :
    Segment.Contains ⟨left.start, right.finish, value⟩ index ↔
      left.Contains index ∨ right.Contains index := by
  simp only [Segment.Contains]
  omega

/-- The step back fuses the segment with the one before it where that touches
and has the surviving value. -/
theorem mergeBack_fused {done earlier rest : List LiveSegment} {current : LiveSegment}
    (normal : WellFormed (done.reverse ++ segment :: rest)) (isGone : segment.value = gone)
    (stepped : mergeBack kept done segment = (earlier, current)) :
    ∃ middle, done.reverse ++ segment :: rest = earlier.reverse ++ (middle ++ rest) ∧
      Fused gone kept middle { current with value := kept } ∧ current.finish = segment.finish ∧
      (∀ left ∈ earlier.reverse, Apart left { current with value := kept }) ∧
      ∀ other ∈ earlier, other ∈ done := by
  obtain ⟨normalDone, ordered, across⟩ := wellFormed_append.mp normal
  obtain ⟨filled, _, _⟩ := wellFormed_cons.mp ordered
  have renames : ∀ other ∈ [segment], renamed gone kept other.value = kept := by
    intro other member
    rw [mem_singleton.mp member]
    exact if_pos isGone
  have alone : Fused gone kept [segment] { segment with value := kept } :=
    ⟨filled, rfl, renames, fun index => by simp [Segment.Contains]⟩
  cases done with
  | nil =>
      cases stepped
      exact ⟨[segment], rfl, alone, rfl, (fun _ absent => by cases absent), fun _ member => member⟩
  | cons before sooner =>
      have gap := across before (by simp) segment mem_cons_self
      rw [reverse_cons] at normalDone ⊢
      obtain ⟨_, single, ahead⟩ := wellFormed_append.mp normalDone
      unfold mergeBack at stepped
      by_cases touches : before.value = kept ∧ before.finish = segment.start
      · simp only [if_pos touches] at stepped
        cases stepped
        refine ⟨[before, segment], by simp, ⟨?_, rfl, ?_, ?_⟩, rfl, ?_, ?_⟩
        · change before.start < segment.finish
          have short : before.start < before.finish := single
          omega
        · intro other member
          rcases mem_cons.mp member with rfl | second
          · unfold renamed
            split
            · rfl
            · exact touches.1
          · exact renames other second
        · intro index
          rw [contains_of_touching before segment single filled touches.2]
          simp
        · intro left member
          have far := ahead left member before mem_cons_self
          exact ⟨far.1, fun same => touches.1 ▸ far.2 same⟩
        · exact fun other member => mem_cons_of_mem before member
      · simp only [if_neg touches] at stepped
        cases stepped
        refine ⟨[segment], by simp, alone, rfl, ?_, fun _ member => member⟩
        have near : Apart before { segment with value := kept } :=
          ⟨gap.1, fun same equal => touches ⟨equal, same⟩⟩
        intro left member
        rw [reverse_cons] at member
        rcases mem_append.mp member with deeper | last
        · exact (ahead left deeper before mem_cons_self).trans single near
        · rw [mem_singleton.mp last]
          exact near

theorem holds_of_clean (normal : WellFormed segments)
    (clean : ∀ other ∈ segments, other.value ≠ gone) :
    Holds segments (fun index => (valueAt segments index).map (renamed gone kept)) := by
  refine ⟨normal, fun index => ?_⟩
  cases found : valueAt segments index with
  | none => rfl
  | some value =>
      obtain ⟨other, member, _, rfl⟩ := exists_of_valueAt found
      rw [Option.map_some, renamed, if_neg (clean other member)]

/-- The loop leaves a list in normal form whose map has the values renamed: the
list so far is in normal form throughout, and its renamed map does not change. -/
theorem mergeLoop_holds (distinct : gone ≠ kept) (done rest : List LiveSegment)
    (normal : WellFormed (done.reverse ++ rest)) (clean : ∀ other ∈ done, other.value ≠ gone) :
    Holds (mergeLoop gone kept done rest)
      (fun index => (valueAt (done.reverse ++ rest) index).map (renamed gone kept)) := by
  have cleanAfter : ∀ {earlier : List LiveSegment} {fused : LiveSegment}, fused.value = kept →
      (∀ other ∈ earlier, other.value ≠ gone) →
      ∀ other ∈ fused :: earlier, other.value ≠ gone := by
    intro earlier fused value before other member
    rcases mem_cons.mp member with rfl | deeper
    · rw [value]
      exact distinct.symm
    · exact before other deeper
  induction done, rest using mergeLoop.induct gone kept with
  | case1 done =>
      rw [append_nil] at normal ⊢
      rw [mergeLoop]
      exact holds_of_clean normal fun other member => clean other (mem_reverse.mp member)
  | case2 done segment stays =>
      rw [mergeLoop, if_pos stays, ← reverse_cons]
      rw [← reverse_cons] at normal
      refine holds_of_clean normal fun other member => ?_
      rcases mem_cons.mp (mem_reverse.mp member) with rfl | deeper
      · exact stays
      · exact clean other deeper
  | case3 done segment goes earlier current stepped =>
      obtain ⟨middle, shape, fuses, _, before, kept_of⟩ :=
        mergeBack_fused normal (not_not.mp goes) stepped
      rw [shape] at normal
      obtain ⟨tidy, same⟩ := fused_holds distinct normal fuses before (fun _ absent => by cases absent)
      have result : mergeLoop gone kept done [segment] =
          earlier.reverse ++ [{ current with value := kept }] := by
        rw [mergeLoop, if_neg goes, stepped]
        simp
      have cleaned : ∀ other ∈ earlier.reverse ++ [{ current with value := kept }],
          other.value ≠ gone := by
        intro other member
        refine cleanAfter fuses.value (fun other also => clean other (kept_of other also)) other ?_
        simpa [or_comm] using member
      refine ⟨result ▸ tidy, fun index => ?_⟩
      rw [result, (holds_of_clean tidy cleaned).values, same, shape]
  | case4 done segment next later stays ih =>
      rw [mergeLoop, if_pos stays]
      have shape : done.reverse ++ segment :: next :: later = (segment :: done).reverse ++ next :: later := by
        simp
      rw [shape] at normal ⊢
      refine ih normal fun other member => ?_
      rcases mem_cons.mp member with rfl | deeper
      · exact stays
      · exact clean other deeper
  | case5 done segment next later goes earlier current stepped touches ih =>
      obtain ⟨middle, shape, fuses, ends, before, kept_of⟩ :=
        mergeBack_fused normal (not_not.mp goes) stepped
      obtain ⟨_, ordered, _⟩ := wellFormed_append.mp normal
      obtain ⟨_, _, following⟩ := wellFormed_cons.mp ordered
      obtain ⟨nextFilled, nextApart, _⟩ := wellFormed_cons.mp following
      have wider : Fused gone kept (middle ++ [next])
          { current with finish := next.finish, value := kept } := by
        have filled : current.start < current.finish := fuses.filled
        refine ⟨?_, rfl, ?_, fun index => ?_⟩
        · change current.start < next.finish
          omega
        · intro other member
          rcases mem_append.mp member with inside | last
          · exact fuses.values other inside
          · rw [mem_singleton.mp last, touches.2, renamed, if_neg distinct.symm]
        · rw [contains_of_touching { current with value := kept } next fuses.filled nextFilled
            touches.1.symm kept index, fuses.covers index]
          simp [or_and_right, exists_or]
      have longer : done.reverse ++ segment :: next :: later =
          earlier.reverse ++ (middle ++ [next] ++ later) := by
        rw [shape]
        simp
      rw [longer] at normal
      obtain ⟨tidy, same⟩ := fused_holds distinct normal wider
        (fun left member => ⟨(before left member).1, (before left member).2⟩)
        (fun right member => ⟨(nextApart right member).1, fun meets =>
          touches.2 ▸ (nextApart right member).2 meets⟩)
      have result : mergeLoop gone kept done (segment :: next :: later) =
          mergeLoop gone kept ({ current with finish := next.finish, value := kept } :: earlier)
            later := by
        rw [mergeLoop, if_neg goes, stepped]
        simp only [if_pos touches]
      have moved : ({ current with finish := next.finish, value := kept } :: earlier).reverse ++ later =
          earlier.reverse ++ { current with finish := next.finish, value := kept } :: later := by
        simp
      have holds := ih (moved ▸ tidy)
        (cleanAfter rfl fun other member => clean other (kept_of other member))
      refine ⟨result ▸ holds.normal, fun index => ?_⟩
      rw [result, holds.values, moved, same, longer]
  | case6 done segment next later goes earlier current stepped apart ih =>
      obtain ⟨middle, shape, fuses, ends, before, kept_of⟩ :=
        mergeBack_fused normal (not_not.mp goes) stepped
      obtain ⟨_, ordered, _⟩ := wellFormed_append.mp normal
      obtain ⟨_, gaps, following⟩ := wellFormed_cons.mp ordered
      obtain ⟨nextFilled, nextApart, _⟩ := wellFormed_cons.mp following
      have near : Apart { current with value := kept } next := by
        have gap := (gaps next mem_cons_self).1
        refine ⟨?_, fun meets equal => apart ⟨meets.symm, equal.symm⟩⟩
        change current.finish ≤ next.start
        omega
      rw [shape] at normal
      obtain ⟨tidy, same⟩ := fused_holds distinct normal fuses before (fun right member => by
        rcases mem_cons.mp member with rfl | deeper
        · exact near
        · exact near.trans nextFilled (nextApart right deeper))
      have result : mergeLoop gone kept done (segment :: next :: later) =
          mergeLoop gone kept ({ current with value := kept } :: earlier) (next :: later) := by
        rw [mergeLoop, if_neg goes, stepped]
        simp only [if_neg apart]
      have moved : ({ current with value := kept } :: earlier).reverse ++ next :: later =
          earlier.reverse ++ { current with value := kept } :: next :: later := by
        simp
      have holds := ih (moved ▸ tidy)
        (cleanAfter rfl fun other member => clean other (kept_of other member))
      refine ⟨result ▸ holds.normal, fun index => ?_⟩
      rw [result, holds.values, moved, same, shape]

end EvmBackend.LiveRange
