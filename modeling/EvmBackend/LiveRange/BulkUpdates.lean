/-
The bulk updater against plain additions: every segment added changes the map
of the areas as an addition to the range would, and a list in normal form is
determined by its map.
-/

import EvmBackend.LiveRange.Areas

namespace EvmBackend.LiveRangeUpdater

open Segments LiveRange List

/-! ### Coalescing -/

variable {updater : LiveRangeUpdater} {before gap behind merged taken rest : List LiveSegment}
  {added wide back : LiveSegment}

theorem coalescable_eq_false_iff {left right : LiveSegment} :
    coalescable left right = false ↔ Apart left right := by
  unfold coalescable Apart
  split
  · rename_i touches
    simp [touches]
  · rename_i differ
    rw [decide_eq_false_iff_not, Nat.not_lt]
    exact ⟨fun early => ⟨early, fun same => absurd same differ⟩, And.left⟩

theorem reaches_of_coalescable {left right : LiveSegment} (joins : coalescable left right = true) :
    right.start ≤ left.finish ∧ (left.finish = right.start → left.value = right.value) := by
  unfold coalescable at joins
  split at joins
  · rename_i touches
    exact ⟨Nat.le_of_eq touches.symm, fun _ => eq_of_beq joins⟩
  · rename_i differ
    exact ⟨Nat.le_of_lt (of_decide_eq_true joins), fun same => absurd same differ⟩

/-- The segment covers the one added and those taken into it, all of one value. -/
structure Swallows (added : LiveSegment) (taken : List LiveSegment) (wide : LiveSegment) : Prop where
  value : wide.value = added.value
  values : ∀ other ∈ taken, other.value = added.value
  covers : ∀ index, wide.Contains index ↔
    added.Contains index ∨ ∃ other ∈ taken, other.Contains index
  lowest : wide.start = added.start ∨ ∃ other ∈ taken, wide.start = other.start

theorem swallows_nothing (added : LiveSegment) : Swallows added [] added :=
  ⟨rfl, fun _ absent => (by cases absent), fun _ => by simp, .inl rfl⟩

theorem Swallows.around (swallows : Swallows added taken wide) (filled : added.start < added.finish) :
    wide.start ≤ added.start ∧ added.start < wide.finish :=
  (swallows.covers added.start).mpr (.inl ⟨Nat.le_refl _, filled⟩)

theorem Swallows.above {next : LiveSegment} (swallows : Swallows added taken wide)
    (value : next.value = added.value) (starts : wide.start ≤ next.start)
    (reaches : next.start ≤ wide.finish) :
    Swallows added (taken ++ [next]) { wide with finish := max wide.finish next.finish } := by
  refine ⟨swallows.value, fun other member => ?_, fun index => ?_, ?_⟩
  · rcases mem_append.mp member with inside | last
    · exact swallows.values other inside
    · rw [mem_singleton.mp last]
      exact value
  · have union : ({ wide with finish := max wide.finish next.finish } : LiveSegment).Contains index ↔
        wide.Contains index ∨ next.Contains index := by
      unfold Segment.Contains
      simp only
      omega
    rw [union, swallows.covers]
    simp [or_and_right, exists_or, or_assoc]
  · refine swallows.lowest.imp id ?_
    rintro ⟨other, member, same⟩
    exact ⟨other, mem_append_left _ member, same⟩

theorem Swallows.below (swallows : Swallows added taken wide)
    (value : back.value = added.value) (starts : back.start ≤ wide.start)
    (reaches : wide.start ≤ back.finish) :
    Swallows added (back :: taken)
      { wide with start := back.start, finish := max back.finish wide.finish } := by
  refine ⟨swallows.value, fun other member => ?_, fun index => ?_, .inr ⟨back, mem_cons_self, rfl⟩⟩
  · rcases mem_cons.mp member with rfl | deeper
    · exact value
    · exact swallows.values other deeper
  · have union : ({ wide with start := back.start, finish := max back.finish wide.finish } :
        LiveSegment).Contains index ↔ wide.Contains index ∨ back.Contains index := by
      unfold Segment.Contains
      simp only
      omega
    rw [union, swallows.covers]
    simp only [mem_cons, or_and_right, exists_or, exists_eq_left]
    rw [or_assoc]
    exact or_congr Iff.rfl or_comm

theorem apart_of_both {one two right : LiveSegment} {start value : Nat} (apartOne : Apart one right)
    (apartTwo : Apart two right) (valueOne : one.value = value) (valueTwo : two.value = value) :
    Apart ⟨start, max one.finish two.finish, value⟩ right := by
  refine ⟨Nat.max_le.mpr ⟨apartOne.1, apartTwo.1⟩, fun touches => ?_⟩
  rcases Nat.le_total one.finish two.finish with less | more
  · rw [← valueTwo]
    exact apartTwo.2 ((Nat.max_eq_right less).symm.trans touches)
  · rw [← valueOne]
    exact apartOne.2 ((Nat.max_eq_left more).symm.trans touches)

theorem Swallows.holds {front : List LiveSegment} (swallows : Swallows added taken wide)
    (filled : added.start < added.finish) (normal : WellFormed (front ++ (taken ++ rest)))
    (ahead : ∀ left ∈ front, Apart left wide) (after : ∀ right ∈ rest, Apart wide right) :
    Holds (front ++ wide :: rest) (withSegment added (valueAt (front ++ (taken ++ rest)))) := by
  have around := swallows.around filled
  refine ⟨wellFormed_insert normal.remove (by omega) ahead after, fun index => ?_⟩
  exact valueAt_union added ahead swallows.value swallows.values (swallows.covers index)

theorem Swallows.value_of_overlap {next : LiveSegment} (swallows : Swallows added taken wide)
    (apart : ∀ other ∈ taken, Apart other next) (compatible : Compatible added [next])
    (ends : added.start < next.finish) (filled : next.start < next.finish)
    (starts : wide.start ≤ next.start) (reaches : next.start < wide.finish) :
    next.value = added.value := by
  rcases (swallows.covers next.start).mp ⟨starts, reaches⟩ with inside | ⟨other, member, inside⟩
  · exact compatible next mem_cons_self inside.2 ends
  · exact absurd inside ((apart other member).not_contains_left ⟨Nat.le_refl _, filled⟩)

theorem coalesceRead_spec (segments : List LiveSegment) (fuel : Nat) :
    ∀ (behind taken : List LiveSegment) (wide : LiveSegment) (readI : Nat),
      segments.drop readI = behind → behind.length ≤ fuel → WellFormed (taken ++ behind) →
      Swallows added taken wide → Compatible added behind →
      (∀ next ∈ behind, wide.start ≤ next.start ∧ added.start < next.finish) →
      ∃ more rest wider, behind = more ++ rest ∧
        coalesceRead segments fuel wide readI = (wider, readI + more.length) ∧
        Swallows added (taken ++ more) wider ∧ ∀ right ∈ rest, Apart wider right := by
  induction fuel with
  | zero =>
      intro behind taken wide readI _ short _ swallows _ _
      obtain rfl := length_eq_zero_iff.mp (Nat.le_zero.mp short)
      refine ⟨[], [], wide, rfl, rfl, ?_, fun _ absent => by cases absent⟩
      rwa [append_nil]
  | succ fuel ih =>
      intro behind taken wide readI here short normal swallows compatible ahead
      rw [coalesceRead, ← head?_drop, here]
      cases behind with
      | nil =>
          refine ⟨[], [], wide, rfl, rfl, ?_, fun _ absent => by cases absent⟩
          rwa [append_nil]
      | cons next later =>
          obtain ⟨_, normalBehind, across⟩ := wellFormed_append.mp normal
          obtain ⟨filledNext, apartNext, _⟩ := wellFormed_cons.mp normalBehind
          obtain ⟨starts, ends⟩ := ahead next mem_cons_self
          simp only [head?_cons]
          split
          · rename_i joins
            obtain ⟨reaches, touching⟩ := reaches_of_coalescable joins
            have value : next.value = added.value := by
              rcases Nat.eq_or_lt_of_le reaches with same | less
              · rw [← touching same.symm, swallows.value]
              · refine swallows.value_of_overlap
                  (fun other member => across other member next mem_cons_self)
                  (fun other member => ?_) ends filledNext starts less
                rw [mem_singleton.mp member]
                exact compatible next mem_cons_self
            obtain ⟨more, rest, wider, shape, ran, wholly, after⟩ := ih later (taken ++ [next])
              { wide with finish := max wide.finish next.finish } (readI + 1)
              (by rw [← drop_drop, here, drop_one, tail_cons])
              (Nat.le_of_succ_le_succ short) (by rwa [← append_cons])
              (swallows.above value starts reaches)
              (fun other member => compatible other (mem_cons_of_mem next member))
              (fun other member => ahead other (mem_cons_of_mem next member))
            refine ⟨next :: more, rest, wider, by rw [shape, List.cons_append], ?_, ?_, after⟩
            · rw [ran, length_cons]
              congr 1
              omega
            · rwa [append_cons]
          · rename_i separate
            have near := coalescable_eq_false_iff.mp (Bool.eq_false_iff.mpr separate)
            refine ⟨[], next :: later, wide, rfl, rfl, by rwa [append_nil], fun right member => ?_⟩
            rcases mem_cons.mp member with rfl | deeper
            · exact near
            · exact near.trans filledNext (apartNext right deeper)

/-- A segment before the gap or spilled that is reached is the last of the list
so far, and has the value. -/
theorem last_of_coalescable (filled : added.start < added.finish)
    (normal : WellFormed (merged ++ (taken ++ rest))) (swallows : Swallows added taken wide)
    (early : ∀ segment ∈ merged, segment.start ≤ added.start) (compatible : Compatible added merged)
    (member : back ∈ merged) (joins : coalescable back wide = true) :
    back.value = added.value ∧ back.start ≤ wide.start ∧ wide.start ≤ back.finish ∧
      ∃ front, merged = front ++ [back] := by
  obtain ⟨normalMerged, _, across⟩ := wellFormed_append.mp normal
  obtain ⟨reaches, touching⟩ := reaches_of_coalescable joins
  have start : wide.start = added.start := by
    rcases swallows.lowest with same | ⟨other, inTaken, same⟩
    · exact same
    · obtain ⟨gap, differ⟩ := across back member other (mem_append_left rest inTaken)
      have touches : back.finish = wide.start := by omega
      have value : back.value = other.value := by
        rw [touching touches, swallows.value, swallows.values other inTaken]
      exact absurd value (differ (touches.trans same))
  have startBack := early back member
  have value : back.value = added.value := by
    rcases Nat.eq_or_lt_of_le reaches with same | less
    · rw [touching same.symm, swallows.value]
    · exact compatible back member (by omega) (by omega)
  refine ⟨value, by omega, reaches, ?_⟩
  obtain ⟨front, later, rfl⟩ := append_of_mem member
  cases later with
  | nil => exact ⟨front, rfl⟩
  | cons next more =>
      -- A later segment would start where the one added does, with another value.
      have inNext : next ∈ front ++ back :: next :: more := by simp
      obtain ⟨_, ordered, _⟩ := wellFormed_append.mp normalMerged
      obtain ⟨_, apart, _⟩ := wellFormed_cons.mp ordered
      obtain ⟨gap, differ⟩ := apart next mem_cons_self
      have startNext := early next inNext
      have filledNext := normalMerged.filled inNext
      have valueNext := compatible next inNext (by omega) (by omega)
      exact absurd (value.trans valueNext.symm) (differ (by omega))

/-! ### Putting the segment somewhere -/

def Added (added : LiveSegment) (updater next : LiveRangeUpdater) (map : Nat → Option Nat) : Prop :=
  ∃ newBefore newGap newBehind newMerged, SameRange updater next ∧
    Coupled next newBefore newGap newBehind newMerged added.start ∧
    ∀ index, valueAt (newMerged ++ newBehind) index = withSegment added map index

theorem perm_of_last {front more others : List LiveSegment} {last : LiveSegment}
    (perm : (front ++ [last]).Perm (more ++ [last] ++ others)) : front.Perm (more ++ others) := by
  have moved : (more ++ [last] ++ others).Perm (last :: (more ++ others)) := by
    rw [List.append_assoc]
    exact perm_middle
  have first : (front ++ [last]).Perm (last :: front) := perm_append_comm
  exact (first.symm.trans (perm.trans moved)).cons_inv

theorem wellFormed_concat {front : List LiveSegment} (normal : WellFormed front)
    (filled : wide.start < wide.finish) (ahead : ∀ left ∈ front, Apart left wide) :
    WellFormed (front ++ [wide]) := by
  refine wellFormed_append.mpr ⟨normal, filled, fun left member right also => ?_⟩
  rw [mem_singleton.mp also]
  exact ahead left member

theorem insertApart_added (coupled : Coupled updater before gap rest merged added.start)
    (filled : added.start < added.finish) (normal : WellFormed (merged ++ (taken ++ rest)))
    (swallows : Swallows added taken wide) (after : ∀ right ∈ rest, Apart wide right)
    (ahead : ∀ left ∈ merged, Apart left wide) :
    Added added updater (insertApart wide updater) (valueAt (merged ++ (taken ++ rest))) := by
  have around := swallows.around filled
  have filledWide : wide.start < wide.finish := by omega
  obtain ⟨tidy, map⟩ := swallows.holds filled normal ahead after
  rw [append_cons] at tidy
  have aheadBefore : ∀ left ∈ before, Apart left wide :=
    fun left member => ahead left (coupled.mem_of_before member)
  have aheadSpills : ∀ left ∈ updater.spills, Apart left wide :=
    fun left member => ahead left (coupled.mem_of_spills member)
  have early : ∀ segment ∈ merged ++ [wide], segment.start ≤ added.start := by
    intro segment member
    rcases mem_append.mp member with inside | last
    · exact coupled.early segment inside
    · rw [mem_singleton.mp last]
      exact around.1
  have values : ∀ index, valueAt (merged ++ [wide] ++ rest) index =
      withSegment added (valueAt (merged ++ (taken ++ rest))) index := by
    intro index
    rw [← append_cons]
    exact map index
  have permBefore : (merged ++ [wide]).Perm (before ++ [wide] ++ updater.spills) := by
    refine (coupled.perm.append_right [wide]).trans ?_
    rw [List.append_assoc, List.append_assoc]
    exact perm_append_comm.append_left before
  have length := congrArg List.length coupled.shape
  rw [length_append, length_append] at length
  unfold insertApart
  split
  · rename_i room
    obtain ⟨old, less, rfl⟩ : ∃ old less, gap = old :: less := by
      cases gap with
      | nil =>
          rw [coupled.writeI, coupled.readI] at room
          exact absurd rfl room
      | cons old less => exact ⟨old, less, rfl⟩
    refine ⟨before ++ [wide], less, rest, merged ++ [wide], ⟨rfl, rfl⟩, ⟨?_, ?_, ?_, permBefore, tidy,
      wellFormed_concat coupled.normalBefore filledWide aheadBefore, coupled.normalSpills, early⟩, values⟩
    · change updater.segments.set updater.writeI wide = _
      rw [coupled.shape, coupled.writeI, List.cons_append, set_length_append, append_cons]
    · change updater.writeI + 1 = _
      rw [coupled.writeI, length_append, length_singleton]
    · change updater.readI = _
      rw [coupled.readI, length_append, length_cons, length_singleton]
      omega
  · rename_i closed
    have noGap : gap.length = 0 := by
      have same := not_not.mp closed
      rw [coupled.writeI, coupled.readI] at same
      omega
    obtain rfl := length_eq_zero_iff.mp noGap
    split
    · rename_i atEnd
      rw [coupled.writeI] at atEnd
      obtain rfl := length_eq_zero_iff.mp (by omega : rest.length = 0)
      refine ⟨before ++ [wide], [], [], merged ++ [wide], ⟨rfl, rfl⟩, ⟨?_, ?_, ?_, permBefore, tidy,
        wellFormed_concat coupled.normalBefore filledWide aheadBefore, coupled.normalSpills, early⟩, values⟩
      · change updater.segments ++ [wide] = _
        rw [coupled.shape]
        simp
      · change updater.segments.length + 1 = _
        rw [← atEnd, length_append, length_singleton]
      · change updater.segments.length + 1 = _
        rw [← atEnd, length_append, length_singleton]
        rfl
    · refine ⟨before, [], rest, merged ++ [wide], ⟨rfl, rfl⟩, ⟨coupled.shape, coupled.writeI,
        coupled.readI, ?_, tidy, coupled.normalBefore,
        wellFormed_concat coupled.normalSpills filledWide aheadSpills, early⟩, values⟩
      change (merged ++ [wide]).Perm (before ++ (updater.spills ++ [wide]))
      rw [← List.append_assoc]
      exact coupled.perm.append_right [wide]

theorem insertBefore_added {fewer front : List LiveSegment} {last : LiveSegment}
    (coupled : Coupled updater (fewer ++ [last]) gap rest (front ++ [last]) added.start)
    (filled : added.start < added.finish) (normal : WellFormed (front ++ [last] ++ (taken ++ rest)))
    (swallows : Swallows added taken wide) (after : ∀ right ∈ rest, Apart wide right)
    (value : last.value = added.value) (starts : last.start ≤ wide.start)
    (reaches : wide.start ≤ last.finish) :
    Added added updater
      (updater.setSegments (updater.segments.set (updater.writeI - 1)
        { last with finish := max last.finish wide.finish }))
      (valueAt (front ++ [last] ++ (taken ++ rest))) := by
  have wider := swallows.below value starts reaches
  have same : ({ last with finish := max last.finish wide.finish } : LiveSegment) =
      { wide with start := last.start, finish := max last.finish wide.finish } := by
    rw [swallows.value, ← value]
  rw [← same] at wider
  have filledLast : last.start < max last.finish wide.finish := by
    have around : last.start ≤ added.start ∧ added.start < max last.finish wide.finish :=
      wider.around filled
    omega
  rw [← append_cons, ← List.cons_append] at normal
  obtain ⟨acrossLast, acrossRest⟩ := apart_of_normal normal
  have ahead : ∀ left ∈ front, Apart left { last with finish := max last.finish wide.finish } :=
    fun left member => acrossLast left member last mem_cons_self
  have later : ∀ right ∈ rest, Apart { last with finish := max last.finish wide.finish } right :=
    fun right member => apart_of_both (acrossRest last mem_cons_self right member)
      (after right member) rfl (swallows.value.trans value.symm)
  obtain ⟨tidy, map⟩ := wider.holds filled normal ahead later
  have perm := perm_of_last coupled.perm
  have aheadFewer : ∀ left ∈ fewer, Apart left { last with finish := max last.finish wide.finish } :=
    fun left member => ahead left (perm.mem_iff.mpr (mem_append_left _ member))
  refine ⟨fewer ++ [{ last with finish := max last.finish wide.finish }], gap, rest,
    front ++ [{ last with finish := max last.finish wide.finish }], ⟨rfl, rfl⟩,
    ⟨?_, ?_, ?_, ?_, ?_, ?_, coupled.normalSpills, ?_⟩, fun index => ?_⟩
  · change updater.segments.set (updater.writeI - 1) _ = _
    have place : updater.writeI - 1 = fewer.length := by
      rw [coupled.writeI, length_append, length_singleton, Nat.add_sub_cancel]
    rw [coupled.shape, place, ← append_cons, set_length_append, append_cons]
  · change updater.writeI = _
    rw [coupled.writeI, length_append, length_append]
    rfl
  · change updater.readI = _
    rw [coupled.readI, length_append, length_append]
    rfl
  · refine (perm.append_right _).trans ?_
    rw [List.append_assoc, List.append_assoc]
    exact perm_append_comm.append_left fewer
  · rw [← append_cons]
    exact tidy
  · exact wellFormed_concat (wellFormed_append.mp coupled.normalBefore).1 filledLast aheadFewer
  · intro segment member
    rcases mem_append.mp member with inside | isLast
    · exact coupled.early segment (mem_append_left _ inside)
    · rw [mem_singleton.mp isLast]
      exact coupled.early last (by simp)
  · rw [← append_cons, map index, ← append_cons, List.cons_append]

section

variable (coupled : Coupled updater before gap rest merged added.start)

include coupled

theorem coalescableBefore_eq :
    coalescableBefore wide updater = before.getLast?.filter fun last => coalescable last wide := by
  unfold coalescableBefore
  rcases before.eq_nil_or_concat with rfl | ⟨fewer, last, rfl⟩
  · rw [coupled.writeI]
    rfl
  · rw [concat_eq_append] at coupled ⊢
    have place : updater.writeI = fewer.length + 1 := by
      rw [coupled.writeI, length_append, length_singleton]
    have here : updater.segments[fewer.length]? = some last := by
      rw [coupled.shape, List.append_assoc, getElem?_append_right (Nat.le_refl _), Nat.sub_self]
      rfl
    rw [place]
    simp [here]

theorem insertSegment_added
    (filled : added.start < added.finish) (normal : WellFormed (merged ++ (taken ++ rest)))
    (swallows : Swallows added taken wide) (compatible : Compatible added merged)
    (after : ∀ right ∈ rest, Apart wide right) (spills : ∀ left ∈ updater.spills, Apart left wide) :
    Added added updater (insertSegment wide updater) (valueAt (merged ++ (taken ++ rest))) := by
  rw [insertSegment, coalescableBefore_eq coupled]
  cases found : before.getLast?.filter fun last => coalescable last wide with
  | some last =>
      obtain ⟨isLast, joins⟩ := Option.filter_eq_some_iff.mp found
      obtain ⟨fewer, rfl⟩ := getLast?_eq_some_iff.mp isLast
      have member : last ∈ merged := coupled.mem_of_before (by simp)
      obtain ⟨value, starts, reaches, front, rfl⟩ :=
        last_of_coalescable filled normal swallows coupled.early compatible member joins
      exact insertBefore_added coupled filled normal swallows after value starts reaches
  | none =>
      have aheadBefore : ∀ left ∈ before, Apart left wide := by
        refine coupled.normalBefore.apart_of_getLast fun last isLast => ?_
        rw [Option.mem_def.mp isLast] at found
        exact coalescable_eq_false_iff.mp (by simpa using found)
      refine insertApart_added coupled filled normal swallows after fun left member => ?_
      rcases mem_append.mp (coupled.perm.mem_iff.mp member) with inside | spilled
      · exact aheadBefore left inside
      · exact spills left spilled

theorem coalesceSpill_spec
    (filled : added.start < added.finish) (normal : WellFormed (merged ++ (taken ++ rest)))
    (swallows : Swallows added taken wide) (compatible : Compatible added merged)
    (after : ∀ right ∈ rest, Apart wide right) :
    ∃ widest spills fewer all, coalesceSpill wide updater.spills = (widest, spills) ∧
      Coupled { updater with spills := spills } before gap rest fewer added.start ∧
      merged ++ (taken ++ rest) = fewer ++ (all ++ rest) ∧ Swallows added all widest ∧
      (∀ segment ∈ fewer, segment ∈ merged) ∧ (∀ right ∈ rest, Apart widest right) ∧
      ∀ left ∈ spills, Apart left widest := by
  have kept : (∀ back ∈ updater.spills.getLast?, coalescable back wide = false) →
      Coupled { updater with spills := updater.spills } before gap rest merged added.start ∧
      ∀ left ∈ updater.spills, Apart left wide := by
    intro separate
    refine ⟨coupled, coupled.normalSpills.apart_of_getLast fun back last => ?_⟩
    exact coalescable_eq_false_iff.mp (separate back last)
  rw [coalesceSpill]
  cases found : updater.spills.getLast? with
  | none =>
      obtain ⟨same, apart⟩ := kept (by simp [found])
      exact ⟨wide, updater.spills, merged, taken, rfl, same, rfl, swallows, fun _ => id, after, apart⟩
  | some back =>
      simp only
      split
      · rename_i joins
        obtain ⟨others, shape⟩ := getLast?_eq_some_iff.mp found
        have member : back ∈ merged := coupled.mem_of_spills (by rw [shape]; simp)
        obtain ⟨value, starts, reaches, front, rfl⟩ :=
          last_of_coalescable filled normal swallows coupled.early compatible member joins
        have rearranged : front ++ [back] ++ (taken ++ rest) = front ++ (back :: taken ++ rest) := by simp
        rw [rearranged] at normal
        obtain ⟨acrossBack, acrossRest⟩ := apart_of_normal normal
        have same : back.value = wide.value := value.trans swallows.value.symm
        have ahead : ∀ left ∈ front, Apart left
            { wide with start := back.start, finish := max back.finish wide.finish } := by
          intro left inFront
          obtain ⟨gap, differ⟩ := acrossBack left inFront back mem_cons_self
          exact ⟨gap, fun touches => same ▸ differ touches⟩
        have perm := coupled.perm
        rw [shape, ← List.append_assoc] at perm
        have less : front.Perm (before ++ others) := by
          refine perm_of_last (perm.trans ?_)
          rw [List.append_assoc, List.append_assoc]
          exact perm_append_comm.append_left before
        have normalOthers : WellFormed others := by
          have whole := coupled.normalSpills
          rw [shape] at whole
          exact (wellFormed_append.mp whole).1
        refine ⟨_, others, front, back :: taken, ?_, ⟨coupled.shape, coupled.writeI, coupled.readI, less,
          ?_, coupled.normalBefore, normalOthers, ?_⟩, rearranged, swallows.below value starts reaches,
          ?_, ?_, ?_⟩
        · rw [shape, dropLast_concat]
        · exact normal.remove
        · exact fun segment inside => coupled.early segment (mem_append_left _ inside)
        · exact fun segment inside => mem_append_left _ inside
        · exact fun right inRest => apart_of_both (acrossRest back mem_cons_self right inRest)
            (after right inRest) same rfl
        · exact fun left inside => ahead left (less.mem_iff.mpr (mem_append_right before inside))
      · rename_i separate
        obtain ⟨same, apart⟩ := kept (by simpa [found] using separate)
        exact ⟨wide, updater.spills, merged, taken, rfl, same, rfl, swallows, fun _ => id, after, apart⟩

end

theorem coalesce_added (coupled : Coupled updater before gap behind merged added.start)
    (filled : added.start < added.finish) (normal : WellFormed (merged ++ (taken ++ behind)))
    (swallows : Swallows added taken wide) (compatible : Compatible added (merged ++ behind))
    (ahead : ∀ next ∈ behind, wide.start ≤ next.start ∧ added.start < next.finish) :
    Added added updater (coalesce wide updater) (valueAt (merged ++ (taken ++ behind))) := by
  have enough : behind.length ≤ updater.segments.length := by
    rw [coupled.shape, length_append, length_append]
    omega
  obtain ⟨more, rest, wider, rfl, ran, wholly, after⟩ := coalesceRead_spec updater.segments
    updater.segments.length behind taken wide updater.readI coupled.drop_readI enough
    (wellFormed_append.mp normal).2.1 swallows
    (fun other member => compatible other (mem_append_right merged member)) ahead
  rw [← List.append_assoc taken] at normal ⊢
  have passed : Coupled { updater with readI := updater.readI + more.length } before (gap ++ more) rest
      merged added.start := by
    refine ⟨?_, coupled.writeI, ?_, coupled.perm, coupled.normal.remove, coupled.normalBefore,
      coupled.normalSpills, coupled.early⟩
    · rw [List.append_assoc]
      exact coupled.shape
    · change updater.readI + more.length = _
      rw [coupled.readI, length_append, Nat.add_assoc]
  obtain ⟨widest, spills, fewer, all, spilled, remaining, shape, swallowed, within, later, apart⟩ :=
    coalesceSpill_spec passed filled normal wholly
      (fun other member => compatible other (mem_append_left _ member)) after
  rw [coalesce, ran]
  simp only
  rw [spilled, shape]
  rw [shape] at normal
  obtain ⟨newBefore, newGap, newBehind, newMerged, same, done, map⟩ :=
    insertSegment_added remaining filled normal swallowed
      (fun other member => compatible other (mem_append_left _ (within other member))) later apart
  exact ⟨newBefore, newGap, newBehind, newMerged, ⟨same.range, same.lastStart⟩, done, map⟩

theorem place_added (coupled : Coupled updater before gap behind merged added.start)
    (filled : added.start < added.finish) (compatible : Compatible added (merged ++ behind))
    (ends : ∀ next ∈ behind, added.start < next.finish) :
    Added added updater (place added updater) (valueAt (merged ++ behind)) := by
  rw [place, coupled.getElem?_readI]
  cases behind with
  | nil =>
      exact coalesce_added coupled filled coupled.normal (swallows_nothing added) compatible
        fun _ absent => by cases absent
  | cons next later =>
      obtain ⟨filledNext, apartNext, _⟩ := wellFormed_cons.mp coupled.normalBehind
      have endsNext := ends next mem_cons_self
      simp only [head?_cons]
      split
      · rename_i starts
        have value : next.value = added.value :=
          compatible next (by simp) (by omega) endsNext
        split
        · rename_i inside
          refine ⟨before, gap, next :: later, merged, ⟨rfl, rfl⟩, coupled, fun index => ?_⟩
          unfold withSegment
          split
          · rename_i contains
            have held : next.Contains index :=
              ⟨Nat.le_trans starts contains.1, Nat.lt_of_lt_of_le contains.2 inside⟩
            rw [coupled.normal.valueAt_eq (by simp) held, value]
          · rfl
        · have taken : Swallows added [next] { added with start := next.start } := by
            refine ⟨rfl, fun other member => ?_, fun index => ?_, .inr ⟨next, mem_cons_self, rfl⟩⟩
            · rw [mem_singleton.mp member]
              exact value
            · simp only [mem_singleton, exists_eq_left, Segment.Contains]
              omega
          have passed : Coupled { updater with readI := updater.readI + 1 } before (gap ++ [next]) later
              merged added.start := by
            have normal : WellFormed (merged ++ ([next] ++ later)) := coupled.normal
            refine ⟨?_, coupled.writeI, ?_, coupled.perm, normal.remove, coupled.normalBefore,
              coupled.normalSpills, coupled.early⟩
            · rw [List.append_assoc]
              exact coupled.shape
            · change updater.readI + 1 = _
              rw [coupled.readI, length_append, Nat.add_assoc]
              rfl
          obtain ⟨newBefore, newGap, newBehind, newMerged, same, done, map⟩ :=
            coalesce_added passed filled coupled.normal taken
              (fun other member => compatible other (by
                rcases mem_append.mp member with inside | deeper
                · exact mem_append_left _ inside
                · exact mem_append_right merged (mem_cons_of_mem next deeper)))
              (fun other member => ⟨by
                have gapNext := (apartNext other member).1
                change next.start ≤ other.start
                omega, ends other (mem_cons_of_mem next member)⟩)
          exact ⟨newBefore, newGap, newBehind, newMerged, ⟨same.range, same.lastStart⟩, done, map⟩
      · rename_i late
        refine coalesce_added coupled filled coupled.normal (swallows_nothing added) compatible ?_
        intro other member
        refine ⟨?_, ends other member⟩
        rcases mem_cons.mp member with rfl | deeper
        · omega
        · have gapNext := (apartNext other deeper).1
          omega

/-! ### Whole runs -/

variable {range : LiveRange} {map : Nat → Option Nat}

/-- The segment does not overlap an index with another value. -/
def Agrees (added : LiveSegment) (map : Nat → Option Nat) : Prop :=
  ∀ index value, added.Contains index → map index = some value → value = added.value

theorem agrees_of_compatible {segments : List LiveSegment} (compatible : Compatible added segments) :
    Agrees added (valueAt segments) := by
  intro index value inside found
  obtain ⟨other, member, also, rfl⟩ := exists_of_valueAt found
  exact compatible other member (Nat.lt_of_le_of_lt also.1 inside.2)
    (Nat.lt_of_le_of_lt inside.1 also.2)

theorem compatible_of_agrees {segments : List LiveSegment} (holds : Holds segments map)
    (filled : added.start < added.finish) (agrees : Agrees added map) : Compatible added segments := by
  intro other member early late
  have filledOther := holds.normal.filled member
  have inside : other.Contains (max added.start other.start) := ⟨by omega, by omega⟩
  have found := holds.normal.valueAt_eq member inside
  rw [holds.values] at found
  exact agrees _ _ ⟨by omega, by omega⟩ found

theorem agrees_withSegment {other : LiveSegment} (agrees : Agrees added map)
    (compatible : Compatible other [added]) : Agrees added (withSegment other map) := by
  intro index value inside found
  unfold withSegment at found
  split at found
  · rename_i also
    cases found
    exact (compatible added mem_cons_self (Nat.lt_of_le_of_lt inside.1 also.2)
      (Nat.lt_of_le_of_lt also.1 inside.2)).symm
  · exact agrees index value inside found

def Stands (updater : LiveRangeUpdater) (map : Nat → Option Nat) : Prop :=
  match updater.lastStart with
  | none => updater.spills = [] ∧ Holds updater.segments map
  | some lastStart => ∃ before gap behind merged,
      Coupled updater before gap behind merged lastStart ∧
      ∀ index, valueAt (merged ++ behind) index = map index

structure Matches (updater : LiveRangeUpdater) (range : LiveRange) (map : Nat → Option Nat) : Prop where
  holds : Holds range.collection map
  state : match range.segmentSet with
    | some _ => updater.range = range ∧ updater.lastStart = none ∧ updater.spills = []
    | none => updater.range = { range with segments := updater.segments } ∧ Stands updater map

theorem Matches.invariant (matched : Matches updater range map) : Invariant updater := by
  have state := matched.state
  unfold Invariant
  cases kept : range.segmentSet with
  | some set =>
      rw [kept] at state
      rw [state.2.1]
      exact state.2.2
  | none =>
      rw [kept] at state
      have stands := state.2
      unfold Stands at stands
      cases last : updater.lastStart with
      | none =>
          rw [last] at stands
          exact stands.1
      | some lastStart =>
          rw [last] at stands
          obtain ⟨before, gap, behind, merged, coupled, _⟩ := stands
          exact coupled.areas

theorem matches_create (normal : WellFormed range.collection) :
    Matches (create range) range (valueAt range.collection) := by
  have holds : Holds range.collection (valueAt range.collection) := ⟨normal, fun _ => rfl⟩
  refine ⟨holds, ?_⟩
  obtain ⟨vector, set, valnos, allocated⟩ := range
  cases set with
  | some set => exact ⟨rfl, rfl, rfl⟩
  | none => exact ⟨rfl, rfl, holds⟩

theorem restart_coupled (stands : Stands updater map) (start : Nat) :
    ∃ next before gap behind merged lastStart, restart start updater = some next ∧
      next.range = { updater.range with segments := next.segments } ∧
      Coupled next before gap behind merged lastStart ∧ lastStart ≤ start ∧
      ∀ index, valueAt (merged ++ behind) index = map index := by
  unfold Stands at stands
  unfold restart
  cases last : updater.lastStart with
  | none =>
      rw [last] at stands
      obtain ⟨unspilled, holds⟩ := stands
      refine ⟨_, [], [], updater.segments, [], start, rfl, rfl, ?_, Nat.le_refl _, holds.values⟩
      exact coupled_of_normal holds.normal unspilled rfl rfl
  | some lastStart =>
      rw [last] at stands
      obtain ⟨before, gap, behind, merged, coupled, values⟩ := stands
      simp only
      split
      · obtain ⟨flushed, ran, vector, _, unspilled⟩ := flush_coupled last coupled
        have whole : flushed.segments = merged ++ behind := by
          rw [segments, vector]
        refine ⟨{ flushed with writeI := 0, readI := 0 }, [], [], flushed.segments, [], start,
          by rw [ran]; rfl, ?_, ?_, Nat.le_refl _, ?_⟩
        · change flushed.range = { updater.range with segments := flushed.segments }
          rw [whole]
          exact vector
        · exact coupled_of_normal (whole ▸ coupled.normal) unspilled rfl rfl
        · rw [whole]
          exact values
      · rename_i onward
        exact ⟨updater, before, gap, behind, merged, lastStart, rfl, rfl, coupled, Nat.not_lt.mp onward,
          values⟩

theorem add_stands (vector : updater.range.segmentSet = none) (stands : Stands updater map)
    (filled : added.start < added.finish) (agrees : Agrees added map) :
    ∃ next, add added updater = some next ∧
      next.range = { updater.range with segments := next.segments } ∧
      Stands next (withSegment added map) := by
  obtain ⟨restarted, before, gap, behind, merged, lastStart, ran, sameRange, coupled, later, values⟩ :=
    restart_coupled stands added.start
  have remembered : Coupled { restarted with lastStart := some added.start } before gap behind merged
      lastStart :=
    ⟨coupled.shape, coupled.writeI, coupled.readI, coupled.perm, coupled.normal, coupled.normalBefore,
      coupled.normalSpills, coupled.early⟩
  obtain ⟨advanced, moved, newBefore, newGap, passed, rest, rfl, same, arrived, ends⟩ :=
    advance_advanced remembered later
  rw [← List.append_assoc] at values
  have compatible := compatible_of_agrees ⟨arrived.normal, values⟩ filled agrees
  obtain ⟨lastBefore, lastGap, lastBehind, lastMerged, sameNext, done, mapped⟩ :=
    place_added arrived filled compatible ends
  have both := same.trans sameNext
  refine ⟨place added advanced, ?_, ?_, ?_⟩
  · rw [add, vector]
    simp only [ran, Option.bind_eq_bind, Option.bind_some, moved]
  · rw [both.range, sameRange]
  · unfold Stands
    rw [both.lastStart]
    refine ⟨lastBefore, lastGap, lastBehind, lastMerged, done, fun index => ?_⟩
    rw [mapped index, withSegment, withSegment, values]

theorem addSegment_holds (normal : WellFormed range.collection) (filled : added.start < added.finish)
    (compatible : Compatible added range.collection) :
    ∃ next, range.addSegment added = some (range.setCollection next) ∧
      Holds next (withSegment added (valueAt range.collection)) := by
  obtain ⟨next, done, holds⟩ := addSegmentAt_holds normal filled compatible
    (findInsertPos_partitioned normal.inOrder added)
  exact ⟨next, by rw [LiveRange.addSegment, done, Option.map_some], holds⟩

theorem add_matches (matched : Matches updater range map) (filled : added.start < added.finish)
    (agrees : Agrees added map) :
    ∃ next nextRange, add added updater = some next ∧ range.addSegment added = some nextRange ∧
      Matches next nextRange (withSegment added map) := by
  have compatible := compatible_of_agrees matched.holds filled agrees
  obtain ⟨segments, done, normal, values⟩ := addSegment_holds matched.holds.normal filled compatible
  have holds : Holds segments (withSegment added map) := by
    refine ⟨normal, fun index => ?_⟩
    rw [values, withSegment, withSegment, matched.holds.values]
  have state := matched.state
  obtain ⟨vector, set, valnos, allocated⟩ := range
  cases set with
  | some set =>
      obtain ⟨same, clean, unspilled⟩ := state
      refine ⟨{ updater with range := ⟨vector, some segments, valnos, allocated⟩ }, _, ?_, done, holds, rfl,
        clean, unspilled⟩
      rw [add, same, done]
      rfl
  | none =>
      obtain ⟨same, stands⟩ := state
      have unused : updater.range.segmentSet = none := by rw [same]
      obtain ⟨next, ran, sameNext, standsNext⟩ := add_stands unused stands filled agrees
      refine ⟨next, _, ran, done, holds, ?_, standsNext⟩
      rw [sameNext, same]
      rfl

theorem addAll_matches (additions : List LiveSegment) :
    ∀ {updater : LiveRangeUpdater} {range : LiveRange} {map : Nat → Option Nat},
      Matches updater range map → (∀ added ∈ additions, added.start < added.finish) →
      (∀ added ∈ additions, Agrees added map) →
      additions.Pairwise (fun one two => Compatible one [two]) →
      ∃ next nextRange nextMap, Runs.run add additions updater = some next ∧
        Runs.run LiveRange.addSegment additions range = some nextRange ∧
        Matches next nextRange nextMap := by
  induction additions with
  | nil =>
      intro updater range map matched _ _ _
      exact ⟨updater, range, map, rfl, rfl, matched⟩
  | cons first rest ih =>
      intro updater range map matched filled agrees pairwise
      obtain ⟨compatible, later⟩ := pairwise_cons.mp pairwise
      obtain ⟨middle, middleRange, ran, ranRange, matchedMiddle⟩ :=
        add_matches matched (filled first mem_cons_self) (agrees first mem_cons_self)
      obtain ⟨next, nextRange, nextMap, done, doneRange, matchedNext⟩ := ih matchedMiddle
        (fun added member => filled added (mem_cons_of_mem first member))
        (fun added member => agrees_withSegment (agrees added (mem_cons_of_mem first member))
          (compatible added member)) later
      refine ⟨next, nextRange, nextMap, ?_, ?_, matchedNext⟩
      · rw [Runs.run_cons, ran]
        exact done
      · rw [Runs.run_cons, ranRange]
        exact doneRange

theorem flush_matches (matched : Matches updater range map) :
    ∃ flushed, flush updater = some flushed ∧ flushed.range = range ∧ flushed.isDirty = false := by
  have state := matched.state
  have holds := matched.holds
  obtain ⟨vector, set, valnos, allocated⟩ := range
  cases set with
  | some set =>
      obtain ⟨same, clean, _⟩ := state
      have isClean : updater.isDirty = false := by
        rw [isDirty, clean]
        rfl
      refine ⟨updater, ?_, same, isClean⟩
      rw [flush, isClean]
      rfl
  | none =>
      obtain ⟨same, stands⟩ := state
      unfold Stands at stands
      cases last : updater.lastStart with
      | none =>
          rw [last] at stands
          have isClean : updater.isDirty = false := by
            rw [isDirty, last]
            rfl
          have whole : updater.segments = vector :=
            stands.2.normal.eq_of_valueAt holds.normal fun index =>
              (stands.2.values index).trans (holds.values index).symm
          refine ⟨updater, ?_, ?_, isClean⟩
          · rw [flush, isClean]
            rfl
          · rw [same, whole]
      | some lastStart =>
          rw [last] at stands
          obtain ⟨before, gap, behind, merged, coupled, values⟩ := stands
          obtain ⟨flushed, ran, range, clean, _⟩ := flush_coupled last coupled
          have whole : merged ++ behind = vector :=
            coupled.normal.eq_of_valueAt holds.normal fun index =>
              (values index).trans (holds.values index).symm
          refine ⟨flushed, ran, ?_, ?_⟩
          · rw [range, same, whole]
          · rw [isDirty, clean]
            rfl

/-- The bulk updater equals plain additions: the invariant of the areas holds
after every segment added, and a flush leaves the range that adding the segments
one by one leaves. -/
theorem bulk_eq_addSegment (range : LiveRange) (additions : List LiveSegment)
    (normal : WellFormed range.collection)
    (filled : ∀ added ∈ additions, added.start < added.finish)
    (free : ∀ added ∈ additions, Compatible added range.collection)
    (pairwise : additions.Pairwise fun one two => Compatible one [two]) :
    (∀ done later, additions = done ++ later →
      ∃ updater, Runs.run add done (create range) = some updater ∧ Invariant updater) ∧
    ∃ flushed final, (Runs.run add additions (create range)).bind flush = some flushed ∧
      Runs.run LiveRange.addSegment additions range = some final ∧
      flushed.range = final ∧ flushed.isDirty = false ∧ WellFormed final.collection := by
  have agrees : ∀ added ∈ additions, Agrees added (valueAt range.collection) :=
    fun added member => agrees_of_compatible (free added member)
  constructor
  · rintro done later rfl
    obtain ⟨updater, _, _, ran, _, matched⟩ := addAll_matches done (matches_create normal)
      (fun added member => filled added (mem_append_left later member))
      (fun added member => agrees added (mem_append_left later member))
      (pairwise_append.mp pairwise).1
    exact ⟨updater, ran, matched.invariant⟩
  · obtain ⟨updater, final, map, ran, ranRange, matched⟩ :=
      addAll_matches additions (matches_create normal) filled agrees pairwise
    obtain ⟨flushed, done, same, clean⟩ := flush_matches matched
    refine ⟨flushed, final, ?_, ranRange, same, clean, matched.holds.normal⟩
    rw [ran]
    exact done

/-- Segments in no order of starts, one of which joins two others. -/
theorem scattered_eq_addSegment :
    ∃ flushed final, (Runs.run add [⟨30, 34, 0⟩, ⟨4, 8, 1⟩, ⟨12, 16, 1⟩, ⟨20, 24, 2⟩, ⟨8, 12, 1⟩]
        (create ⟨[⟨0, 4, 0⟩, ⟨16, 18, 0⟩, ⟨40, 44, 2⟩], none, [0, 1, 2], []⟩)).bind flush = some flushed ∧
      Runs.run LiveRange.addSegment [⟨30, 34, 0⟩, ⟨4, 8, 1⟩, ⟨12, 16, 1⟩, ⟨20, 24, 2⟩, ⟨8, 12, 1⟩]
        ⟨[⟨0, 4, 0⟩, ⟨16, 18, 0⟩, ⟨40, 44, 2⟩], none, [0, 1, 2], []⟩ = some final ∧
      flushed.range = final ∧ flushed.isDirty = false ∧ WellFormed final.collection :=
  (bulk_eq_addSegment ⟨[⟨0, 4, 0⟩, ⟨16, 18, 0⟩, ⟨40, 44, 2⟩], none, [0, 1, 2], []⟩
    [⟨30, 34, 0⟩, ⟨4, 8, 1⟩, ⟨12, 16, 1⟩, ⟨20, 24, 2⟩, ⟨8, 12, 1⟩]
    (by simp [WellFormed, Apart, collection]) (by decide) (by unfold Compatible; decide)
    (by unfold Compatible; decide)).2

end EvmBackend.LiveRangeUpdater
