/-
The areas an updater keeps its segments in, and what moving segments between
them does: the segments before and behind the gap and those spilled are the
segments of one list in normal form at any time.
-/

import EvmBackend.LiveRange.Editing
import EvmBackend.LiveRange.Updater

namespace EvmBackend.LiveRangeUpdater

open Segments LiveRange List

def areaOne (updater : LiveRangeUpdater) : List LiveSegment :=
  updater.segments.take updater.writeI

def areaTwo (updater : LiveRangeUpdater) : List LiveSegment :=
  updater.segments.drop updater.readI

structure Areas (updater : LiveRangeUpdater) (lastStart : Nat) : Prop where
  ordered : updater.writeI ≤ updater.readI ∧ updater.readI ≤ updater.segments.length
  normalOne : WellFormed updater.areaOne
  normalTwo : WellFormed updater.areaTwo
  normalSpills : WellFormed updater.spills
  oneBeforeTwo : ∀ left ∈ updater.areaOne, ∀ right ∈ updater.areaTwo, Apart left right
  spillsBeforeTwo : ∀ left ∈ updater.spills, ∀ right ∈ updater.areaTwo, Apart left right
  spillsBesideOne : ∀ spill ∈ updater.spills, ∀ other ∈ updater.areaOne,
    Apart spill other ∨ Apart other spill
  spillStart : ∀ back ∈ updater.spills.getLast?, back.start ≤ lastStart
  oneStart : ∀ back ∈ updater.areaOne.getLast?, back.start ≤ lastStart

/-- The documented invariant: nothing is spilled in a clean updater. -/
def Invariant (updater : LiveRangeUpdater) : Prop :=
  match updater.lastStart with
  | none => updater.spills = []
  | some lastStart => Areas updater lastStart

/-- The vector holds the segments before the gap, leftovers and the segments
behind the gap. Those before the gap and the spills are the segments of
`merged`, which goes on with the segments behind the gap. -/
structure Coupled (updater : LiveRangeUpdater) (before gap behind merged : List LiveSegment)
    (lastStart : Nat) : Prop where
  shape : updater.segments = before ++ (gap ++ behind)
  writeI : updater.writeI = before.length
  readI : updater.readI = before.length + gap.length
  perm : merged.Perm (before ++ updater.spills)
  normal : WellFormed (merged ++ behind)
  normalBefore : WellFormed before
  normalSpills : WellFormed updater.spills
  early : ∀ segment ∈ merged, segment.start ≤ lastStart

variable {updater : LiveRangeUpdater} {before gap behind merged : List LiveSegment}
  {lastStart start : Nat}

namespace Coupled

variable (coupled : Coupled updater before gap behind merged lastStart)

include coupled

theorem mem_of_before {segment : LiveSegment} (member : segment ∈ before) : segment ∈ merged :=
  coupled.perm.mem_iff.mpr (mem_append_left _ member)

theorem mem_of_spills {segment : LiveSegment} (member : segment ∈ updater.spills) :
    segment ∈ merged :=
  coupled.perm.mem_iff.mpr (mem_append_right before member)

theorem normalMerged : WellFormed merged := (wellFormed_append.mp coupled.normal).1

theorem normalBehind : WellFormed behind := (wellFormed_append.mp coupled.normal).2.1

theorem apart_behind {left right : LiveSegment} (one : left ∈ merged) (two : right ∈ behind) :
    Apart left right :=
  (wellFormed_append.mp coupled.normal).2.2 left one right two

theorem drop_readI : updater.segments.drop updater.readI = behind := by
  rw [coupled.shape, coupled.readI, ← List.append_assoc, ← length_append, drop_left]

theorem take_writeI : updater.segments.take updater.writeI = before := by
  rw [coupled.shape, coupled.writeI, take_left]

theorem getElem?_readI : updater.segments[updater.readI]? = behind.head? := by
  rw [← head?_drop, coupled.drop_readI]

theorem areas : Areas updater lastStart := by
  have one : updater.areaOne = before := coupled.take_writeI
  have two : updater.areaTwo = behind := coupled.drop_readI
  have beside := (pairwise_append.mp (coupled.normalMerged.pairwise_of_perm coupled.perm)).2.2
  constructor
  · have total := congrArg List.length coupled.shape
    rw [length_append, length_append] at total
    rw [coupled.writeI, coupled.readI]
    omega
  · rw [one]
    exact coupled.normalBefore
  · rw [two]
    exact coupled.normalBehind
  · exact coupled.normalSpills
  · rw [one, two]
    exact fun left member right later => coupled.apart_behind (coupled.mem_of_before member) later
  · rw [two]
    exact fun left member right later => coupled.apart_behind (coupled.mem_of_spills member) later
  · rw [one]
    exact fun spill member other also => (beside other also spill member).symm
  · exact fun back last => coupled.early back (coupled.mem_of_spills (mem_of_mem_getLast? last))
  · rw [one]
    exact fun back last => coupled.early back (coupled.mem_of_before (mem_of_mem_getLast? last))

end Coupled

theorem coupled_of_normal (normal : WellFormed updater.segments) (unspilled : updater.spills = [])
    (writeI : updater.writeI = 0) (readI : updater.readI = 0) :
    Coupled updater [] [] updater.segments [] lastStart := by
  refine ⟨rfl, writeI, readI, ?_, normal, trivial, ?_, fun _ absent => by cases absent⟩
  · rw [unspilled]
    exact .refl _
  · rw [unspilled]
    trivial

/-! ### Merging spills -/

theorem set_length_append {Item : Type*} (front back : List Item) (old new : Item) :
    (front ++ old :: back).set front.length new = front ++ new :: back := by
  rw [set_append_right _ _ (Nat.le_refl _), Nat.sub_self, set_cons_zero]

theorem sorted_between {front done : List LiveSegment} {last item : LiveSegment}
    (sorted : (front ++ [last] ++ done).Pairwise fun one two => one.start ≤ two.start)
    (late : last.start ≤ item.start) (early : ∀ other ∈ done, item.start ≤ other.start) :
    (front ++ [last] ++ item :: done).Pairwise fun one two => one.start ≤ two.start := by
  obtain ⟨sortedFront, sortedDone, across⟩ := pairwise_append.mp sorted
  obtain ⟨_, _, atEnd⟩ := pairwise_append.mp sortedFront
  refine pairwise_append.mpr
    ⟨sortedFront, pairwise_cons.mpr ⟨early, sortedDone⟩, fun one member other also => ?_⟩
  have before : one.start ≤ last.start := by
    rcases mem_append.mp member with inside | isLast
    · exact atEnd one inside last mem_cons_self
    · rw [mem_singleton.mp isLast]
  rcases mem_cons.mp also with rfl | inDone
  · omega
  · exact across one member other inDone

/-- The segments come out in order, with as many of the spills as were to be
moved. -/
def MergedBack (ran : Option (List LiveSegment × Nat)) (contents tail keep : List LiveSegment) : Prop :=
  ∃ result, ran = some (result ++ tail, keep.length) ∧ result.Perm contents ∧
    result.Pairwise fun one two => one.start ≤ two.start

/-- The merge from the back. Behind the place written to the segments are in
order, and none of those left starts later; the segments between the places are
as many as there are spills to move. -/
theorem mergeBackwards_spec (spills keep tail : List LiveSegment) (dst : Nat) :
    ∀ front junk done move : List LiveSegment,
      dst = front.length + junk.length → move.length = junk.length →
      spills.take (keep.length + move.length) = keep ++ move →
      (front ++ done).Pairwise (fun one two => one.start ≤ two.start) →
      (move ++ done).Pairwise (fun one two => one.start ≤ two.start) →
      MergedBack (mergeBackwards spills dst front.length (keep.length + move.length)
        (front ++ (junk ++ (done ++ tail)))) (front ++ move ++ done) tail keep := by
  induction dst with
  | zero =>
      intro front junk done move length same _ sorted _
      obtain rfl := length_eq_zero_iff.mp (by omega : front.length = 0)
      obtain rfl := length_eq_zero_iff.mp (by omega : junk.length = 0)
      obtain rfl := length_eq_zero_iff.mp (same : move.length = 0)
      exact ⟨done, rfl, .refl _, sorted⟩
  | succ dst ih =>
      intro front junk done move length same shape sortedFront sortedMove
      rcases junk.eq_nil_or_concat with rfl | ⟨less, old, rfl⟩
      · obtain rfl := length_eq_zero_iff.mp (same : move.length = 0)
        rw [mergeBackwards, if_pos (by simpa using length.symm)]
        exact ⟨front ++ done, by simp, by simp, sortedFront⟩
      · rw [concat_eq_append] at length same ⊢
        rw [length_append, length_singleton] at length same
        rcases move.eq_nil_or_concat with rfl | ⟨moved, spill, rfl⟩
        · rw [length_nil] at same
          omega
        · rw [concat_eq_append] at same shape sortedMove ⊢
          rw [length_append, length_singleton] at same
          have shapeLess : spills.take (keep.length + moved.length) = keep ++ moved := by
            have cut := congrArg (List.take (keep.length + moved.length)) shape
            rw [take_take, ← List.append_assoc, length_append, length_singleton,
              Nat.min_eq_left (by omega), ← length_append, take_left,
              length_append] at cut
            exact cut
          have spilled : (front ++ spill :: done).Pairwise (fun one two => one.start ≤ two.start) →
              MergedBack (mergeBackwards spills dst front.length
                (keep.length + (moved ++ [spill]).length - 1)
                ((front ++ (less ++ [old] ++ (done ++ tail))).set dst spill))
                (front ++ (moved ++ [spill]) ++ done) tail keep := by
            intro sorted
            have written : (front ++ (less ++ [old] ++ (done ++ tail))).set dst spill =
                front ++ (less ++ ((spill :: done) ++ tail)) := by
              have here : dst = (front ++ less).length := by
                rw [length_append]
                omega
              rw [here, List.append_assoc, singleton_append, ← List.append_assoc,
                set_length_append, List.append_assoc, List.cons_append]
            have placed : keep.length + (moved ++ [spill]).length - 1 = keep.length + moved.length := by
              rw [length_append, length_singleton]
              omega
            have rest := ih front less (spill :: done) moved (by omega) (by omega) shapeLess sorted
              (by simpa using sortedMove)
            rw [written, placed]
            simpa using rest
          have lastSpill : (spills.take (keep.length + (moved ++ [spill]).length)).getLast? =
              some spill := by
            rw [shape]
            simp
          have behindSpill := (pairwise_append.mp sortedMove).2.2 spill (by simp)
          rw [mergeBackwards, if_neg (by omega), lastSpill, take_left]
          rcases front.eq_nil_or_concat with rfl | ⟨fewer, last, rfl⟩
          · exact spilled (pairwise_cons.mpr ⟨behindSpill, sortedFront⟩)
          · rw [concat_eq_append] at *
            have latest : (fewer ++ [last]).getLast? = some last := by simp
            simp only [Option.bind_eq_bind, Option.bind_some, latest]
            split
            · rename_i later
              have written : (fewer ++ [last] ++ (less ++ [old] ++ (done ++ tail))).set dst last =
                  fewer ++ (last :: less ++ ((last :: done) ++ tail)) := by
                have here : dst = (fewer ++ last :: less).length := by
                  simp only [length_append, length_cons, length_nil] at length ⊢
                  omega
                have joined : fewer ++ [last] ++ (less ++ [old] ++ (done ++ tail)) =
                    fewer ++ last :: less ++ old :: (done ++ tail) := by simp
                rw [joined, here, set_length_append]
                simp
              have placed : (fewer ++ [last]).length - 1 = fewer.length := by simp
              have behindLast := (pairwise_append.mp sortedFront).2.2 last (by simp)
              obtain ⟨result, ran, perm, ordered⟩ := ih fewer (last :: less) (last :: done)
                (moved ++ [spill])
                (by simp only [length_append, length_cons, length_nil] at length ⊢; omega)
                (by simp only [length_append, length_cons, length_nil]; omega) shape
                (by simpa using sortedFront) (sorted_between sortedMove (Nat.le_of_lt later) behindLast)
              rw [written, placed]
              refine ⟨result, ran, perm.trans ?_, ordered⟩
              have swapped : (moved ++ [spill] ++ last :: done).Perm
                  (last :: (moved ++ [spill] ++ done)) := perm_middle
              simpa using swapped.append_left fewer
            · rename_i early
              exact spilled (sorted_between sortedFront (Nat.not_lt.mp early) behindSpill)

@[simp]
theorem segments_setSegments (segments : List LiveSegment) (updater : LiveRangeUpdater) :
    (updater.setSegments segments).segments = segments := rfl

/-- The range is the same but for its vector, and so is the start remembered. -/
structure SameRange (updater next : LiveRangeUpdater) : Prop where
  range : next.range = { updater.range with segments := next.segments }
  lastStart : next.lastStart = updater.lastStart

theorem SameRange.trans {middle last : LiveRangeUpdater} (one : SameRange updater middle)
    (two : SameRange middle last) : SameRange updater last := by
  refine ⟨?_, two.lastStart.trans one.lastStart⟩
  rw [two.range, one.range]

theorem mergeSpills_coupled (coupled : Coupled updater before gap behind merged lastStart) :
    ∃ next newBefore newGap, mergeSpills updater = some next ∧ SameRange updater next ∧
      Coupled next newBefore newGap behind merged lastStart ∧
      newGap.length = gap.length - updater.spills.length ∧
      next.spills.length = updater.spills.length - gap.length := by
  have room : updater.readI - updater.writeI = gap.length := by
    rw [coupled.readI, coupled.writeI]
    omega
  let numMoved := min updater.spills.length gap.length
  let keep := updater.spills.take (updater.spills.length - numMoved)
  let move := updater.spills.drop (updater.spills.length - numMoved)
  have parts : updater.spills = keep ++ move := (take_append_drop _ _).symm
  have moveLength : move.length = numMoved := by
    simp only [move, length_drop]
    omega
  have total : keep.length + move.length = updater.spills.length := by
    rw [← length_append, ← parts]
  have cut : gap = gap.take numMoved ++ gap.drop numMoved := (take_append_drop _ _).symm
  have junkLength : (gap.take numMoved).length = numMoved := by
    rw [length_take]
    omega
  have sortedMove : move.Pairwise fun one two => one.start ≤ two.start := by
    have sorted := coupled.normalSpills.sorted
    rw [parts] at sorted
    exact (pairwise_append.mp sorted).2.1
  obtain ⟨result, ran, perm, ordered⟩ := mergeBackwards_spec updater.spills keep
    (gap.drop numMoved ++ behind) (before.length + numMoved) before (gap.take numMoved) [] move
    (by rw [junkLength]) (by rw [moveLength, junkLength]) (by rw [total, take_length, ← parts])
    (by simpa using coupled.normalBefore.sorted) (by simpa using sortedMove)
  rw [append_nil] at perm
  have vector : updater.segments = before ++ (gap.take numMoved ++ ([] ++ (gap.drop numMoved ++ behind))) := by
    rw [nil_append, ← List.append_assoc (gap.take numMoved), ← cut]
    exact coupled.shape
  have remaining : updater.spills.take keep.length = keep := by
    rw [parts, take_left]
  have resultLength : result.length = before.length + numMoved := by
    rw [perm.length_eq, length_append, moveLength]
  have permAll : merged.Perm (result ++ keep) := by
    refine coupled.perm.trans ?_
    rw [parts]
    refine (List.Perm.append_left before perm_append_comm).trans ?_
    rw [← List.append_assoc]
    exact perm.symm.append_right keep
  rw [total, ← vector] at ran
  let next : LiveRangeUpdater :=
    { updater.setSegments (result ++ (gap.drop numMoved ++ behind)) with
      writeI := before.length + numMoved
      spills := updater.spills.take keep.length }
  have spills : next.spills = keep := remaining
  refine ⟨next, result, gap.drop numMoved, ?_, ⟨rfl, rfl⟩, ⟨rfl, resultLength.symm, ?_, ?_, coupled.normal,
    coupled.normalMerged.of_perm_append permAll ordered, ?_, coupled.early⟩, ?_, ?_⟩
  · simp only [mergeSpills, room]
    rw [coupled.writeI, ran]
    rfl
  · change updater.readI = _
    rw [coupled.readI, resultLength, length_drop]
    omega
  · rw [spills]
    exact permAll
  · have normal := coupled.normalSpills
    rw [parts] at normal
    rw [spills]
    exact (wellFormed_append.mp normal).1
  · rw [length_drop]
    omega
  · rw [spills]
    omega

theorem resizeGap_coupled (coupled : Coupled updater before gap behind merged lastStart) :
    ∃ newGap, newGap.length = updater.spills.length ∧ SameRange updater (resizeGap updater) ∧
      (resizeGap updater).spills = updater.spills ∧
      Coupled (resizeGap updater) before newGap behind merged lastStart := by
  have room : updater.readI - updater.writeI = gap.length := by
    rw [coupled.readI, coupled.writeI]
    omega
  have cut := coupled.drop_readI
  have shape : ∃ newGap, newGap.length = updater.spills.length ∧
      (resizeGap updater).segments = before ++ (newGap ++ behind) := by
    simp only [resizeGap, room, cut]
    split
    · rename_i narrow
      refine ⟨gap ++ List.replicate (updater.spills.length - gap.length) ⟨0, 0, 0⟩, ?_, ?_⟩
      · rw [length_append, length_replicate]
        omega
      · change updater.segments.take updater.readI ++ _ ++ _ = _
        rw [coupled.shape, coupled.readI, ← List.append_assoc, ← length_append, take_left]
        simp
    · rename_i wide
      refine ⟨gap.take updater.spills.length, ?_, ?_⟩
      · rw [length_take]
        omega
      · change updater.segments.take (updater.writeI + updater.spills.length) ++ behind = _
        rw [coupled.shape, coupled.writeI, take_length_add_append, take_append_of_le_length (by omega)]
        simp
  obtain ⟨newGap, length, vector⟩ := shape
  refine ⟨newGap, length, ⟨rfl, rfl⟩, rfl, vector, coupled.writeI, ?_, coupled.perm, coupled.normal,
    coupled.normalBefore, coupled.normalSpills, coupled.early⟩
  change updater.writeI + updater.spills.length = _
  rw [coupled.writeI, length]

theorem flush_coupled (dirty : updater.lastStart = some start)
    (coupled : Coupled updater before gap behind merged lastStart) :
    ∃ next, flush updater = some next ∧
      next.range = { updater.range with segments := merged ++ behind } ∧
      next.lastStart = none ∧ next.spills = [] := by
  have isDirty : updater.isDirty = true := by
    rw [LiveRangeUpdater.isDirty, dirty]
    rfl
  rw [flush, if_pos isDirty]
  have clean : Coupled { updater with lastStart := none } before gap behind merged lastStart :=
    ⟨coupled.shape, coupled.writeI, coupled.readI, coupled.perm, coupled.normal,
      coupled.normalBefore, coupled.normalSpills, coupled.early⟩
  simp only
  split
  · rename_i unspilled
    have perm := coupled.perm
    rw [unspilled, append_nil] at perm
    refine ⟨_, rfl, ?_, rfl, unspilled⟩
    rw [coupled.normalMerged.eq_of_perm coupled.normalBefore perm]
    have one := clean.take_writeI
    have two := clean.drop_readI
    rw [one, two]
    rfl
  · obtain ⟨newGap, length, same, spills, resized⟩ := resizeGap_coupled clean
    obtain ⟨next, newBefore, rest, ran, sameNext, after, noGap, noSpills⟩ := mergeSpills_coupled resized
    rw [spills, length, Nat.sub_self] at noGap noSpills
    obtain rfl := length_eq_zero_iff.mp noGap
    have unspilled := length_eq_zero_iff.mp noSpills
    have perm := after.perm
    rw [unspilled, append_nil] at perm
    have whole : next.segments = merged ++ behind := by
      rw [after.shape, nil_append, coupled.normalMerged.eq_of_perm after.normalBefore perm]
    have both := same.trans sameNext
    refine ⟨next, ran, ?_, both.lastStart, unspilled⟩
    rw [both.range, whole]

/-! ### Moving the gap -/

theorem Coupled.moveOn {next : LiveRangeUpdater} {newGap moved rest : List LiveSegment}
    (coupled : Coupled updater before gap (moved ++ rest) merged lastStart)
    (later : lastStart ≤ start) (ends : ∀ segment ∈ moved, segment.finish ≤ start)
    (shape : next.segments = before ++ moved ++ (newGap ++ rest))
    (writeI : next.writeI = (before ++ moved).length)
    (readI : next.readI = (before ++ moved).length + newGap.length)
    (spills : next.spills = updater.spills) :
    Coupled next (before ++ moved) newGap rest (merged ++ moved) start := by
  have normalMoved := (wellFormed_append.mp coupled.normalBehind).1
  refine ⟨shape, writeI, readI, ?_, ?_, ?_, ?_, ?_⟩
  · rw [spills]
    have swapped : (before ++ (updater.spills ++ moved)).Perm (before ++ (moved ++ updater.spills)) :=
      perm_append_comm.append_left before
    simp only [← List.append_assoc] at swapped
    exact (coupled.perm.append_right moved).trans swapped
  · rw [List.append_assoc]
    exact coupled.normal
  · refine wellFormed_append.mpr ⟨coupled.normalBefore, normalMoved, fun left member right also => ?_⟩
    exact coupled.apart_behind (coupled.mem_of_before member) (mem_append_left rest also)
  · rw [spills]
    exact coupled.normalSpills
  · intro segment member
    rcases mem_append.mp member with old | new
    · exact Nat.le_trans (coupled.early segment old) later
    · have filled := normalMoved.filled new
      have ended := ends segment new
      omega

def Advanced (start : Nat) (updater next : LiveRangeUpdater) (merged behind : List LiveSegment) : Prop :=
  ∃ newBefore newGap moved rest, behind = moved ++ rest ∧ SameRange updater next ∧
    Coupled next newBefore newGap rest (merged ++ moved) start ∧
    ∀ segment ∈ rest, start < segment.finish

theorem advanced_here (coupled : Coupled updater before gap behind merged lastStart)
    (later : lastStart ≤ start) (ends : ∀ segment ∈ behind, start < segment.finish) :
    Advanced start updater updater merged behind := by
  refine ⟨before, gap, [], behind, rfl, ⟨rfl, rfl⟩, ?_, ends⟩
  rw [append_nil]
  exact { coupled with early := fun segment member => Nat.le_trans (coupled.early segment member) later }

theorem ends_after_of_head {first : LiveSegment} {rest : List LiveSegment}
    (normal : WellFormed (first :: rest)) (ends : start < first.finish) :
    ∀ segment ∈ first :: rest, start < segment.finish := by
  intro segment member
  obtain ⟨_, apart, _⟩ := wellFormed_cons.mp normal
  rcases mem_cons.mp member with rfl | deeper
  · exact ends
  · have gap := (apart segment deeper).1
    have filled := normal.filled member
    omega

theorem shiftDown_advanced (fuel : Nat) :
    ∀ {updater : LiveRangeUpdater} {before gap behind merged : List LiveSegment} {lastStart : Nat},
      Coupled updater before gap behind merged lastStart → gap ≠ [] → behind.length ≤ fuel →
      lastStart ≤ start →
      Advanced start updater (shiftDown start fuel updater) merged behind := by
  induction fuel with
  | zero =>
      intro updater before gap behind merged lastStart coupled _ short later
      obtain rfl := length_eq_zero_iff.mp (Nat.le_zero.mp short)
      exact advanced_here coupled later fun _ absent => by cases absent
  | succ fuel ih =>
      intro updater before gap behind merged lastStart coupled room short later
      rw [shiftDown, coupled.getElem?_readI]
      cases behind with
      | nil => exact advanced_here coupled later fun _ absent => by cases absent
      | cons next rest =>
          simp only [head?_cons]
          split
          · rename_i ended
            obtain ⟨old, less, rfl⟩ := exists_cons_of_ne_nil room
            have written : updater.segments.set updater.writeI next =
                before ++ [next] ++ (less ++ [next] ++ rest) := by
              rw [coupled.shape, coupled.writeI, List.cons_append, set_length_append]
              simp
            have moved : Coupled
                { updater.setSegments (updater.segments.set updater.writeI next) with
                  writeI := updater.writeI + 1
                  readI := updater.readI + 1 }
                (before ++ [next]) (less ++ [next]) rest (merged ++ [next]) start := by
              have parted : Coupled updater before (old :: less) ([next] ++ rest) merged lastStart :=
                coupled
              refine parted.moveOn later ?_ written ?_ ?_ rfl
              · intro segment member
                rwa [mem_singleton.mp member]
              · rw [length_append, coupled.writeI]
                rfl
              · rw [length_append, length_append, coupled.readI]
                simp only [length_cons, length_nil]
                omega
            obtain ⟨newBefore, newGap, more, remaining, shape, same, after, ends⟩ :=
              ih moved (by simp) (Nat.le_of_succ_le_succ short) (Nat.le_refl start)
            refine ⟨newBefore, newGap, next :: more, remaining, by rw [shape, List.cons_append],
              ⟨same.range, same.lastStart⟩, ?_, ends⟩
            rw [append_cons]
            exact after
          · rename_i open_
            exact advanced_here coupled later
              (ends_after_of_head coupled.normalBehind (Nat.not_le.mp open_))

theorem find_advanced {next : LiveSegment} {rest : List LiveSegment}
    (coupled : Coupled updater before [] (next :: rest) merged lastStart)
    (later : lastStart ≤ start) (ended : next.finish ≤ start) :
    Advanced start updater
      { updater with
        writeI := LiveRange.find updater.segments start
        readI := LiveRange.find updater.segments start } merged (next :: rest) := by
  have whole : updater.segments = before ++ next :: rest := coupled.shape
  have normal : WellFormed updater.segments := by
    rw [whole]
    refine wellFormed_append.mpr ⟨coupled.normalBefore, coupled.normalBehind, ?_⟩
    exact fun left member right also => coupled.apart_behind (coupled.mem_of_before member) also
  obtain ⟨front, back, shape, length, early, late⟩ := (find_partitioned normal.inOrder start).split
  rw [whole] at shape
  rcases append_eq_append_iff.mp shape with ⟨moved, rfl, split⟩ | ⟨some_, rfl, split⟩
  · rw [split] at coupled ⊢
    refine ⟨before ++ moved, [], moved, back, rfl, ⟨rfl, rfl⟩, ?_, late⟩
    refine coupled.moveOn later (fun segment member => ?_) ?_ length.symm length.symm rfl
    · exact Nat.not_lt.mp (early segment (mem_append_right before member))
    · change updater.segments = _
      rw [whole, shape, nil_append]
  · have last : next ∈ back := by
      rw [split]
      simp
    exact absurd (late next last) (Nat.not_lt.mpr ended)

theorem fillGap_coupled (coupled : Coupled updater before gap behind merged lastStart) :
    ∃ next newBefore newGap, fillGap updater = some next ∧ SameRange updater next ∧
      Coupled next newBefore newGap behind merged lastStart := by
  unfold fillGap
  split
  · obtain ⟨next, newBefore, newGap, ran, same, after, _⟩ := mergeSpills_coupled coupled
    exact ⟨next, newBefore, newGap, ran, same, after⟩
  · exact ⟨updater, before, gap, rfl, ⟨rfl, rfl⟩, coupled⟩

theorem moveGap_advanced {next : LiveSegment} {rest : List LiveSegment}
    (coupled : Coupled updater before gap (next :: rest) merged lastStart)
    (later : lastStart ≤ start) (ended : next.finish ≤ start) :
    Advanced start updater (moveGap start updater) merged (next :: rest) := by
  have closed : updater.readI = updater.writeI ↔ gap = [] := by
    rw [coupled.readI, coupled.writeI, ← length_eq_zero_iff]
    omega
  unfold moveGap
  split
  · rename_i equal
    obtain rfl := closed.mp equal
    exact find_advanced coupled later ended
  · rename_i unequal
    refine shiftDown_advanced _ coupled (fun empty => unequal (closed.mpr empty)) ?_ later
    rw [coupled.shape, length_append, length_append]
    omega

theorem advance_advanced (coupled : Coupled updater before gap behind merged lastStart)
    (later : lastStart ≤ start) :
    ∃ next, advance start updater = some next ∧ Advanced start updater next merged behind := by
  rw [advance, coupled.getElem?_readI]
  cases behind with
  | nil => exact ⟨updater, rfl, advanced_here coupled later fun _ absent => by cases absent⟩
  | cons first rest =>
      simp only [head?_cons]
      split
      · rename_i ended
        obtain ⟨filled, newBefore, newGap, ran, same, after⟩ := fillGap_coupled coupled
        obtain ⟨lastBefore, lastGap, moved, remaining, shape, sameNext, done, ends⟩ :=
          moveGap_advanced after later ended
        refine ⟨moveGap start filled, by rw [ran]; rfl, ?_⟩
        exact ⟨lastBefore, lastGap, moved, remaining, shape, same.trans sameNext, done, ends⟩
      · rename_i open_
        exact ⟨updater, rfl, advanced_here coupled later
          (ends_after_of_head coupled.normalBehind (Nat.not_le.mp open_))⟩

end EvmBackend.LiveRangeUpdater
