/-
The questions asked about live ranges: whether two overlap, whether one covers
another, and which segment comes first after a position.

The scans leave segments behind only when nothing later can meet them, so what
is left answers for the whole. An assertion that fails is none.
-/

import EvmBackend.LiveRange.Editing
import Mathlib.Data.Option.Basic

namespace EvmBackend.LiveRange

open Segments List

/-- The last segment that starts no later than the position, and those after it. -/
def fromLastStart (segments : List LiveSegment) (pos : Nat) : List LiveSegment :=
  segments.drop (upperBound segments pos - 1)

/-- The scan over both lists. The range whose segment starts first moves on. -/
def overlapScan : List LiveSegment → List LiveSegment → Bool
  | i :: is, j :: js =>
      if j.start < i.start then
        if i.start < j.finish then true else overlapScan js (i :: is)
      else
        if j.start < i.finish then true else overlapScan is (j :: js)
  | _, _ => false
termination_by is js => is.length + js.length

def overlapsFrom (segments other : List LiveSegment) (startPos : Nat) : Option Bool :=
  match segments, other[startPos]? with
  | i :: is, some j => do
      guard (j.start ≤ i.start ∨ startPos = 0)
      if i.start < j.start then some (overlapScan (fromLastStart (i :: is) j.start) (other.drop startPos))
      else if j.start < i.start then
        match other[startPos + 1]? with
        | some next =>
            if next.start ≤ i.start then
              let place := startPos + upperBound (other.drop startPos) i.start
              some (overlapScan (i :: is) (other.drop (place - 1)))
            else some (overlapScan (i :: is) (other.drop startPos))
        | none => some (overlapScan (i :: is) (other.drop startPos))
      else some true
  | _, _ => none

def overlaps (segments other : List LiveSegment) : Option Bool :=
  if other = [] then some false else overlapsFrom segments other 0

def lowerBound (segments : List LiveSegment) (start : Nat) : Nat :=
  segments.findIdx fun segment => start ≤ segment.start

def overlapsSpan (segments : List LiveSegment) (start finish : Nat) : Option Bool := do
  guard (start < finish)
  match lowerBound segments finish with
  | 0 => some false
  | place + 1 => some (segments[place]?.any fun segment => start < segment.finish)

def advanceTo (segments : List LiveSegment) (pos : Nat) : List LiveSegment :=
  match segments.getLast? with
  | none => []
  | some last => if last.finish ≤ pos then [] else segments.dropWhile fun segment => segment.finish ≤ pos

def walkAdjacent (finish : Nat) : LiveSegment → List LiveSegment → Option (List LiveSegment)
  | last, rest =>
      if finish ≤ last.finish then some (last :: rest)
      else match rest with
        | [] => none
        | next :: later => if last.finish = next.start then walkAdjacent finish next later else none

def coversFrom : List LiveSegment → List LiveSegment → Bool
  | _, [] => true
  | segments, other :: others =>
      match advanceTo segments other.start with
      | [] => false
      | first :: rest =>
          if other.start < first.start then false
          else match walkAdjacent other.finish first rest with
            | none => false
            | some left => coversFrom left others

def covers (segments other : List LiveSegment) : Bool :=
  if segments = [] then decide (other = []) else coversFrom segments other

/-! ### Overlaps -/

def Live (segments : List LiveSegment) (index : Nat) : Prop := ∃ segment ∈ segments, segment.Contains index

def Meets (segments other : List LiveSegment) : Prop := ∃ index, Live segments index ∧ Live other index

section Overlaps

variable {segments other front back : List LiveSegment} {first : LiveSegment} {index : Nat}

theorem live_append : Live (front ++ back) index ↔ Live front index ∨ Live back index := by
  constructor
  · rintro ⟨segment, member, contains⟩
    rcases mem_append.mp member with inFront | inBack
    · exact .inl ⟨segment, inFront, contains⟩
    · exact .inr ⟨segment, inBack, contains⟩
  · rintro (⟨segment, member, contains⟩ | ⟨segment, member, contains⟩)
    · exact ⟨segment, mem_append_left back member, contains⟩
    · exact ⟨segment, mem_append_right front member, contains⟩

theorem meets_comm (segments other : List LiveSegment) : Meets segments other ↔ Meets other segments :=
  exists_congr fun _ => and_comm

theorem meets_append (front back : List LiveSegment)
    (before : ∀ left ∈ front, ∀ right ∈ other, left.finish ≤ right.start) :
    Meets (front ++ back) other ↔ Meets back other := by
  constructor
  · rintro ⟨index, live, ⟨right, member, contains⟩⟩
    rcases live_append.mp live with ⟨left, also, holds⟩ | behind
    · have order := before left also right member
      exact absurd holds.2 (Nat.not_lt.mpr (order.trans contains.1))
    · exact ⟨index, behind, right, member, contains⟩
  · rintro ⟨index, live, otherLive⟩
    exact ⟨index, live_append.mpr (.inr live), otherLive⟩

theorem meets_of_starts {i j : LiveSegment} {is js : List LiveSegment} (filled : j.start < j.finish)
    (starts : i.start ≤ j.start) (inside : j.start < i.finish) : Meets (i :: is) (j :: js) :=
  ⟨j.start, ⟨i, mem_cons_self, starts, inside⟩, j, mem_cons_self, Nat.le_refl _, filled⟩

section

variable (sorted : InOrder segments)

include sorted

theorem overlapScan_iff (sortedOther : InOrder other) :
    overlapScan segments other = true ↔ Meets segments other := by
  induction segments, other using overlapScan.induct with
  | case1 i is j js later inside =>
      rw [overlapScan, if_pos later, if_pos inside]
      exact iff_of_true rfl ((meets_comm _ _).mp
        (meets_of_starts (sorted.filled i mem_cons_self) later.le inside))
  | case2 i is j js later apart ih =>
      -- the other range is behind and moves on
      rw [overlapScan, if_pos later, if_neg apart, ih sortedOther.tail sorted, meets_comm (i :: is) (j :: js)]
      exact (meets_append [j] js fun left member right also => by
        rw [mem_singleton.mp member]
        exact (Nat.le_of_not_lt apart).trans (sorted.start_le also)).symm
  | case3 i is j js early inside =>
      rw [overlapScan, if_neg early, if_pos inside]
      exact iff_of_true rfl
        (meets_of_starts (sortedOther.filled j mem_cons_self) (Nat.le_of_not_lt early) inside)
  | case4 i is j js early apart ih =>
      rw [overlapScan, if_neg early, if_neg apart, ih sorted.tail sortedOther]
      exact (meets_append [i] is fun left member right also => by
        rw [mem_singleton.mp member]
        exact (Nat.le_of_not_lt apart).trans (sortedOther.start_le also)).symm
  | case5 is js none =>
      have empty : is = [] ∨ js = [] := by
        cases is with
        | nil => exact .inl rfl
        | cons i is =>
            cases js with
            | nil => exact .inr rfl
            | cons j js => exact absurd rfl (none i is j js rfl)
      have scan : overlapScan is js = false := by
        unfold overlapScan
        rcases empty with rfl | rfl
        · rfl
        · cases is <;> rfl
      rw [scan]
      apply iff_of_false Bool.false_ne_true
      rintro ⟨index, ⟨left, member, _⟩, right, also, _⟩
      rcases empty with rfl | rfl
      · cases member
      · cases also

theorem fromLastStart_spec (pos : Nat) :
    ∃ front, segments = front ++ fromLastStart segments pos ∧ ∀ left ∈ front, left.finish ≤ pos := by
  refine ⟨segments.take (upperBound segments pos - 1), (take_append_drop _ _).symm, ?_⟩
  obtain ⟨within, parted⟩ := upperBound_partitioned sorted pos
  intro left member
  obtain ⟨place, here⟩ := mem_iff_getElem?.mp member
  rw [getElem?_take] at here
  split at here
  · rename_i early
    have exists_ : upperBound segments pos - 1 < segments.length := by omega
    have last := List.getElem?_eq_getElem exists_
    have starts : ¬ startsAfter pos segments[upperBound segments pos - 1] := fun late =>
      absurd ((parted _ _ last).mp late) (by omega)
    have ordered := (ordered_of_getElem? sorted here last early).2.1
    exact ordered.trans (Nat.le_of_not_lt starts)
  · cases here

theorem fromLastStart_inOrder (pos : Nat) : InOrder (fromLastStart segments pos) := by
  obtain ⟨front, shape, _⟩ := fromLastStart_spec sorted pos
  rw [shape, inOrder_append] at sorted
  exact sorted.2.1

theorem meets_fromLastStart {pos : Nat}
    (starts : ∀ right ∈ other, pos ≤ right.start) :
    Meets (fromLastStart segments pos) other ↔ Meets segments other := by
  obtain ⟨front, shape, before⟩ := fromLastStart_spec sorted pos
  have whole : Meets (front ++ fromLastStart segments pos) other ↔ Meets (fromLastStart segments pos) other :=
    meets_append front _ fun left member right also => (before left member).trans (starts right also)
  rw [← shape] at whole
  exact whole.symm

theorem overlaps_spec (sortedOther : InOrder other)
    (nonempty : segments ≠ [] ∨ other = []) :
    ∃ answer, overlaps segments other = some answer ∧ (answer = true ↔ Meets segments other) := by
  unfold overlaps
  cases other with
  | nil =>
      refine ⟨false, if_pos rfl, iff_of_false Bool.false_ne_true ?_⟩
      rintro ⟨index, _, right, absent, _⟩
      cases absent
  | cons j js =>
      cases segments with
      | nil => exact absurd rfl (nonempty.resolve_right (cons_ne_nil j js))
      | cons i is =>
          rw [if_neg (cons_ne_nil j js)]
          unfold overlapsFrom
          rw [getElem?_cons_zero]
          dsimp only [bind, pure]
          rw [(Option.guard_eq_some' ()).mpr (.inr rfl), Option.bind_some, drop_zero]
          by_cases before : i.start < j.start
          · rw [if_pos before]
            refine ⟨_, rfl, ?_⟩
            rw [overlapScan_iff (fromLastStart_inOrder sorted j.start) sortedOther]
            exact meets_fromLastStart sorted fun right => sortedOther.start_le
          · rw [if_neg before]
            by_cases behind : j.start < i.start
            · rw [if_pos behind]
              have whole := overlapScan_iff sorted sortedOther
              cases found : (j :: js)[0 + 1]? with
              | none => exact ⟨_, rfl, whole⟩
              | some next =>
                  dsimp only
                  by_cases more : next.start ≤ i.start
                  · rw [if_pos more, Nat.zero_add]
                    refine ⟨_, rfl, ?_⟩
                    have part := overlapScan_iff sorted (fromLastStart_inOrder sortedOther i.start)
                    unfold fromLastStart at part
                    rw [part, meets_comm, meets_comm (i :: is)]
                    exact meets_fromLastStart sortedOther fun left => sorted.start_le
                  · rw [if_neg more]
                    exact ⟨_, rfl, whole⟩
            · rw [if_neg behind]
              have same : i.start = j.start := Nat.le_antisymm (Nat.le_of_not_lt behind) (Nat.le_of_not_lt before)
              refine ⟨true, rfl,
                iff_of_true rfl (meets_of_starts (sortedOther.filled j mem_cons_self) same.le ?_)⟩
              rw [← same]
              exact sorted.filled i mem_cons_self

end

end Overlaps

/-! ### Spans -/

theorem lowerBound_partitioned {segments : List LiveSegment} (sorted : InOrder segments) (start : Nat) :
    PartitionedAt (fun segment => decide (start ≤ segment.start) = true) segments
      (lowerBound segments start) := by
  apply partitionedAt_findIdx
  apply sorted.pairwise.imp
  intro left right both later
  rw [decide_eq_true_eq] at later ⊢
  omega

theorem overlapsSpan_spec {segments : List LiveSegment} (sorted : InOrder segments) {start finish : Nat}
    (span : start < finish) :
    ∃ answer, overlapsSpan segments start finish = some answer ∧
      (answer = true ↔ ∃ index, (start ≤ index ∧ index < finish) ∧ Live segments index) := by
  obtain ⟨within, parted⟩ := lowerBound_partitioned sorted finish
  unfold overlapsSpan
  dsimp only [bind, pure]
  rw [(Option.guard_eq_some' ()).mpr span, Option.bind_some]
  generalize lowerBound segments finish = bound at within parted ⊢
  -- the segments from the bound on start too late
  have late : ∀ index < finish, ∀ (place : Nat) (segment : LiveSegment), segments[place]? = some segment →
      segment.Contains index → place < bound := by
    intro index below place segment here contains
    by_contra beyond
    have starts := of_decide_eq_true ((parted place segment here).mpr (Nat.le_of_not_lt beyond))
    exact absurd contains.1 (by omega)
  cases bound with
  | zero =>
      refine ⟨false, rfl, iff_of_false Bool.false_ne_true ?_⟩
      rintro ⟨index, ⟨_, below⟩, segment, member, contains⟩
      obtain ⟨place, here⟩ := mem_iff_getElem?.mp member
      exact Nat.not_lt_zero place (late index below place segment here contains)
  | succ bound =>
      have inside : bound < segments.length := Nat.lt_of_succ_le within
      have last : segments[bound]? = some segments[bound] := List.getElem?_eq_getElem inside
      have starts : segments[bound].start < finish := by
        by_contra beyond
        have past := (parted bound _ last).mp (decide_eq_true (Nat.le_of_not_lt beyond))
        exact absurd past (Nat.not_succ_le_self bound)
      have filled := sorted.filled _ (mem_of_getElem? last)
      refine ⟨_, rfl, ?_⟩
      rw [last, Option.any_some, decide_eq_true_eq]
      constructor
      · intro ends
        exact ⟨max start segments[bound].start, ⟨Nat.le_max_left _ _, by omega⟩, segments[bound],
          mem_of_getElem? last, Nat.le_max_right _ _, by omega⟩
      · rintro ⟨index, ⟨least, below⟩, segment, member, contains⟩
        obtain ⟨place, here⟩ := mem_iff_getElem?.mp member
        have early := Nat.le_of_lt_succ (late index below place segment here contains)
        rcases Nat.eq_or_lt_of_le early with rfl | less
        · rw [last] at here
          cases here
          exact least.trans_lt contains.2
        · have ordered := ordered_of_getElem? sorted here last less
          exact (least.trans_lt contains.2).trans_le (ordered.2.1.trans ordered.2.2.le)

section Covering

variable {segments other front rest : List LiveSegment} {first last : LiveSegment} {finish pos : Nat}

theorem advanceTo_spec (sorted : InOrder segments) (pos : Nat) :
    ∃ front, segments = front ++ advanceTo segments pos ∧ (∀ left ∈ front, left.finish ≤ pos) ∧
      ∀ right ∈ (advanceTo segments pos).head?, pos < right.finish := by
  unfold advanceTo
  cases atEnd : segments.getLast? with
  | none =>
      obtain rfl := getLast?_eq_none_iff.mp atEnd
      exact ⟨[], rfl, nofun, nofun⟩
  | some last =>
      dsimp only
      by_cases past : last.finish ≤ pos
      · rw [if_pos past]
        refine ⟨segments, (append_nil segments).symm, fun left member => ?_, nofun⟩
        obtain ⟨before, rfl⟩ := getLast?_eq_some_iff.mp atEnd
        rcases mem_append.mp member with early | only
        · have ordered := (inOrder_append.mp sorted).2.2 left early last (mem_singleton.mpr rfl)
          have filled := sorted.filled last (mem_append_right before (mem_singleton.mpr rfl))
          exact ordered.trans (filled.le.trans past)
        · rw [mem_singleton.mp only]
          exact past
      · rw [if_neg past]
        refine ⟨_, (takeWhile_append_dropWhile).symm, fun left member => ?_, fun right found => ?_⟩
        · have passed := mem_takeWhile_imp member
          exact of_decide_eq_true passed
        · have stops := head?_dropWhile_not
            (fun segment : LiveSegment => decide (segment.finish ≤ pos)) segments
          rw [found] at stops
          exact Nat.lt_of_not_le (of_decide_eq_false stops)

theorem walkAdjacent_some (sorted : InOrder (last :: rest)) {left : List LiveSegment}
    (walked : walkAdjacent finish last rest = some left) :
    ∃ passed, last :: rest = passed ++ left ∧ left ≠ [] ∧ (∀ segment ∈ passed, segment.finish < finish) ∧
      ∀ index, last.start ≤ index → index < finish → Live (last :: rest) index := by
  induction rest generalizing last with
  | nil =>
      unfold walkAdjacent at walked
      by_cases reaches : finish ≤ last.finish
      · rw [if_pos reaches] at walked
        cases walked
        exact ⟨[], rfl, cons_ne_nil _ _, nofun, fun index least below =>
          ⟨last, mem_cons_self, least, below.trans_le reaches⟩⟩
      · rw [if_neg reaches] at walked
        cases walked
  | cons next later ih =>
      unfold walkAdjacent at walked
      by_cases reaches : finish ≤ last.finish
      · rw [if_pos reaches] at walked
        cases walked
        exact ⟨[], rfl, cons_ne_nil _ _, nofun, fun index least below =>
          ⟨last, mem_cons_self, least, below.trans_le reaches⟩⟩
      · rw [if_neg reaches] at walked
        by_cases adjacent : last.finish = next.start
        · dsimp only at walked
          rw [if_pos adjacent] at walked
          obtain ⟨passed, shape, nonempty, short, live⟩ := ih sorted.tail walked
          refine ⟨last :: passed, by rw [shape]; rfl, nonempty, ?_, fun index least below => ?_⟩
          · intro segment member
            rcases mem_cons.mp member with rfl | deeper
            · exact Nat.lt_of_not_le reaches
            · exact short segment deeper
          · by_cases inLast : index < last.finish
            · exact ⟨last, mem_cons_self, least, inLast⟩
            · obtain ⟨segment, member, contains⟩ := live index (by omega) below
              exact ⟨segment, mem_cons_of_mem last member, contains⟩
        · dsimp only at walked
          rw [if_neg adjacent] at walked
          cases walked

theorem walkAdjacent_none (sorted : InOrder (last :: rest)) (walked : walkAdjacent finish last rest = none) :
    ∃ index, last.start ≤ index ∧ index < finish ∧ ¬ Live (last :: rest) index := by
  induction rest generalizing last with
  | nil =>
      unfold walkAdjacent at walked
      by_cases reaches : finish ≤ last.finish
      · rw [if_pos reaches] at walked
        cases walked
      · have filled := sorted.filled last mem_cons_self
        refine ⟨last.finish, filled.le, Nat.lt_of_not_le reaches, ?_⟩
        rintro ⟨segment, member, contains⟩
        rw [mem_singleton.mp member] at contains
        exact Nat.lt_irrefl _ contains.2
  | cons next later ih =>
      unfold walkAdjacent at walked
      have filled := sorted.filled last mem_cons_self
      have gap := (pairwise_cons.mp sorted.ordered).1 next mem_cons_self
      by_cases reaches : finish ≤ last.finish
      · rw [if_pos reaches] at walked
        cases walked
      · rw [if_neg reaches] at walked
        dsimp only at walked
        by_cases adjacent : last.finish = next.start
        · rw [if_pos adjacent] at walked
          obtain ⟨index, least, below, dead⟩ := ih sorted.tail walked
          refine ⟨index, by omega, below, ?_⟩
          rintro ⟨segment, member, contains⟩
          rcases mem_cons.mp member with rfl | deeper
          · exact absurd contains.2 (by omega)
          · exact dead ⟨segment, deeper, contains⟩
        · refine ⟨last.finish, filled.le, Nat.lt_of_not_le reaches, ?_⟩
          rintro ⟨segment, member, contains⟩
          rcases mem_cons.mp member with rfl | deeper
          · exact Nat.lt_irrefl _ contains.2
          · have later := sorted.tail.start_le deeper
            exact absurd contains.1 (by omega)

theorem coversFrom_iff (sorted : InOrder segments) (sortedOther : InOrder other) :
    coversFrom segments other = true ↔ ∀ index, Live other index → Live segments index := by
  induction other generalizing segments with
  | nil =>
      unfold coversFrom
      apply iff_of_true rfl
      rintro index ⟨segment, absent, _⟩
      cases absent
  | cons other others ih =>
      obtain ⟨front, shape, early, reaches⟩ := advanceTo_spec sorted other.start
      have filled := sortedOther.filled other mem_cons_self
      have atStart : Live (other :: others) other.start := ⟨other, mem_cons_self, Nat.le_refl _, filled⟩
      unfold coversFrom
      generalize advanceTo segments other.start = advanced at shape reaches ⊢
      subst shape
      obtain ⟨_, sortedAdvanced, across⟩ := inOrder_append.mp sorted
      -- nothing behind is live from the start of the other segment on
      have behind : ∀ index, other.start ≤ index → Live (front ++ advanced) index → Live advanced index := by
        intro index least live
        rcases live_append.mp live with ⟨left, member, contains⟩ | ahead
        · exact absurd contains.2 (by have := early left member; omega)
        · exact ahead
      cases advanced with
      | nil =>
          refine iff_of_false Bool.false_ne_true fun all => ?_
          obtain ⟨segment, absent, _⟩ := behind _ (Nat.le_refl _) (all _ atStart)
          cases absent
      | cons first rest =>
          dsimp only
          by_cases starts : other.start < first.start
          · rw [if_pos starts]
            refine iff_of_false Bool.false_ne_true fun all => ?_
            obtain ⟨segment, member, contains⟩ := behind _ (Nat.le_refl _) (all _ atStart)
            have order := sortedAdvanced.start_le member
            exact absurd contains.1 (by omega)
          · rw [if_neg starts]
            cases walked : walkAdjacent other.finish first rest with
            | none =>
                refine iff_of_false Bool.false_ne_true fun all => ?_
                obtain ⟨index, least, below, dead⟩ := walkAdjacent_none sortedAdvanced walked
                have ends := reaches first rfl
                by_cases inFirst : index < first.finish
                · exact dead ⟨first, mem_cons_self, least, inFirst⟩
                · have live := all index ⟨other, mem_cons_self, by omega, below⟩
                  exact dead (behind index (by omega) live)
            | some left =>
                obtain ⟨passed, shape, nonempty, short, live⟩ := walkAdjacent_some sortedAdvanced walked
                have sortedLeft : InOrder left := by
                  rw [shape] at sortedAdvanced
                  exact (inOrder_append.mp sortedAdvanced).2.1
                dsimp only
                rw [ih sortedLeft sortedOther.tail]
                constructor
                · rintro all index ⟨segment, member, contains⟩
                  apply live_append.mpr
                  right
                  rcases mem_cons.mp member with rfl | deeper
                  · exact live index ((Nat.le_of_not_lt starts).trans contains.1) contains.2
                  · rw [shape]
                    exact live_append.mpr (.inr (all index ⟨segment, deeper, contains⟩))
                · rintro all index ⟨segment, member, contains⟩
                  have order := (pairwise_cons.mp sortedOther.ordered).1 segment member
                  have whole := behind index (filled.le.trans (order.trans contains.1))
                    (all index ⟨segment, mem_cons_of_mem other member, contains⟩)
                  rw [shape] at whole
                  rcases live_append.mp whole with ⟨before, also, holds⟩ | ahead
                  · exact absurd holds.2 (by have := short before also; have := contains.1; omega)
                  · exact ahead

theorem covers_iff (sorted : InOrder segments) (sortedOther : InOrder other) :
    covers segments other = true ↔ ∀ index, Live other index → Live segments index := by
  unfold covers
  by_cases empty : segments = []
  · rw [if_pos empty, decide_eq_true_eq, empty]
    constructor
    · rintro rfl index live
      exact live
    · intro all
      cases other with
      | nil => rfl
      | cons first rest =>
          obtain ⟨segment, absent, _⟩ := all first.start
            ⟨first, mem_cons_self, Nat.le_refl _, sortedOther.filled first mem_cons_self⟩
          cases absent
  · rw [if_neg empty]
    exact coversFrom_iff sorted sortedOther

end Covering

/-- The answers are exact. Both questions about overlaps assert that there is something to scan. -/
theorem queries_exact (segments other : List LiveSegment) (sorted : InOrder segments)
    (sortedOther : InOrder other) :
    (segments ≠ [] ∨ other = [] →
      ∃ answer, overlaps segments other = some answer ∧
        (answer = true ↔ ∃ index, Live segments index ∧ Live other index)) ∧
    (∀ start finish, start < finish →
      ∃ answer, overlapsSpan segments start finish = some answer ∧
        (answer = true ↔ ∃ index, (start ≤ index ∧ index < finish) ∧ Live segments index)) ∧
    (covers segments other = true ↔ ∀ index, Live other index → Live segments index) ∧
    ∀ pos, find segments pos ≤ segments.length ∧ ∀ place segment, segments[place]? = some segment →
      (pos < segment.finish ↔ find segments pos ≤ place) :=
  ⟨overlaps_spec sorted sortedOther, fun _ _ => overlapsSpan_spec sorted, covers_iff sorted sortedOther,
    find_partitioned sorted⟩

theorem queries_ofTouching :
    covers [⟨0, 5, 0⟩, ⟨5, 9, 1⟩] [⟨3, 7, 0⟩] = true ↔
      ∀ index, Live [⟨3, 7, 0⟩] index → Live [⟨0, 5, 0⟩, ⟨5, 9, 1⟩] index :=
  (queries_exact [⟨0, 5, 0⟩, ⟨5, 9, 1⟩] [⟨3, 7, 0⟩] ⟨by decide, by decide⟩ ⟨by decide, by decide⟩).2.2.1

/-- The empty range may not be asked for overlaps with a range that is not, nor any for an empty span. -/
theorem overlaps_ofEmpty :
    overlaps [] [⟨0, 5, 0⟩] = none ∧ overlapsSpan [⟨0, 5, 0⟩] 3 3 = none := ⟨rfl, rfl⟩

end EvmBackend.LiveRange
