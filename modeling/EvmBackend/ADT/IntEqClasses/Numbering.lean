/-
The number of a class is the number of leaders below its own. Compressing writes it
into every entry, and uncompressing leads every entry back to its leader at once.
-/

import EvmBackend.ADT.IntEqClasses
import Mathlib.Data.Nat.Count

namespace EvmBackend.IntEqClasses

open LeaderForests

variable {EC : List Nat} {classes : IntEqClasses} {a b leader : Nat}

def rank (EC : List Nat) : Nat → Nat := Nat.count fun element => parent EC element = element

structure Ranked (EC : List Nat) (classes : IntEqClasses) : Prop where
  length : classes.EC.length = EC.length
  count : classes.NumClasses = rank EC EC.length
  entries : ∀ element < EC.length, ∀ leader, Leads (parent EC) element leader →
    classes.EC[element]? = some (rank EC leader)

theorem rank_lt_iff (top : parent EC a = a) : rank EC a < rank EC b ↔ a < b := by
  constructor
  · intro less
    by_contra above
    exact less.not_ge (Nat.count_monotone _ (Nat.le_of_not_lt above))
  · exact Nat.count_strict_mono top

theorem rank_eq_iff (one : parent EC a = a) (two : parent EC b = b) : rank EC a = rank EC b ↔ a = b :=
  ⟨Nat.count_injective one two, congrArg _⟩

theorem rank_top (top : parent EC a = a) : rank EC (a + 1) = rank EC a + 1 := by
  unfold rank
  rw [Nat.count_succ, if_pos top]

theorem rank_below (below : parent EC a ≠ a) : rank EC (a + 1) = rank EC a := by
  unfold rank
  rw [Nat.count_succ, if_neg below, Nat.add_zero]

theorem exists_rank {count number : Nat} (less : number < rank EC count) :
    ∃ leader < count, parent EC leader = leader ∧ rank EC leader = number := by
  induction count with
  | zero => exact absurd less (Nat.not_lt_zero _)
  | succ count ih =>
      have smaller : number < rank EC count → ∃ leader < count + 1, parent EC leader = leader ∧
          rank EC leader = number :=
        fun below =>
          have ⟨leader, inside, found⟩ := ih below
          ⟨leader, Nat.lt_succ_of_lt inside, found⟩
      by_cases top : parent EC count = count
      · rw [rank_top top] at less
        rcases Nat.lt_succ_iff_lt_or_eq.mp less with below | last
        · exact smaller below
        · exact ⟨count, Nat.lt_succ_self count, top, last.symm⟩
      · rw [rank_below top] at less
        exact smaller less

structure Compressing (EC : List Nat) (index : Nat) (classes : IntEqClasses) : Prop where
  length : classes.EC.length = EC.length
  count : classes.NumClasses = rank EC index
  rest : ∀ element, index ≤ element → classes.EC[element]? = EC[element]?
  done : ∀ element < index, ∀ leader, Leads (parent EC) element leader →
    classes.EC[element]? = some (rank EC leader)

theorem Compressing.step (descending : Descending (parent EC)) {index : Nat}
    (compressing : Compressing EC index classes)
    (inside : index < EC.length) :
    ∃ next, compressEntry index classes = some next ∧ Compressing EC (index + 1) next := by
  have within : index < classes.EC.length := by
    rw [compressing.length]
    exact inside
  have entry : classes.EC[index]? = some (parent EC index) :=
    (compressing.rest index (Nat.le_refl _)).trans (getElem?_eq_parent inside)
  -- the entry is written, the others stay
  have written : ∀ (number count : Nat), (∀ leader, Leads (parent EC) index leader → number = rank EC leader) →
      count = rank EC (index + 1) → Compressing EC (index + 1) ⟨classes.EC.set index number, count⟩ := by
    intro number count isRank counted
    refine ⟨List.length_set.trans compressing.length, counted, fun element behind => ?_,
      fun element before leader leads => ?_⟩
    · rw [List.getElem?_set_ne (by omega)]
      exact compressing.rest element (by omega)
    · rcases Nat.lt_succ_iff_lt_or_eq.mp before with earlier | rfl
      · rw [List.getElem?_set_ne (by omega)]
        exact compressing.done element earlier leader leads
      · rw [List.getElem?_set_self within, isRank leader leads]
  unfold compressEntry
  dsimp only [bind]
  rw [entry, Option.bind_some]
  by_cases top : parent EC index = index
  · rw [if_pos top]
    refine ⟨_, rfl, written _ _ (fun leader leads => ?_) ?_⟩
    · rw [leads.at_top top]
      exact compressing.count
    · rw [rank_top top, compressing.count]
  · have below : parent EC index < index := lt_of_le_of_ne (descending index) top
    obtain ⟨leader, leads⟩ := exists_leads descending (parent EC index)
    rw [if_neg top, compressing.done _ below leader leads, Option.bind_some]
    refine ⟨_, rfl, written _ _ (fun other also => ?_) ?_⟩
    · rw [also.next.unique leads]
    · rw [rank_below top, compressing.count]

theorem compress_spec (descending : Descending (parent EC)) :
    ∃ compressed, compress ⟨EC, 0⟩ = some compressed ∧ Ranked EC compressed := by
  have start : Compressing EC 0 ⟨EC, 0⟩ :=
    ⟨rfl, Nat.count_zero _ |>.symm, fun _ _ => rfl, fun element less => absurd less (Nat.not_lt_zero element)⟩
  obtain ⟨compressed, ran, done⟩ := Runs.run_range (Compressing EC)
    (fun index inside state compressing => compressing.step descending inside) start
  exact ⟨compressed, ran, done.length, done.count, done.done⟩

/-- The leaders below the index in order, and the entries below it led back to theirs. -/
structure Uncompressing (EC numbers : List Nat) (index : Nat) (state : List Nat × List Nat) : Prop where
  length : state.2.length = EC.length
  count : state.1.length = rank EC index
  leaders : ∀ leader < index, parent EC leader = leader → state.1[rank EC leader]? = some leader
  rest : ∀ element, index ≤ element → state.2[element]? = numbers[element]?
  done : ∀ element < index, Leads (parent EC) element (parent state.2 element)

theorem Uncompressing.step (descending : Descending (parent EC)) (ranked : Ranked EC classes) {index : Nat}
    {state : List Nat × List Nat} (uncompressing : Uncompressing EC classes.EC index state)
    (inside : index < EC.length) :
    ∃ next, uncompressEntry index state = some next ∧ Uncompressing EC classes.EC (index + 1) next := by
  obtain ⟨found, entries⟩ := state
  have within : index < entries.length := uncompressing.length.symm ▸ inside
  obtain ⟨leader, leads⟩ := exists_leads descending index
  have entry : entries[index]? = some (rank EC leader) :=
    (uncompressing.rest index (Nat.le_refl _)).trans (ranked.entries index inside leader leads)
  have rest : ∀ element, index + 1 ≤ element → (entries.set index leader)[element]? = classes.EC[element]? := by
    intro element behind
    rw [List.getElem?_set_ne (by omega)]
    exact uncompressing.rest element (by omega)
  have done : ∀ element < index + 1, Leads (parent EC) element (parent (entries.set index leader) element) := by
    intro element before
    rw [parent_set within]
    rcases Nat.lt_succ_iff_lt_or_eq.mp before with earlier | rfl
    · rw [Function.update_of_ne earlier.ne]
      exact uncompressing.done element earlier
    · rw [Function.update_self]
      exact leads
  unfold uncompressEntry
  dsimp only [bind]
  rw [entry, Option.bind_some]
  rcases (leads.le descending).lt_or_eq with below | same
  · have old := uncompressing.leaders leader below leads.top
    have notTop : parent EC index ≠ index := fun top => below.ne (leads.at_top top)
    dsimp only at old
    rw [old]
    refine ⟨_, rfl, List.length_set.trans uncompressing.length, ?_, fun other less top => ?_, rest, done⟩
    · rw [rank_below notTop]
      exact uncompressing.count
    · rcases Nat.lt_succ_iff_lt_or_eq.mp less with earlier | last
      · exact uncompressing.leaders other earlier top
      · exact absurd (last ▸ top) notTop
  · subst same
    have count : found.length = rank EC leader := uncompressing.count
    rw [List.getElem?_eq_none count.le]
    refine ⟨_, rfl, List.length_set.trans uncompressing.length, ?_, fun other less top => ?_, rest, done⟩
    · rw [List.length_append, List.length_singleton, rank_top leads.top, count]
    · rcases Nat.lt_succ_iff_lt_or_eq.mp less with earlier | rfl
      · have old := uncompressing.leaders other earlier top
        have bound := (List.getElem?_eq_some_iff.mp old).1
        rw [List.getElem?_append_left bound]
        exact old
      · rw [← count, List.getElem?_concat_length]

theorem uncompress_spec (descending : Descending (parent EC)) (ranked : Ranked EC classes)
    (compressed : classes.NumClasses ≠ 0) :
    ∃ flat, uncompress classes = some ⟨flat, 0⟩ ∧ flat.length = EC.length ∧
      ∀ element, Leads (parent EC) element (parent flat element) := by
  have start : Uncompressing EC classes.EC 0 ([], classes.EC) :=
    ⟨ranked.length, Nat.count_zero _ |>.symm, fun leader less => absurd less (Nat.not_lt_zero leader),
      fun _ _ => rfl,
      fun element less => absurd less (Nat.not_lt_zero element)⟩
  obtain ⟨⟨found, flat⟩, ran, done⟩ := Runs.run_range (Uncompressing EC classes.EC)
    (fun index inside state uncompressing => uncompressing.step descending ranked inside) start
  refine ⟨flat, ?_, done.length, fun element => ?_⟩
  · unfold uncompress
    rw [if_neg compressed, ranked.length, ran]
    rfl
  · rcases Nat.lt_or_ge element EC.length with inside | outside
    · exact done.done element inside
    · rw [parent_outside (done.length.le.trans outside)]
      exact .here (parent_outside outside)

theorem findLeaderFrom_spec (descending : Descending (parent EC)) {rounds : Nat} (inside : a < EC.length)
    (enough : a < rounds) (leads : Leads (parent EC) a leader) : findLeaderFrom rounds a EC = some leader := by
  induction rounds generalizing a with
  | zero => exact absurd enough (Nat.not_lt_zero _)
  | succ rounds ih =>
      unfold findLeaderFrom
      dsimp only [bind]
      rw [getElem?_eq_parent inside, Option.bind_some]
      by_cases top : a = parent EC a
      · rw [if_neg (not_not_intro top), leads.at_top top.symm]
      · have below : parent EC a < a := lt_of_le_of_ne (descending a) (Ne.symm top)
        rw [if_pos top]
        exact ih (below.trans inside) (by omega) leads.next

end EvmBackend.IntEqClasses
