/-
Taking entries out of a stack one after another: each one is exchanged with the
top and popped, so what was on top takes its place.

The depths of the exchanges are found on one stack. The code they give can be
run on any other stack, of names or of values; nothing below the entries that
are taken out is touched.
-/

import EvmBackend.Library.Runs
import EvmBackend.Library.Stacks

namespace EvmBackend.Stacks

open List Option

variable {α β : Type*}

inductive Shuffle
  | swap (depth : Nat)
  | pop
  deriving DecidableEq, Repr

def Shuffle.effect : Shuffle → List α → Option (List α)
  | .swap depth, entries => swapTop depth entries
  | .pop, [] => none
  | .pop, _ :: rest => some rest

def discardCode (depth : Nat) : List Shuffle :=
  if depth = 0 then [.pop] else [.swap depth, .pop]

def discard [DecidableEq α] : List α → List α → Option (List Nat × List α)
  | [], entries => some ([], entries)
  | entry :: others, entries =>
      (depthOf entry entries).bind fun depth =>
        (swapTop depth entries).bind fun swapped =>
          (discard others swapped.tail).map fun found => (depth :: found.1, found.2)

/-! ### Running shuffles -/

theorem Shuffle.effect_map (values : α → β) (shuffle : Shuffle) (entries : List α) :
    shuffle.effect (entries.map values) = (shuffle.effect entries).map (List.map values) := by
  cases shuffle with
  | swap depth => exact swapTop_map values depth entries
  | pop => cases entries <;> rfl

theorem run_effect_map (values : α → β) (code : List Shuffle) (entries : List α) :
    Runs.run Shuffle.effect code (entries.map values) =
      (Runs.run Shuffle.effect code entries).map (List.map values) := by
  induction code generalizing entries with
  | nil => rfl
  | cons first rest ih =>
      rw [Runs.run_cons, Runs.run_cons, first.effect_map]
      cases first.effect entries with
      | none => rfl
      | some next => exact ih next

theorem run_effect_subperm {code : List Shuffle} {entries after : List α}
    (done : Runs.run Shuffle.effect code entries = some after) : after.Subperm entries := by
  induction code generalizing entries with
  | nil =>
      cases done
      exact List.Subperm.refl _
  | cons first rest ih =>
      obtain ⟨next, stepped, later⟩ := Runs.run_cons_eq_some _ done
      apply (ih later).trans
      cases first with
      | swap depth => exact (swapTop_perm stepped).subperm
      | pop =>
          cases entries with
          | nil => cases stepped
          | cons top others =>
              cases stepped
              exact (sublist_cons_self top _).subperm

theorem length_run_effect {code : List Shuffle} {entries after : List α}
    (done : Runs.run Shuffle.effect code entries = some after) :
    after.length + code.count .pop = entries.length := by
  induction code generalizing entries with
  | nil =>
      cases done
      rfl
  | cons first rest ih =>
      obtain ⟨next, stepped, later⟩ := Runs.run_cons_eq_some _ done
      have known := ih later
      cases first with
      | swap depth =>
          rw [(swapTop_perm stepped).length_eq] at known
          simpa using known
      | pop =>
          cases entries with
          | nil => cases stepped
          | cons top others =>
              cases stepped
              simp only [count_cons_self, length_cons]
              omega

theorem count_pop_discardCode (depths : List Nat) :
    (depths.flatMap discardCode).count .pop = depths.length := by
  induction depths with
  | nil => rfl
  | cons depth others ih =>
      rw [flatMap_cons, count_append, ih, length_cons]
      have one : (discardCode depth).count .pop = 1 := by
        unfold discardCode
        split <;> rfl
      omega

theorem discardCode_reverse {depths : List Nat} (nonempty : depths ≠ []) :
    ∃ code, (depths.flatMap discardCode).reverse = .pop :: code := by
  induction depths with
  | nil => exact absurd rfl nonempty
  | cons depth others ih =>
      rw [flatMap_cons, List.reverse_append]
      cases others with
      | nil =>
          unfold discardCode
          split
          · exact ⟨[], rfl⟩
          · exact ⟨[.swap depth], rfl⟩
      | cons second rest =>
          obtain ⟨code, same⟩ := ih (cons_ne_nil second rest)
          rw [same]
          exact ⟨code ++ (discardCode depth).reverse, rfl⟩

theorem run_discardCode {depth : Nat} {entries swapped : List α}
    (exchanged : swapTop depth entries = some swapped) (nonempty : swapped ≠ []) :
    Runs.run Shuffle.effect (discardCode depth) entries = some swapped.tail := by
  have popped : Shuffle.pop.effect swapped = some swapped.tail := by
    cases swapped with
    | nil => exact absurd rfl nonempty
    | cons top rest => rfl
  unfold discardCode
  by_cases top : depth = 0
  · subst depth
    cases exchanged
    rw [if_pos rfl, Runs.run_cons, popped]
    rfl
  · rw [if_neg top, Runs.run_cons]
    change (swapTop depth entries).bind _ = _
    rw [exchanged, bind_some, Runs.run_cons, popped]
    rfl

/-! ### Discarding -/

variable [DecidableEq α]

theorem discard_cons_eq_some {entry : α} {others entries rest : List α} {depths : List Nat}
    (done : discard (entry :: others) entries = some (depths, rest)) :
    ∃ depth later below, depths = depth :: later ∧ depthOf entry entries = some depth ∧
      swapTop depth entries = some (entry :: below) ∧ discard others below = some (later, rest) := by
  obtain ⟨depth, found, done⟩ := bind_eq_some_iff.mp done
  obtain ⟨swapped, exchanged, done⟩ := bind_eq_some_iff.mp done
  obtain ⟨⟨later, left⟩, known, same⟩ := map_eq_some_iff.mp done
  cases same
  have top : swapped[0]? = some entry := by
    rw [swapTop_getElem? exchanged, if_pos rfl]
    exact (depthOf_eq_some found).1
  cases swapped with
  | nil => cases top
  | cons first below =>
      cases top
      exact ⟨depth, later, below, rfl, found, exchanged, known⟩

theorem discard_perm {gone entries rest : List α} {depths : List Nat}
    (done : discard gone entries = some (depths, rest)) : entries.Perm (gone ++ rest) := by
  induction gone generalizing entries depths with
  | nil =>
      cases done
      exact List.Perm.refl _
  | cons entry others ih =>
      obtain ⟨depth, later, below, _, _, exchanged, known⟩ := discard_cons_eq_some done
      exact (swapTop_perm exchanged).symm.trans ((ih known).cons entry)

theorem length_of_discard {gone entries rest : List α} {depths : List Nat}
    (done : discard gone entries = some (depths, rest)) : depths.length = gone.length := by
  induction gone generalizing entries depths with
  | nil =>
      cases done
      rfl
  | cons entry others ih =>
      obtain ⟨depth, later, below, rfl, _, _, known⟩ := discard_cons_eq_some done
      rw [length_cons, length_cons, ih known]

theorem discard_isSome {gone entries : List α}
    (enough : ∀ entry ∈ gone, gone.count entry ≤ entries.count entry) :
    ∃ depths rest, discard gone entries = some (depths, rest) := by
  induction gone generalizing entries with
  | nil => exact ⟨[], entries, rfl⟩
  | cons entry others ih =>
      have held : entry ∈ entries := by
        apply count_pos_iff.mp
        have least := enough entry mem_cons_self
        rw [count_cons_self] at least
        omega
      obtain ⟨depth, found⟩ := depthOf_isSome held
      obtain ⟨swapped, exchanged⟩ := swapTop_isSome (depthOf_lt found)
      have top : swapped[0]? = some entry := by
        rw [swapTop_getElem? exchanged, if_pos rfl]
        exact (depthOf_eq_some found).1
      cases swapped with
      | nil => cases top
      | cons first below =>
          cases top
          have still : ∀ other ∈ others, others.count other ≤ below.count other := by
            intro other member
            have least := enough other (mem_cons_of_mem entry member)
            rw [← (swapTop_perm exchanged).count_eq other, count_cons, count_cons] at least
            omega
          obtain ⟨later, rest, known⟩ := ih still
          refine ⟨depth :: later, rest, ?_⟩
          simp only [discard, found, exchanged, bind_some, tail_cons, known,
            map_some]

theorem run_discard {gone entries rest : List α} {depths : List Nat}
    (done : discard gone entries = some (depths, rest)) :
    Runs.run Shuffle.effect (depths.flatMap discardCode) entries = some rest := by
  induction gone generalizing entries depths with
  | nil =>
      cases done
      rfl
  | cons entry others ih =>
      obtain ⟨depth, later, below, rfl, _, exchanged, known⟩ := discard_cons_eq_some done
      rw [flatMap_cons, Runs.run_append,
        run_discardCode exchanged (cons_ne_nil entry below), bind_some]
      exact ih known

def Exhausts (gone entries : List α) : Prop :=
  ∀ entry ∈ gone, gone.count entry = entries.count entry

instance (gone entries : List α) : Decidable (Exhausts gone entries) :=
  inferInstanceAs (Decidable (∀ entry ∈ gone, gone.count entry = entries.count entry))

theorem exhausts_iff {gone entries rest : List α} (same : entries.Perm (gone ++ rest)) :
    Exhausts gone entries ↔ ∀ entry ∈ gone, entry ∉ rest := by
  apply forall₂_congr
  intro entry _
  have counts := same.count_eq entry
  rw [count_append] at counts
  rw [← count_eq_zero]
  omega

theorem exhausts_cons_iff {gone entries : List α} {top : α} (stays : top ∉ gone) :
    Exhausts gone (top :: entries) ↔ Exhausts gone entries := by
  apply forall₂_congr
  intro entry member
  have other : top ≠ entry := by
    rintro rfl
    exact stays member
  rw [count_cons_of_ne other]

theorem Exhausts.discard_isSome {gone entries : List α} (every : Exhausts gone entries) :
    ∃ depths rest, discard gone entries = some (depths, rest) :=
  Stacks.discard_isSome fun entry member => Nat.le_of_eq (every entry member)

theorem Exhausts.rest_perm {gone entries rest : List α} (every : Exhausts gone entries)
    (same : entries.Perm (gone ++ rest)) :
    rest.Perm (entries.filter fun entry => entry ∉ gone) := by
  rw [perm_iff_count]
  intro entry
  have counts := same.count_eq entry
  rw [count_append] at counts
  by_cases member : entry ∈ gone
  · have absent : (entries.filter fun entry => entry ∉ gone).count entry = 0 := by
      apply count_eq_zero.mpr
      simp [member]
    rw [absent]
    have all := every entry member
    omega
  · rw [count_filter (by simpa using member), counts, count_eq_zero.mpr member,
      Nat.zero_add]

theorem exists_last_discarded {gone entries : List α} (exist : ∃ entry ∈ entries, entry ∈ gone) :
    ∃ above entry below, entries = above ++ entry :: below ∧ entry ∈ gone ∧
      ∀ other ∈ gone, other ∉ below := by
  induction entries with
  | nil => simp at exist
  | cons top rest ih =>
      by_cases later : ∃ entry ∈ rest, entry ∈ gone
      · obtain ⟨above, entry, below, same, member, clear⟩ := ih later
        exact ⟨top :: above, entry, below, by rw [same]; rfl, member, clear⟩
      · obtain ⟨entry, held, member⟩ := exist
        rcases mem_cons.mp held with rfl | deeper
        · refine ⟨[], entry, rest, rfl, member, ?_⟩
          intro other isGone inRest
          exact later ⟨other, inRest, isGone⟩
        · exact absurd ⟨entry, deeper, member⟩ later

/-- The code found on one stack, run on another: entries below all those taken
out stay where they are, whatever they are, and the part above shrinks alike. -/
theorem run_discard_above {gone upper below rest : List α} {depths : List Nat}
    (done : discard gone (upper ++ below) = some (depths, rest))
    (clear : ∀ entry ∈ gone, entry ∉ below) {high : List β} (low : List β)
    (alike : high.length = upper.length) :
    ∃ upper' high', rest = upper' ++ below ∧ high'.length = upper'.length ∧
      Runs.run Shuffle.effect (depths.flatMap discardCode) (high ++ low) = some (high' ++ low) := by
  induction gone generalizing upper high depths with
  | nil =>
      cases done
      exact ⟨upper, high, rfl, alike, rfl⟩
  | cons entry others ih =>
      obtain ⟨depth, later, under, rfl, found, exchanged, known⟩ := discard_cons_eq_some done
      have within : depth < upper.length := by
        have here := (depthOf_eq_some found).1
        by_contra outside
        rw [getElem?_append_right (Nat.le_of_not_lt outside)] at here
        exact clear entry mem_cons_self (mem_of_getElem? here)
      have clearLater : ∀ other ∈ others, other ∉ below :=
        fun other member => clear other (mem_cons_of_mem entry member)
      match upper, high, alike with
      | [], _, _ => simp at within
      | top :: uppers, [], alike => simp at alike
      | top :: uppers, first :: highs, alike =>
          have lengths : highs.length = uppers.length := by simpa using alike
          rw [flatMap_cons, Runs.run_append]
          cases depth with
          | zero =>
              cases exchanged
              obtain ⟨upper', high', left, alike', ran⟩ := ih known clearLater lengths
              refine ⟨upper', high', left, alike', ?_⟩
              rw [← ran]
              rfl
          | succ under' =>
              have inUppers : under' < uppers.length := by simpa using within
              have inHighs : under' < highs.length := by rw [lengths]; exact inUppers
              have moved : swapTop (under' + 1) ((first :: highs) ++ low) =
                  some (highs[under'] :: (highs.set under' first ++ low)) := by
                simp only [List.cons_append, swapTop, getElem?_append_left inHighs,
                  List.getElem?_eq_getElem inHighs, map_some,
                  set_append_left _ _ inHighs]
              have same : under = uppers.set under' top ++ below := by
                simp only [List.cons_append, swapTop, getElem?_append_left inUppers,
                  List.getElem?_eq_getElem inUppers, map_some, Option.some.injEq,
                  List.cons.injEq, set_append_left _ _ inUppers] at exchanged
                exact exchanged.2.symm
              rw [same] at known
              have stillAlike : (highs.set under' first).length = (uppers.set under' top).length := by
                rw [length_set, length_set, lengths]
              obtain ⟨upper', high', left, alike', ran⟩ := ih known clearLater stillAlike
              refine ⟨upper', high', left, alike', ?_⟩
              rw [run_discardCode moved (cons_ne_nil _ _), bind_some]
              exact ran

section Top

variable {gone entries rest : List α} {depths : List Nat}
variable (done : discard gone entries = some (depths, rest)) (every : Exhausts gone entries)
variable (top : gone.Perm (entries.take gone.length))

include done every top

/-- Entries that are the top of the stack, in any order: any other stack loses as
many entries from its top. -/
private theorem discard_of_top (values : List β) (enough : gone.length ≤ values.length) :
    rest = entries.drop gone.length ∧
      Runs.run Shuffle.effect (depths.flatMap discardCode) values =
        some (values.drop gone.length) := by
  have clear : ∀ entry ∈ gone, entry ∉ entries.drop gone.length := by
    intro entry member
    have counts := every entry member
    rw [← take_append_drop gone.length entries, count_append, ← top.count_eq] at counts
    exact count_eq_zero.mp (by omega)
  have above : discard gone (entries.take gone.length ++ entries.drop gone.length) =
      some (depths, rest) := by
    rw [take_append_drop]
    exact done
  have size : (entries.take gone.length).length = gone.length := top.length_eq.symm
  have alike : (values.take gone.length).length = (entries.take gone.length).length := by
    rw [size, length_take]
    omega
  obtain ⟨upper, high, left, same, ran⟩ :=
    run_discard_above above clear (values.drop gone.length) alike
  have nothing : upper = [] := by
    have whole := (discard_perm done).length_eq
    rw [left, length_append, length_append, length_drop] at whole
    rw [length_take] at size
    exact length_eq_zero_iff.mp (by omega)
  subst upper
  rw [length_nil] at same
  rw [length_eq_zero_iff.mp same, nil_append, take_append_drop] at ran
  exact ⟨left, ran⟩

theorem discard_top_rest : rest = entries.drop gone.length := by
  have count := top.length_eq
  rw [length_take] at count
  exact (discard_of_top done every top entries (by omega)).1

theorem run_discard_top_pop (value : β) (values : List β) (enough : gone.length ≤ values.length) :
    Runs.run Shuffle.effect (depths.flatMap discardCode ++ [.pop]) (value :: values) =
      some (values.drop gone.length) := by
  have longer : gone.length ≤ (value :: values).length := Nat.le_succ_of_le enough
  have within : gone.length < (value :: values).length := Nat.lt_succ_of_le enough
  rw [Runs.run_append, (discard_of_top done every top _ longer).2, bind_some,
    drop_eq_getElem_cons within]
  rfl

end Top

end EvmBackend.Stacks
