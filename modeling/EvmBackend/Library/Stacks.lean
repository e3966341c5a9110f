/-
Stacks as lists with the top first: exchange of the top with a deeper entry,
copying of an entry, and the depth of an entry.

The operations are partial because they read an entry that may not exist. They
commute with mapping the entries, which is all a simulation between a stack of
names and a stack of values needs, and they permute or extend the entries,
which is all a counting argument needs.
-/

import Mathlib.Data.List.Perm.Basic
import Mathlib.Data.List.Count

namespace EvmBackend.Stacks

open List

variable {α β : Type*}

def swapTop : Nat → List α → Option (List α)
  | 0, entries => some entries
  | _ + 1, [] => none
  | below + 1, top :: rest =>
      (rest[below]?).map fun other => other :: rest.set below top

def dupTop (depth : Nat) (entries : List α) : Option (List α) :=
  (entries[depth]?).map (· :: entries)

def depthOf [DecidableEq α] (entry : α) : List α → Option Nat
  | [] => none
  | top :: rest => if top = entry then some 0 else (depthOf entry rest).map (· + 1)

theorem swapTop_map (values : α → β) (depth : Nat) (entries : List α) :
    swapTop depth (entries.map values) = (swapTop depth entries).map (List.map values) := by
  cases depth with
  | zero => rfl
  | succ below =>
      cases entries with
      | nil => rfl
      | cons top rest =>
          simp only [map_cons, swapTop, getElem?_map]
          cases rest[below]? with
          | none => rfl
          | some other => simp [map_set]

theorem dupTop_map (values : α → β) (depth : Nat) (entries : List α) :
    dupTop depth (entries.map values) = (dupTop depth entries).map (List.map values) := by
  unfold dupTop
  rw [getElem?_map]
  cases entries[depth]? <;> rfl

variable {depth : Nat}

theorem swapTop_getElem? {entries swapped : List α}
    (exchanged : swapTop depth entries = some swapped) (index : Nat) :
    swapped[index]? = if index = 0 then entries[depth]?
      else if index = depth then entries[0]? else entries[index]? := by
  cases depth with
  | zero =>
      cases exchanged
      by_cases top : index = 0
      · subst index
        rfl
      · rw [if_neg top, if_neg top]
  | succ below =>
      cases entries with
      | nil => cases exchanged
      | cons top rest =>
          obtain ⟨other, found, rfl⟩ := Option.map_eq_some_iff.mp exchanged
          obtain ⟨within, _⟩ := List.getElem?_eq_some_iff.mp found
          cases index with
          | zero => simp [found]
          | succ later =>
              simp only [getElem?_cons_succ, getElem?_set, getElem?_cons_zero]
              by_cases same : below = later
              · subst later
                simp [within]
              · simp [same, Ne.symm same]

theorem swapTop_below (top other : α) (between rest : List α) :
    swapTop (between.length + 1) (top :: (between ++ other :: rest)) =
      some (other :: (between ++ top :: rest)) := by
  simp [swapTop]

theorem swapTop_isSome {entries : List α} (within : depth < entries.length) :
    ∃ swapped, swapTop depth entries = some swapped := by
  cases depth with
  | zero => exact ⟨entries, rfl⟩
  | succ below =>
      cases entries with
      | nil => simp at within
      | cons top rest =>
          have bound : below < rest.length := by simpa using within
          exact ⟨rest[below] :: rest.set below top,
            by simp [swapTop, List.getElem?_eq_getElem bound]⟩

theorem swapTop_append {entries swapped : List α} (base : List α)
    (exchanged : swapTop depth entries = some swapped) :
    swapTop depth (entries ++ base) = some (swapped ++ base) := by
  cases depth with
  | zero =>
      cases exchanged
      rfl
  | succ below =>
      cases entries with
      | nil => cases exchanged
      | cons top rest =>
          obtain ⟨other, found, rfl⟩ := Option.map_eq_some_iff.mp exchanged
          have within := (List.getElem?_eq_some_iff.mp found).1
          simp only [List.cons_append, swapTop, getElem?_append_left within, found,
            Option.map_some, set_append_left _ _ within]

theorem swapTop_lt {entries swapped : List α} (deep : depth ≠ 0)
    (exchanged : swapTop depth entries = some swapped) : depth < entries.length := by
  cases depth with
  | zero => exact absurd rfl deep
  | succ below =>
      cases entries with
      | nil => cases exchanged
      | cons top rest =>
          obtain ⟨other, found, _⟩ := Option.map_eq_some_iff.mp exchanged
          have within := (List.getElem?_eq_some_iff.mp found).1
          rw [length_cons]
          omega

theorem swapTop_perm {entries swapped : List α} (exchanged : swapTop depth entries = some swapped) :
    swapped.Perm entries := by
  cases depth with
  | zero =>
      cases exchanged
      exact List.Perm.refl _
  | succ below =>
      cases entries with
      | nil => cases exchanged
      | cons top rest =>
          obtain ⟨other, found, rfl⟩ := Option.map_eq_some_iff.mp exchanged
          obtain ⟨within, rfl⟩ := List.getElem?_eq_some_iff.mp found
          have split := getElem_cons_drop within
          have put : rest.set below top = rest.take below ++ top :: rest.drop (below + 1) :=
            set_eq_take_append_cons_drop.trans (if_pos within)
          have whole : rest = rest.take below ++ rest[below] :: rest.drop (below + 1) := by
            rw [split, take_append_drop]
          rw [put]
          have raised : (rest[below] :: (rest.take below ++ top :: rest.drop (below + 1))).Perm
              (rest[below] :: top :: (rest.take below ++ rest.drop (below + 1))) :=
            List.Perm.cons _ perm_middle
          have lowered : (rest[below] :: (rest.take below ++ rest.drop (below + 1))).Perm rest := by
            conv_rhs => rw [whole]
            exact perm_middle.symm
          exact (raised.trans (List.Perm.swap _ _ _)).trans (List.Perm.cons top lowered)

theorem dupTop_isSome {entries : List α} (within : depth < entries.length) :
    ∃ copied, dupTop depth entries = some copied :=
  ⟨entries[depth] :: entries, by simp [dupTop, within]⟩

theorem dupTop_eq_some {entries copied : List α} (duplicated : dupTop depth entries = some copied) :
    ∃ entry, entries[depth]? = some entry ∧ copied = entry :: entries := by
  obtain ⟨entry, found, rfl⟩ := Option.map_eq_some_iff.mp duplicated
  exact ⟨entry, found, rfl⟩

variable [DecidableEq α]

theorem depthOf_eq_some {entry : α} {entries : List α}
    (found : depthOf entry entries = some depth) :
    entries[depth]? = some entry ∧ ∀ index < depth, entries[index]? ≠ some entry := by
  induction entries generalizing depth with
  | nil => cases found
  | cons top rest ih =>
      unfold depthOf at found
      by_cases same : top = entry
      · rw [if_pos same] at found
        cases found
        exact ⟨by simp [same], by intro index impossible; omega⟩
      · rw [if_neg same] at found
        obtain ⟨below, deeper, rfl⟩ := Option.map_eq_some_iff.mp found
        obtain ⟨here, earlier⟩ := ih deeper
        refine ⟨by simpa using here, fun index bound => ?_⟩
        cases index with
        | zero => simpa using same
        | succ index =>
            simpa using earlier index (by omega)

theorem depthOf_isSome {entry : α} {entries : List α} (member : entry ∈ entries) :
    ∃ depth, depthOf entry entries = some depth := by
  induction entries with
  | nil => cases member
  | cons top rest ih =>
      unfold depthOf
      by_cases same : top = entry
      · exact ⟨0, if_pos same⟩
      · obtain ⟨below, deeper⟩ := ih ((mem_cons.mp member).resolve_left (Ne.symm same))
        exact ⟨below + 1, by rw [if_neg same, deeper]; rfl⟩

theorem depthOf_eq_of_first {entry : α} {entries : List α} (here : entries[depth]? = some entry)
    (earlier : ∀ index < depth, entries[index]? ≠ some entry) :
    depthOf entry entries = some depth := by
  obtain ⟨found, known⟩ := depthOf_isSome (mem_of_getElem? here)
  obtain ⟨atFound, beforeFound⟩ := depthOf_eq_some known
  have notBefore : ¬ found < depth := fun less => earlier found less atFound
  have notAfter : ¬ depth < found := fun less => beforeFound depth less here
  rw [known]
  congr 1
  omega

theorem depthOf_lt {entry : α} {entries : List α} (found : depthOf entry entries = some depth) :
    depth < entries.length :=
  (List.getElem?_eq_some_iff.mp (depthOf_eq_some found).1).1

end EvmBackend.Stacks
