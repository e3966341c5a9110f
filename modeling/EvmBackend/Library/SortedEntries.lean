/-
Finite maps as lists of entries with strictly increasing keys.

Insertion and removal are stated for a list that is split at an entry, which is
how a search tree reaches the place of a key.
-/

import Mathlib.Order.Basic
import Mathlib.Order.Defs.LinearOrder
import Mathlib.Data.List.Pairwise
import Mathlib.Tactic.Ring

namespace EvmBackend.SortedEntries

open List

variable {Entry Key : Type} [LinearOrder Key] (key : Entry → Key)

def Increasing (entries : List Entry) : Prop :=
  entries.Pairwise fun left right => key left < key right

def lookup (wanted : Key) (entries : List Entry) : Option Entry :=
  entries.find? fun entry => key entry = wanted

def insert (entry : Entry) : List Entry → List Entry
  | [] => [entry]
  | first :: rest =>
      if key entry = key first then entry :: rest
      else if key entry < key first then entry :: first :: rest
      else first :: insert entry rest

def remove (wanted : Key) (entries : List Entry) : List Entry :=
  entries.filter fun entry => key entry ≠ wanted

variable {key} {entry first : Entry} {wanted : Key} {entries before behind : List Entry}

theorem increasing_cons :
    Increasing key (first :: entries) ↔
      (∀ other ∈ entries, key first < key other) ∧ Increasing key entries :=
  pairwise_cons

theorem increasing_split :
    Increasing key (before ++ first :: behind) ↔
      Increasing key before ∧ Increasing key behind ∧
        (∀ other ∈ before, key other < key first) ∧ (∀ other ∈ behind, key first < key other) := by
  constructor
  · intro increasing
    obtain ⟨left, right, across⟩ := pairwise_append.mp increasing
    obtain ⟨above, rest⟩ := increasing_cons.mp right
    exact ⟨left, rest, fun other member => across other member first mem_cons_self, above⟩
  · rintro ⟨left, right, below, above⟩
    refine pairwise_append.mpr ⟨left, increasing_cons.mpr ⟨above, right⟩, ?_⟩
    intro lower lowerMember upper upperMember
    rcases mem_cons.mp upperMember with rfl | later
    · exact below lower lowerMember
    · exact (below lower lowerMember).trans (above upper later)

theorem lookup_eq_none (entries : List Entry) (absent : ∀ other ∈ entries, key other ≠ wanted) :
    lookup key wanted entries = none := by
  rw [lookup, find?_eq_none]
  intro other member same
  exact absent other member (of_decide_eq_true same)

theorem lookup_cons : lookup key wanted (first :: entries) =
    if key first = wanted then some first else lookup key wanted entries := by
  rw [lookup, find?_cons]
  by_cases same : key first = wanted
  · rw [decide_eq_true same, if_pos same]
  · rw [decide_eq_false same, if_neg same]
    rfl

theorem lookup_append : lookup key wanted (before ++ behind) =
    (lookup key wanted before).or (lookup key wanted behind) :=
  find?_append

theorem lookup_split (wanted : Key) (increasing : Increasing key (before ++ first :: behind)) :
    lookup key wanted (before ++ first :: behind) =
      if wanted = key first then some first
      else if wanted < key first then lookup key wanted before
      else lookup key wanted behind := by
  obtain ⟨_, _, below, above⟩ := increasing_split.mp increasing
  rw [lookup_append, lookup_cons]
  by_cases same : wanted = key first
  · rw [if_pos same.symm, if_pos same, lookup_eq_none before, Option.none_or]
    intro other member
    rw [same]
    exact (below other member).ne
  rw [if_neg (Ne.symm same), if_neg same]
  by_cases less : wanted < key first
  · rw [if_pos less, lookup_eq_none behind, Option.or_none]
    intro other member
    exact (less.trans (above other member)).ne'
  · have greater : key first < wanted := lt_of_le_of_ne (not_lt.mp less) (Ne.symm same)
    rw [if_neg less, lookup_eq_none before, Option.none_or]
    intro other member
    exact ((below other member).trans greater).ne

/-! ### Insertion -/

theorem mem_of_mem_insert {other : Entry} (member : other ∈ insert key entry entries) :
    other = entry ∨ other ∈ entries := by
  induction entries with
  | nil => exact Or.inl (mem_singleton.mp member)
  | cons first rest ih =>
      unfold insert at member
      split at member
      · rcases mem_cons.mp member with rfl | later
        · exact Or.inl rfl
        · exact Or.inr (mem_cons_of_mem first later)
      · split at member
        · exact mem_cons.mp member
        · rcases mem_cons.mp member with rfl | later
          · exact Or.inr mem_cons_self
          · exact (ih later).imp_right (mem_cons_of_mem first)

theorem increasing_insert (increasing : Increasing key entries) :
    Increasing key (insert key entry entries) := by
  induction entries with
  | nil => exact pairwise_singleton _ _
  | cons first rest ih =>
      obtain ⟨above, sorted⟩ := increasing_cons.mp increasing
      unfold insert
      by_cases same : key entry = key first
      · rw [if_pos same]
        exact increasing_cons.mpr ⟨fun other member => same ▸ above other member, sorted⟩
      rw [if_neg same]
      by_cases less : key entry < key first
      · rw [if_pos less]
        refine increasing_cons.mpr ⟨fun other member => ?_, increasing⟩
        rcases mem_cons.mp member with rfl | later
        · exact less
        · exact less.trans (above other later)
      · rw [if_neg less]
        refine increasing_cons.mpr ⟨fun other member => ?_, ih sorted⟩
        rcases mem_of_mem_insert member with rfl | later
        · exact lt_of_le_of_ne (not_lt.mp less) (Ne.symm same)
        · exact above other later

theorem lookup_insert (increasing : Increasing key entries) :
    lookup key wanted (insert key entry entries) =
      if wanted = key entry then some entry else lookup key wanted entries := by
  induction entries with
  | nil =>
      rw [insert, lookup_cons]
      by_cases same : wanted = key entry
      · rw [if_pos same.symm, if_pos same]
      · rw [if_neg (Ne.symm same), if_neg same]
  | cons first rest ih =>
      obtain ⟨above, sorted⟩ := increasing_cons.mp increasing
      unfold insert
      by_cases same : key entry = key first
      · rw [if_pos same, lookup_cons, lookup_cons, same]
        by_cases found : wanted = key first
        · rw [if_pos found.symm, if_pos found]
        · rw [if_neg (Ne.symm found), if_neg (Ne.symm found), if_neg found]
      rw [if_neg same]
      by_cases less : key entry < key first
      · rw [if_pos less, lookup_cons]
        by_cases found : wanted = key entry
        · rw [if_pos found.symm, if_pos found]
        · rw [if_neg (Ne.symm found), if_neg found]
      · rw [if_neg less, lookup_cons, ih sorted, lookup_cons]
        by_cases found : key first = wanted
        · rw [if_pos found, if_pos found, if_neg]
          rw [← found]
          exact Ne.symm same
        · rw [if_neg found, if_neg found]

theorem insert_split (entry : Entry) (increasing : Increasing key (before ++ first :: behind)) :
    insert key entry (before ++ first :: behind) =
      if key entry = key first then before ++ entry :: behind
      else if key entry < key first then insert key entry before ++ first :: behind
      else before ++ first :: insert key entry behind := by
  induction before with
  | nil =>
      simp only [nil_append, insert]
      split
      · rfl
      split
      · rfl
      · rfl
  | cons lower rest ih =>
      obtain ⟨above, sorted⟩ := increasing_cons.mp increasing
      have order : key lower < key first := above first (by simp)
      rw [List.cons_append, insert, ih sorted]
      by_cases same : key entry = key first
      · have greater : key lower < key entry := same ▸ order
        rw [if_pos same, if_pos same, if_neg greater.ne', if_neg greater.not_gt]
        rfl
      rw [if_neg same, if_neg same]
      by_cases less : key entry < key first
      · rw [if_pos less, if_pos less, insert]
        split
        · rfl
        split
        · rfl
        · rfl
      · have greater : key lower < key entry := order.trans_le (not_lt.mp less)
        rw [if_neg less, if_neg less, if_neg greater.ne', if_neg greater.not_gt]
        rfl

theorem increasing_remove (increasing : Increasing key entries) :
    Increasing key (remove key wanted entries) :=
  List.Pairwise.filter _ increasing

theorem lookup_remove {other : Key} : lookup key other (remove key wanted entries) =
    if other = wanted then none else lookup key other entries := by
  by_cases same : other = wanted
  · rw [if_pos same, lookup_eq_none _]
    intro entry member
    rw [same]
    exact of_decide_eq_true (mem_filter.mp member).2
  · rw [if_neg same]
    induction entries with
    | nil => rfl
    | cons first rest ih =>
        rw [lookup_cons, ← ih, remove, filter_cons]
        by_cases gone : key first = wanted
        · have other : ¬ key first = other := fun found => same (found.symm.trans gone)
          rw [if_neg (by simpa using gone), if_neg other]
          rfl
        · rw [if_pos (by simpa using gone), lookup_cons]
          rfl

theorem remove_eq_self (entries : List Entry) (absent : ∀ other ∈ entries, key other ≠ wanted) :
    remove key wanted entries = entries := by
  rw [remove, filter_eq_self]
  intro other member
  exact decide_eq_true (absent other member)

theorem remove_split (wanted : Key) (increasing : Increasing key (before ++ first :: behind)) :
    remove key wanted (before ++ first :: behind) =
      if wanted = key first then before ++ behind
      else if wanted < key first then remove key wanted before ++ first :: behind
      else before ++ first :: remove key wanted behind := by
  obtain ⟨_, _, below, above⟩ := increasing_split.mp increasing
  have parts : remove key wanted (before ++ first :: behind) =
      remove key wanted before ++ remove key wanted (first :: behind) := filter_append ..
  rw [parts]
  by_cases same : wanted = key first
  · have leftKept : remove key wanted before = before := remove_eq_self before fun other member =>
      same ▸ (below other member).ne
    have rightKept : remove key wanted behind = behind := remove_eq_self behind fun other member =>
      same ▸ (above other member).ne'
    rw [if_pos same, leftKept, remove, filter_cons, if_neg (by simpa using same.symm)]
    exact congrArg _ rightKept
  have kept : remove key wanted (first :: behind) = first :: remove key wanted behind := by
    rw [remove, filter_cons, if_pos (by simpa using Ne.symm same)]
    rfl
  rw [if_neg same, kept]
  by_cases less : wanted < key first
  · rw [if_pos less, remove_eq_self behind]
    intro other member
    exact (less.trans (above other member)).ne'
  · have greater : key first < wanted := lt_of_le_of_ne (not_lt.mp less) (Ne.symm same)
    rw [if_neg less, remove_eq_self before]
    intro other member
    exact ((below other member).trans greater).ne

/-! ### Equality -/

theorem lookup_head : lookup key (key first) (first :: entries) = some first := by
  rw [lookup_cons, if_pos rfl]

theorem lookup_below (increasing : Increasing key (first :: entries)) (less : wanted < key first) :
    lookup key wanted (first :: entries) = none := by
  apply lookup_eq_none
  intro other member
  rcases mem_cons.mp member with rfl | later
  · exact less.ne'
  · exact (less.trans ((increasing_cons.mp increasing).1 other later)).ne'

section Shown

variable {Shown : Type} {shown : Entry → Shown}
  (determines : ∀ {left right : Entry}, shown left = shown right → key left = key right)

include determines

theorem lookup_map_congr {others : List Entry} (same : entries.map shown = others.map shown)
    (wanted : Key) : (lookup key wanted entries).map shown = (lookup key wanted others).map shown := by
  induction entries generalizing others with
  | nil =>
      cases others with
      | nil => rfl
      | cons other rest => cases same
  | cons entry entries ih =>
      cases others with
      | nil => cases same
      | cons other others =>
          obtain ⟨head, tail⟩ := List.cons.inj same
          have keys := determines head
          rw [lookup_cons, lookup_cons, ← keys]
          split
          · exact congrArg some head
          · exact ih tail

omit determines in
theorem key_le_of_lookup {other : Entry} {others : List Entry}
    (increasing : Increasing key (entry :: entries))
    (same : ∀ wanted, (lookup key wanted (entry :: entries)).map shown =
      (lookup key wanted (other :: others)).map shown) : key entry ≤ key other := by
  rw [← not_lt]
  intro less
  have atOther := same (key other)
  rw [lookup_below increasing less, lookup_head] at atOther
  cases atOther

theorem map_eq_iff_lookup {others : List Entry} (increasing : Increasing key entries)
    (othersIncreasing : Increasing key others) :
    entries.map shown = others.map shown ↔
      ∀ wanted, (lookup key wanted entries).map shown = (lookup key wanted others).map shown := by
  refine ⟨fun same wanted => lookup_map_congr determines same wanted, ?_⟩
  induction entries generalizing others with
  | nil =>
      intro same
      cases others with
      | nil => rfl
      | cons other others =>
          have atOther := same (key other)
          rw [lookup_head] at atOther
          cases atOther
  | cons entry entries ih =>
      intro same
      cases others with
      | nil =>
          have atEntry := same (key entry)
          rw [lookup_head] at atEntry
          cases atEntry
      | cons other others =>
          have keys : key entry = key other := le_antisymm
            (key_le_of_lookup increasing same)
            (key_le_of_lookup othersIncreasing fun wanted => (same wanted).symm)
          obtain ⟨above, sorted⟩ := increasing_cons.mp increasing
          obtain ⟨othersAbove, othersSorted⟩ := increasing_cons.mp othersIncreasing
          have head : shown entry = shown other := by
            have atEntry := same (key entry)
            rw [lookup_head, keys, lookup_head] at atEntry
            exact Option.some.inj atEntry
          rw [map_cons, map_cons, head]
          congr 1
          apply ih sorted othersSorted
          intro wanted
          by_cases found : key entry = wanted
          · rw [lookup_eq_none entries, lookup_eq_none others]
            · intro later member
              rw [← found, keys]
              exact (othersAbove later member).ne'
            · intro later member
              rw [← found]
              exact (above later member).ne'
          · have elsewhere := same wanted
            rw [lookup_cons, lookup_cons, if_neg found, if_neg (keys ▸ found)] at elsewhere
            exact elsewhere

end Shown

end EvmBackend.SortedEntries
