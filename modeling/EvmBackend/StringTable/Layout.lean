/-
Where the sorted strings are put.

A string is put behind all others (it is then a host) or into the end of the
last host. Hosts are apart, so the table holds every string at its offset.
-/

import EvmBackend.StringTable.Sorting

namespace EvmBackend.StringTable

open List

section Map

variable {map : List (List Byte × Nat)} {s t : List Byte} {offset : Nat}

theorem lookup_isSome_iff : (map.lookup s).isSome = true ↔ s ∈ map.map Prod.fst := by
  induction map with
  | nil => simp
  | cons entry map ih =>
      rw [List.lookup_cons, map_cons, mem_cons]
      by_cases same : s = entry.1
      · rw [beq_iff_eq.mpr same]
        exact iff_of_true rfl (.inl same)
      · rw [beq_eq_false_iff_ne.mpr same]
        exact ih.trans (or_iff_right same).symm

theorem fst_setOffset : (setOffset s offset map).map Prod.fst = map.map Prod.fst := by
  unfold setOffset
  rw [List.map_map]
  apply map_congr_left
  intro entry _
  change (if entry.1 = s then (s, offset) else entry).1 = entry.1
  by_cases same : entry.1 = s
  · rw [if_pos same, same]
  · rw [if_neg same]

theorem lookup_setOffset_self (known : s ∈ map.map Prod.fst) :
    (setOffset s offset map).lookup s = some offset := by
  induction map with
  | nil => exact absurd known (not_mem_nil)
  | cons entry map ih =>
      unfold setOffset at ih ⊢
      rw [map_cons, List.lookup_cons]
      by_cases same : entry.1 = s
      · rw [if_pos same, beq_self_eq_true]
      · rw [if_neg same, beq_eq_false_iff_ne.mpr (Ne.symm same)]
        rw [map_cons, mem_cons] at known
        exact ih (known.resolve_left (Ne.symm same))

theorem lookup_setOffset_ne (differs : t ≠ s) : (setOffset s offset map).lookup t = map.lookup t := by
  induction map with
  | nil => rfl
  | cons entry map ih =>
      unfold setOffset at ih ⊢
      rw [map_cons, List.lookup_cons, List.lookup_cons, ih]
      by_cases same : entry.1 = s
      · rw [if_pos same, same]
        dsimp only
        rw [beq_eq_false_iff_ne.mpr differs]
      · rw [if_neg same]

theorem lookup_assign_self : (assign s offset map).lookup s = some offset := by
  unfold assign
  by_cases known : (map.lookup s).isSome = true
  · rw [if_pos known]
    exact lookup_setOffset_self (lookup_isSome_iff.mp known)
  · rw [if_neg known, List.lookup_append, Option.not_isSome_iff_eq_none.mp known, Option.none_or,
      List.lookup_cons,
      beq_self_eq_true]

theorem lookup_assign_ne (differs : t ≠ s) : (assign s offset map).lookup t = map.lookup t := by
  unfold assign
  by_cases known : (map.lookup s).isSome = true
  · rw [if_pos known]
    exact lookup_setOffset_ne differs
  · rw [if_neg known, List.lookup_append, List.lookup_cons, beq_eq_false_iff_ne.mpr differs]
    exact Option.or_none

theorem nodup_assign (distinct : (map.map Prod.fst).Nodup) : ((assign s offset map).map Prod.fst).Nodup := by
  unfold assign
  by_cases known : (map.lookup s).isSome = true
  · rw [if_pos known, fst_setOffset]
    exact distinct
  · rw [if_neg known, map_append, map_singleton]
    refine nodup_append.mpr ⟨distinct, nodup_cons.mpr ⟨not_mem_nil, nodup_nil⟩, ?_⟩
    intro t member u also same
    rw [same, mem_singleton.mp also] at member
    exact known (lookup_isSome_iff.mpr member)

theorem mem_of_lookup (found : map.lookup s = some offset) : (s, offset) ∈ map := by
  induction map with
  | nil => cases found
  | cons entry map ih =>
      rw [List.lookup_cons] at found
      by_cases same : s = entry.1
      · rw [beq_iff_eq.mpr same] at found
        cases found
        rw [same]
        exact mem_cons_self
      · rw [beq_eq_false_iff_ne.mpr same] at found
        exact mem_cons_of_mem entry (ih found)

theorem lookup_of_mem (distinct : (map.map Prod.fst).Nodup) (member : (s, offset) ∈ map) :
    map.lookup s = some offset := by
  induction map with
  | nil => exact absurd member not_mem_nil
  | cons entry map ih =>
      rw [map_cons, nodup_cons] at distinct
      rw [List.lookup_cons]
      rcases mem_cons.mp member with rfl | deeper
      · rw [beq_self_eq_true]
      · have differs : s ≠ entry.1 := by
          intro same
          apply distinct.1
          rw [← same]
          exact List.mem_map_of_mem deeper
        rw [beq_eq_false_iff_ne.mpr differs]
        exact ih distinct.2 deeper

end Map

section Copies

theorem copy_spec {offset : Nat} {data table : List Byte} (fits : offset + data.length ≤ table.length) :
    ∃ next, copy offset data table = some next ∧ next.length = table.length ∧
      ∀ place, next[place]? = if offset ≤ place ∧ place < offset + data.length then data[place - offset]?
        else table[place]? := by
  unfold copy
  rw [if_pos fits]
  refine ⟨_, rfl, ?_, fun place => ?_⟩
  · rw [length_append, length_append, length_take, length_drop]
    omega
  · have front : (table.take offset).length = offset := length_take_of_le (by omega)
    by_cases early : place < offset
    · rw [if_neg (by omega), List.append_assoc, getElem?_append_left (by omega), getElem?_take,
        if_pos early]
    · by_cases inside : place < offset + data.length
      · rw [if_pos (by omega), List.append_assoc, getElem?_append_right (by omega), front,
          getElem?_append_left (by omega)]
      · rw [if_neg (by omega), List.append_assoc, getElem?_append_right (by omega), front,
          getElem?_append_right (by omega), getElem?_drop]
        congr 1
        omega

def Covers (entry : List Byte × Nat) (place : Nat) : Prop :=
  entry.2 ≤ place ∧ place < entry.2 + entry.1.length

theorem copyStrings_spec {entries : List (List Byte × Nat)} {table : List Byte}
    (fits : ∀ entry ∈ entries, entry.2 + entry.1.length ≤ table.length) :
    ∃ final, copyStrings entries table = some final ∧ final.length = table.length ∧
      ∀ place byte, (∀ entry ∈ entries, Covers entry place → entry.1[place - entry.2]? = some byte) →
        ((∃ entry ∈ entries, Covers entry place) ∨ table[place]? = some byte) → final[place]? = some byte := by
  induction entries generalizing table with
  | nil => exact ⟨table, rfl, rfl, fun place byte _ given =>
      given.resolve_left fun ⟨_, member, _⟩ => absurd member not_mem_nil⟩
  | cons entry entries ih =>
      obtain ⟨s, offset⟩ := entry
      have here := fits (s, offset) mem_cons_self
      obtain ⟨next, copied, length, bytes⟩ :
          ∃ next, (if s ≠ [] then copy offset s table else some table) = some next ∧
          next.length = table.length ∧ ∀ place, next[place]? =
            if offset ≤ place ∧ place < offset + s.length then s[place - offset]? else table[place]? := by
        by_cases some' : s ≠ []
        · rw [if_pos some']
          exact copy_spec here
        · have empty : s = [] := not_not.mp some'
          subst empty
          refine ⟨table, rfl, rfl, fun place => ?_⟩
          rw [if_neg (by rw [length_nil]; omega)]
      obtain ⟨final, ran, whole, others⟩ := @ih next fun entry member => by
        rw [length]
        exact fits entry (mem_cons_of_mem _ member)
      refine ⟨final, ?_, whole.trans length, fun place byte agrees given => ?_⟩
      · rw [copyStrings, copied, Option.bind_some]
        exact ran
      · apply others place byte fun entry member => agrees entry (mem_cons_of_mem _ member)
        by_cases covered : Covers (s, offset) place
        · right
          have inside : offset ≤ place ∧ place < offset + s.length := covered
          rw [bytes, if_pos inside]
          exact agrees (s, offset) mem_cons_self covered
        · rcases given with ⟨entry, member, covers⟩ | was
          · rcases mem_cons.mp member with rfl | deeper
            · exact absurd covers covered
            · exact .inl ⟨entry, deeper, covers⟩
          · right
            have outside : ¬ (offset ≤ place ∧ place < offset + s.length) := covered
            rw [bytes, if_neg outside]
            exact was

end Copies

theorem alignTo_spec (value : Nat) {align : Nat} (positive : 0 < align) :
    value ≤ alignTo value align ∧ align ∣ alignTo value align := by
  unfold alignTo
  refine ⟨?_, Nat.dvd_mul_left _ _⟩
  have parts := Nat.div_add_mod (value + align - 1) align
  have small := Nat.mod_lt (value + align - 1) positive
  rw [Nat.mul_comm] at parts
  omega

theorem and_pred_eq_zero (pos exponent : Nat) : pos &&& (2 ^ exponent - 1) = 0 ↔ 2 ^ exponent ∣ pos := by
  rw [Nat.and_two_pow_sub_one_eq_mod, Nat.dvd_iff_mod_eq_zero]

/-! ### Hosts -/

def EndsIn (s : List Byte) (offset : Nat) (host : List Byte × Nat) : Prop :=
  s <:+ host.1 ∧ offset + s.length = host.2 + host.1.length

/-- The layout of the strings placed so far, the last host the one that others are merged into. -/
structure Laid (k : Kind) (align : Nat) (keys placed : List (List Byte)) (layout : Layout)
    (hosts : List (List Byte × Nat)) (last : List Byte × Nat) : Prop where
  keys : layout.map.map Prod.fst = keys
  apart : (hosts ++ [last]).Pairwise fun left right => left.2 + left.1.length + terminator k ≤ right.2
  behind : ∀ host ∈ hosts ++ [last], initSize k ≤ host.2
  previous : layout.previous = last.1
  size : layout.size = last.2 + last.1.length + terminator k
  placed : ∀ s ∈ placed, ∃ offset, layout.map.lookup s = some offset ∧ align ∣ offset ∧
    ∃ host ∈ hosts ++ [last], EndsIn s offset host

section Placing

variable {k : Kind} {exponent : Nat} {keys placed : List (List Byte)} {layout : Layout}
  {hosts : List (List Byte × Nat)} {last : List Byte × Nat}

theorem placed_setOffset {others : List (List Byte × Nat)} {s : List Byte} {offset : Nat}
    (known : s ∈ layout.map.map Prod.fst) (fresh : s ∉ placed)
    (before : ∀ t ∈ placed, ∃ at', layout.map.lookup t = some at' ∧ 2 ^ exponent ∣ at' ∧
      ∃ host ∈ others, EndsIn t at' host)
    (aligned : 2 ^ exponent ∣ offset) (here : ∃ host ∈ others, EndsIn s offset host) :
    ∀ t ∈ placed ++ [s], ∃ at', (setOffset s offset layout.map).lookup t = some at' ∧ 2 ^ exponent ∣ at' ∧
      ∃ host ∈ others, EndsIn t at' host := by
  intro t member
  rcases mem_append.mp member with earlier | new
  · have differs : t ≠ s := fun same => fresh (same ▸ earlier)
    rw [lookup_setOffset_ne differs]
    exact before t earlier
  · rw [mem_singleton.mp new]
    exact ⟨offset, lookup_setOffset_self known, aligned, here⟩

section

variable (holds : Laid k (2 ^ exponent) keys placed layout hosts last)

include holds

theorem place_host {s : List Byte}
    (known : s ∈ keys)
    (fresh : s ∉ placed) :
    Laid k (2 ^ exponent) keys (placed ++ [s])
      ⟨setOffset s (alignTo layout.size (2 ^ exponent)) layout.map,
        alignTo layout.size (2 ^ exponent) + s.length + terminator k, s⟩
      (hosts ++ [last]) (s, alignTo layout.size (2 ^ exponent)) := by
  obtain ⟨beyond, aligned⟩ := alignTo_spec layout.size (Nat.two_pow_pos exponent)
  have ends : ∀ host ∈ hosts ++ [last], host.2 + host.1.length + terminator k ≤ layout.size := by
    intro host member
    rcases mem_append.mp member with earlier | final
    · have order := (pairwise_append.mp holds.apart).2.2 host earlier last (mem_singleton_self last)
      rw [holds.size]
      omega
    · rw [mem_singleton.mp final, holds.size]
  refine ⟨fst_setOffset.trans holds.keys, ?_, ?_, rfl, rfl, ?_⟩
  · refine pairwise_append.mpr ⟨holds.apart, pairwise_singleton _ _, fun host member other also => ?_⟩
    rw [mem_singleton.mp also]
    exact (ends host member).trans beyond
  · intro host member
    rcases mem_append.mp member with earlier | final
    · exact holds.behind host earlier
    · rw [mem_singleton.mp final]
      have least := holds.behind last (mem_append_right hosts (mem_singleton_self last))
      have reach := ends last (mem_append_right hosts (mem_singleton_self last))
      change initSize k ≤ alignTo layout.size (2 ^ exponent)
      omega
  · have stands : s ∈ layout.map.map Prod.fst := by
      rw [holds.keys]
      exact known
    refine placed_setOffset stands fresh (fun t member => ?_) aligned
      ⟨_, mem_append_right _ (mem_singleton_self _), suffix_refl s, rfl⟩
    obtain ⟨offset, found, divides, host, inHosts, ending⟩ := holds.placed t member
    exact ⟨offset, found, divides, host, mem_append_left _ inHosts, ending⟩

theorem place_laid {s : List Byte}
    (known : s ∈ keys)
    (fresh : s ∉ placed) :
    ∃ hosts' last', Laid k (2 ^ exponent) keys (placed ++ [s]) (place k (2 ^ exponent) layout s) hosts'
      last' := by
  unfold place
  dsimp only
  by_cases merges : s <:+ layout.previous ∧ (layout.size - s.length - terminator k) &&& (2 ^ exponent - 1) = 0
  · rw [if_pos merges]
    obtain ⟨ending, aligned⟩ := merges
    rw [and_pred_eq_zero] at aligned
    rw [holds.previous] at ending
    have length := ending.length_le
    have here : EndsIn s (layout.size - s.length - terminator k) last := by
      refine ⟨ending, ?_⟩
      rw [holds.size]
      omega
    have stands : s ∈ layout.map.map Prod.fst := by
      rw [holds.keys]
      exact known
    exact ⟨hosts, last, fst_setOffset.trans holds.keys, holds.apart, holds.behind, holds.previous, holds.size,
      placed_setOffset stands fresh holds.placed aligned
        ⟨last, mem_append_right _ (mem_singleton_self _), here⟩⟩
  · rw [if_neg merges]
    exact ⟨_, _, place_host holds known fresh⟩

theorem foldl_place_laid {rest : List (List Byte)}
    (known : ∀ s ∈ rest, s ∈ keys) (distinct : (placed ++ rest).Nodup) :
    ∃ hosts' last', Laid k (2 ^ exponent) keys (placed ++ rest) (rest.foldl (place k (2 ^ exponent)) layout)
      hosts' last' := by
  induction rest generalizing placed layout hosts last with
  | nil =>
      rw [append_nil]
      exact ⟨hosts, last, holds⟩
  | cons s rest ih =>
      have fresh : s ∉ placed := fun member =>
        (nodup_append.mp distinct).2.2 s member s mem_cons_self rfl
      obtain ⟨next, host, stepped⟩ := place_laid holds (known s mem_cons_self) fresh
      have shape : placed ++ s :: rest = (placed ++ [s]) ++ rest := by
        rw [List.append_assoc, singleton_append]
      rw [shape] at distinct ⊢
      exact ih stepped (forall_mem_cons.mp known).2 distinct

end

theorem place_first {map : List (List Byte × Nat)} {s : List Byte} (known : s ∈ map.map Prod.fst)
    (behind : ¬ (s = [] ∧ 2 ^ exponent ∣ initSize k - terminator k)) :
    ∃ last, Laid k (2 ^ exponent) (map.map Prod.fst) [s] (place k (2 ^ exponent) ⟨map, initSize k, []⟩ s)
      [] last := by
  have alone : ¬ (s <:+ [] ∧ (initSize k - s.length - terminator k) &&& (2 ^ exponent - 1) = 0) := by
    intro merges
    apply behind
    rw [and_pred_eq_zero] at merges
    have empty : s = [] := suffix_nil.mp merges.1
    subst empty
    exact ⟨rfl, merges.2⟩
  obtain ⟨beyond, aligned⟩ := alignTo_spec (initSize k) (Nat.two_pow_pos exponent)
  unfold place
  dsimp only
  rw [if_neg alone]
  refine ⟨(s, alignTo (initSize k) (2 ^ exponent)), fst_setOffset, pairwise_singleton _ _, ?_, rfl, rfl, ?_⟩
  · intro host member
    rw [nil_append, mem_singleton] at member
    rw [member]
    exact beyond
  · intro t member
    rw [mem_singleton.mp member]
    exact ⟨_, lookup_setOffset_self known, aligned, _, mem_singleton_self _, suffix_refl s, rfl⟩

end Placing

/-- The strings of a layout in order: all are in hosts, unless there is only the empty one, in the header. -/
theorem layout_laid {k : Kind} {exponent : Nat} {map : List (List Byte × Nat)} {first : List Byte}
    {rest : List (List Byte)} (perm : (first :: rest).Perm (map.map Prod.fst))
    (distinct : (map.map Prod.fst).Nodup)
    (behind : ¬ (first = [] ∧ 2 ^ exponent ∣ initSize k - terminator k)) :
    ∃ hosts last, Laid k (2 ^ exponent) (map.map Prod.fst) (first :: rest)
      ((first :: rest).foldl (place k (2 ^ exponent)) ⟨map, initSize k, []⟩) hosts last := by
  obtain ⟨last, started⟩ := place_first (perm.mem_iff.mp mem_cons_self) behind
  exact foldl_place_laid started (fun s member => perm.mem_iff.mp (mem_cons_of_mem first member))
    (perm.nodup_iff.mpr distinct)

end EvmBackend.StringTable
