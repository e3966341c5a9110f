/-
Finalized tables: every string is found at its offset, and with alignment one a
suffix of another string takes no room.

The one exception is the table of the empty string alone for the format that
has the size of the table, its lowest byte last, in front of the strings.
-/

import EvmBackend.StringTable.Layout
import Mathlib.Data.List.Dedup
import Mathlib.Data.List.Pairwise
import Mathlib.Data.Option.Basic

namespace EvmBackend.StringTable

open List

theorem guard_bind {Value : Type} {property : Prop} [Decidable property] (holds : property)
    (next : Option Value) :
    ((guard property : Option Unit).bind fun _ => next) = next := by
  rw [(Option.guard_eq_some' ()).mpr holds, Option.bind_some]

theorem add_spec {builder : StringTableBuilder} {s : List Byte} (unfinished : builder.finalized = false)
    (long : builder.k = .WinCOFF → 8 < s.length) (distinct : (builder.stringIndexMap.map Prod.fst).Nodup) :
    ∃ next offset, builder.add s = some (next, offset) ∧ next.k = builder.k ∧ next.alignment = builder.alignment ∧
      next.finalized = false ∧ (next.stringIndexMap.map Prod.fst).Nodup ∧
      ∀ t, t ∈ next.stringIndexMap.map Prod.fst ↔ t ∈ builder.stringIndexMap.map Prod.fst ∨ t = s := by
  unfold StringTableBuilder.add
  dsimp only [bind, pure]
  have checked : ∀ rest : Option (StringTableBuilder × Nat),
      (if builder.k = .WinCOFF then (guard (8 < s.length) : Option Unit).bind fun _ => rest else rest) =
        rest := by
    intro rest
    by_cases coff : builder.k = .WinCOFF
    · rw [if_pos coff, guard_bind (long coff)]
    · rw [if_neg coff]
  rw [checked, guard_bind unfinished]
  cases found : builder.stringIndexMap.lookup s with
  | some offset =>
      refine ⟨builder, offset, rfl, rfl, rfl, unfinished, distinct, fun t => ?_⟩
      have known : s ∈ builder.stringIndexMap.map Prod.fst := by
        rw [← lookup_isSome_iff, found]
        rfl
      exact ⟨.inl, fun either => either.elim id fun same => same ▸ known⟩
  | none =>
      have unknown : s ∉ builder.stringIndexMap.map Prod.fst := by
        rw [← lookup_isSome_iff, found]
        exact Bool.false_ne_true
      refine ⟨_, _, rfl, rfl, rfl, unfinished, ?_, fun t => ?_⟩
      · rw [map_append, map_singleton]
        refine nodup_append.mpr ⟨distinct, nodup_cons.mpr ⟨not_mem_nil, nodup_nil⟩, ?_⟩
        intro t member u also same
        rw [same, mem_singleton.mp also] at member
        exact unknown member
      · rw [map_append, map_singleton, mem_append, mem_singleton]

theorem addAll_spec {strings : List (List Byte)} {builder : StringTableBuilder}
    (unfinished : builder.finalized = false) (long : builder.k = .WinCOFF → ∀ s ∈ strings, 8 < s.length)
    (distinct : (builder.stringIndexMap.map Prod.fst).Nodup) :
    ∃ next, StringTableBuilder.addAll strings builder = some next ∧ next.k = builder.k ∧
      next.alignment = builder.alignment ∧ (next.stringIndexMap.map Prod.fst).Nodup ∧
      ∀ t, t ∈ next.stringIndexMap.map Prod.fst ↔ t ∈ builder.stringIndexMap.map Prod.fst ∨ t ∈ strings := by
  induction strings generalizing builder with
  | nil => exact ⟨builder, rfl, rfl, rfl, distinct, fun t => (or_iff_left not_mem_nil).symm⟩
  | cons s strings ih =>
      obtain ⟨next, offset, added, kind, align, still, nodup, keys⟩ :=
        add_spec unfinished (fun coff => long coff s mem_cons_self) distinct
      obtain ⟨last, ran, kind', align', nodup', keys'⟩ := @ih next still
        (fun coff t member => long (kind ▸ coff) t (mem_cons_of_mem s member)) nodup
      refine ⟨last, ?_, kind'.trans kind, align'.trans align, nodup', fun t => ?_⟩
      · rw [StringTableBuilder.addAll, added]
        exact ran
      · rw [keys', keys, mem_cons, or_assoc]

theorem added_spec {k : Kind} {strings : List (List Byte)} (alignment : Nat)
    (long : k = .WinCOFF → ∀ s ∈ strings, 8 < s.length) :
    ∃ builder, StringTableBuilder.addAll strings (StringTableBuilder.create k alignment) = some builder ∧
      builder.k = k ∧ builder.alignment = alignment ∧ (builder.stringIndexMap.map Prod.fst).Nodup ∧
      ∀ s, s ∈ builder.stringIndexMap.map Prod.fst ↔ s ∈ strings := by
  obtain ⟨builder, ran, kind, align, distinct, keys⟩ :=
    @addAll_spec strings (StringTableBuilder.create k alignment) rfl long nodup_nil
  exact ⟨builder, ran, kind, align, distinct, fun s => (keys s).trans (or_iff_right not_mem_nil)⟩

/-! ### Sizes without alignment -/

def Covered (strings : List (List Byte)) (s : List Byte) : Prop := ∃ t ∈ strings, t ≠ s ∧ s <:+ t

instance (strings : List (List Byte)) (s : List Byte) : Decidable (Covered strings s) :=
  inferInstanceAs (Decidable (∃ _ ∈ _, _))

def room (k : Kind) (strings : List (List Byte)) (s : List Byte) : Nat :=
  if Covered strings s then 0 else s.length + terminator k

theorem alignTo_one (value : Nat) : alignTo value 1 = value := by
  unfold alignTo
  rw [Nat.add_sub_cancel, Nat.div_one, Nat.mul_one]

theorem place_one (k : Kind) (layout : Layout) (s : List Byte) :
    (place k 1 layout s).size =
    (if s <:+ layout.previous then layout.size else layout.size + s.length + terminator k) ∧
      (place k 1 layout s).previous = if s <:+ layout.previous then layout.previous else s := by
  unfold place
  dsimp only
  rw [Nat.sub_self, Nat.and_zero, alignTo_one]
  by_cases ending : s <:+ layout.previous
  · have merges : s <:+ layout.previous ∧ 0 = 0 := ⟨ending, rfl⟩
    rw [if_pos merges, if_pos ending, if_pos ending]
    exact ⟨rfl, rfl⟩
  · have stands : ¬ (s <:+ layout.previous ∧ 0 = 0) := fun merges => ending merges.1
    rw [if_neg stands, if_neg ending, if_neg ending]
    exact ⟨rfl, rfl⟩

theorem foldl_place_size {k : Kind} {front rest : List (List Byte)} {u : List Byte} {layout : Layout}
    (order : Descending 0 (front ++ u :: rest)) (distinct : (front ++ u :: rest).Nodup)
    (ending : u <:+ layout.previous) (member : layout.previous ∈ front ++ [u]) :
    (rest.foldl (place k 1) layout).size = layout.size + (rest.map (room k (front ++ u :: rest))).sum := by
  induction rest generalizing front u layout with
  | nil => rw [foldl_nil, map_nil, sum_nil, Nat.add_zero]
  | cons s rest ih =>
      have shape : front ++ u :: s :: rest = (front ++ [u]) ++ s :: rest := by
        rw [List.append_assoc, singleton_append]
      obtain ⟨size, previous⟩ := place_one k layout s
      have merges : s <:+ layout.previous ↔ Covered (front ++ u :: s :: rest) s := by
        constructor
        · intro suffix
          refine ⟨layout.previous, ?_, ?_, suffix⟩
          · rw [shape]
            exact mem_append_left _ member
          · intro same
            rw [shape] at distinct
            exact (nodup_append.mp distinct).2.2 _ member s mem_cons_self same
        · rintro ⟨t, inStrings, other, suffix⟩
          exact (suffix_of_previous order distinct inStrings suffix other).trans ending
      rw [foldl_cons, map_cons, sum_cons]
      have step := @ih (front ++ [u]) s (place k 1 layout s) (shape ▸ order) (shape ▸ distinct) ?_ ?_
      · rw [← shape] at step
        rw [step, size]
        unfold room
        by_cases suffix : s <:+ layout.previous
        · rw [if_pos suffix, if_pos (merges.mp suffix), Nat.zero_add]
        · rw [if_neg suffix, if_neg fun covered => suffix (merges.mpr covered), Nat.add_assoc, Nat.add_assoc,
            Nat.add_assoc]
      · rw [previous]
        by_cases suffix : s <:+ layout.previous
        · rw [if_pos suffix]
          exact suffix
        · rewrite [if_neg suffix]
          exact suffix_refl s
      · rw [previous]
        by_cases suffix : s <:+ layout.previous
        · rw [if_pos suffix]
          exact mem_append_left [s] member
        · rw [if_neg suffix]
          exact mem_append_right _ (mem_singleton_self s)

theorem first_ne_nil {first : List Byte} {rest : List (List Byte)} (order : Descending 0 (first :: rest))
    (distinct : (first :: rest).Nodup) (some' : rest ≠ []) : first ≠ [] := by
  intro empty
  subst empty
  obtain ⟨s, others, rfl⟩ := exists_cons_of_ne_nil some'
  exact @not_suffix_behind [] (s :: others) [] s order distinct mem_cons_self (nil_suffix)

theorem layout_size {k : Kind} {strings : List (List Byte)} (order : Descending 0 strings)
    (distinct : strings.Nodup) (some' : ∃ s ∈ strings, s ≠ []) (map : List (List Byte × Nat)) :
    (strings.foldl (place k 1) ⟨map, initSize k, []⟩).size =
      initSize k + (strings.map (room k strings)).sum := by
  cases strings with
  | nil =>
      obtain ⟨s, member, -⟩ := some'
      exact absurd member not_mem_nil
  | cons first rest =>
      have filled : first ≠ [] := by
        cases rest with
        | nil =>
            obtain ⟨s, member, nonempty⟩ := some'
            rw [← mem_singleton.mp member]
            exact nonempty
        | cons next others => exact first_ne_nil order distinct (cons_ne_nil next others)
      have stands : ¬ first <:+ [] := fun ending => filled (suffix_nil.mp ending)
      obtain ⟨size, previous⟩ := place_one k ⟨map, initSize k, []⟩ first
      rw [if_neg stands] at size previous
      have own : ¬ Covered (first :: rest) first := by
        rintro ⟨t, member, other, ending⟩
        rcases mem_cons.mp member with rfl | behind
        · exact other rfl
        · exact @not_suffix_behind [] rest first t order distinct behind ending
      have others := @foldl_place_size k [] rest first (place k 1 ⟨map, initSize k, []⟩ first) order distinct
        (by rewrite [previous]; exact suffix_refl first)
          (by rw [previous]; exact mem_singleton_self first)
      have cost : room k (first :: rest) first = first.length + terminator k := if_neg own
      rw [nil_append] at others
      rw [foldl_cons, others, size, map_cons, sum_cons, cost]
      dsimp only
      omega

/-! ### The table -/

def Found (k : Kind) (table : List Byte) (s : List Byte) (offset : Nat) : Prop :=
  offset + s.length + terminator k ≤ table.length ∧
    (∀ index < s.length, table[offset + index]? = s[index]?) ∧
    (k ≠ .RAW → table[offset + s.length]? = some 0)

theorem getElem?_suffix {s host : List Byte} {offset start : Nat} (ending : EndsIn s offset (host, start))
    {place : Nat} (inside : offset ≤ place) : s[place - offset]? = host[place - start]? := by
  obtain ⟨⟨front, rfl⟩, reach⟩ := ending
  dsimp only at reach
  rw [length_append] at reach
  have index : place - start = front.length + (place - offset) := by omega
  rw [index, getElem?_append_right (Nat.le_add_right _ _), Nat.add_sub_cancel_left]

section Written

variable {k : Kind} {exponent : Nat} {keys placed : List (List Byte)} {layout : Layout}
  {hosts : List (List Byte × Nat)} {last : List Byte × Nat}

section

variable (holds : Laid k (2 ^ exponent) keys placed layout hosts last)

include holds

theorem Laid.same_host {one two : List Byte × Nat}
    (inHosts : one ∈ hosts ++ [last]) (also : two ∈ hosts ++ [last]) {place : Nat}
    (covered : one.2 ≤ place ∧ place < one.2 + one.1.length + terminator k)
    (covers : two.2 ≤ place ∧ place < two.2 + two.1.length + terminator k) : one = two := by
  by_contra differs
  have either : (hosts ++ [last]).Pairwise fun left right =>
      left.2 + left.1.length + terminator k ≤ right.2 ∨ right.2 + right.1.length + terminator k ≤ left.2 :=
    holds.apart.imp Or.inl
  have symmetric : Std.Symm fun left right : List Byte × Nat =>
      left.2 + left.1.length + terminator k ≤ right.2 ∨ right.2 + right.1.length + terminator k ≤ left.2 :=
    ⟨fun _ _ order => order.symm⟩
  have apart := either.forall inHosts also differs
  omega

theorem Laid.host_end {host : List Byte × Nat}
    (inHosts : host ∈ hosts ++ [last]) : host.2 + host.1.length + terminator k ≤ layout.size := by
  rcases mem_append.mp inHosts with earlier | final
  · have order := (pairwise_append.mp holds.apart).2.2 host earlier last (mem_singleton_self last)
    rw [holds.size]
    omega
  · rw [mem_singleton.mp final, holds.size]

theorem copied_found
    {entries : List (List Byte × Nat)}
    {size : Nat} (large : layout.size ≤ size)
    (inHosts : ∀ entry ∈ entries, entry.1 ≠ [] → ∃ host ∈ hosts ++ [last], EndsIn entry.1 entry.2 host)
    (empty : ∀ entry ∈ entries, entry.1 = [] → entry.2 ≤ size) :
    ∃ table, copyStrings entries (List.replicate size 0) = some table ∧ table.length = size ∧
      (∀ place < initSize k, place < size → table[place]? = some 0) ∧
      ∀ entry ∈ entries, ∀ host ∈ hosts ++ [last], EndsIn entry.1 entry.2 host → initSize k ≤ entry.2 ∧
        Found k table entry.1 entry.2 := by
  have fits : ∀ entry ∈ entries, entry.2 + entry.1.length ≤ (List.replicate size (0 : Byte)).length := by
    intro entry member
    rw [length_replicate]
    by_cases none : entry.1 = []
    · have low := empty entry member none
      rw [none, length_nil]
      exact low
    · obtain ⟨host, inside, ending, reach⟩ := inHosts entry member none
      have limit := holds.host_end inside
      omega
  obtain ⟨table, ran, length, bytes⟩ := copyStrings_spec fits
  rw [length_replicate] at length
  refine ⟨table, ran, length, fun place low small => ?_, fun entry member host inside ending => ?_⟩
  · apply bytes
    · intro other also covers
      have filled : other.1 ≠ [] := by
        intro none
        unfold Covers at covers
        rw [none, length_nil] at covers
        omega
      obtain ⟨home, inHome, ending⟩ := inHosts other also filled
      have least := holds.behind home inHome
      have shorter := ending.1.length_le
      have reach := ending.2
      unfold Covers at covers
      omega
    · right
      exact getElem?_replicate_of_lt small
  obtain ⟨s, offset⟩ := entry
  obtain ⟨text, start⟩ := host
  obtain ⟨suffix, reach⟩ := ending
  have shorter := suffix.length_le
  have limit := holds.host_end inside
  have least := holds.behind (text, start) inside
  dsimp only at suffix reach limit least shorter ⊢
  -- a place of the host is covered by strings of the host only
  have owner : ∀ place, start ≤ place → place < start + text.length + terminator k → ∀ other ∈ entries,
      Covers other place → EndsIn other.1 other.2 (text, start) := by
    intro place low high other also covers
    have filled : other.1 ≠ [] := by
      intro none
      unfold Covers at covers
      rw [none, length_nil] at covers
      omega
    obtain ⟨home, inHome, ending⟩ := inHosts other also filled
    have shorter' := ending.1.length_le
    have reach' := ending.2
    unfold Covers at covers
    have same := holds.same_host inside inHome ⟨low, high⟩ ⟨by omega, by omega⟩
    rw [same]
    exact ending
  refine ⟨by omega, by omega, fun index small => ?_, fun ended => ?_⟩
  · have value : s[index]? = text[offset + index - start]? := by
      have part := getElem?_suffix ⟨suffix, reach⟩ (Nat.le_add_right offset index)
      rw [Nat.add_sub_cancel_left] at part
      exact part
    rw [value]
    obtain ⟨byte, known⟩ : ∃ byte, text[offset + index - start]? = some byte :=
      ⟨_, List.getElem?_eq_getElem (by omega)⟩
    rw [known]
    apply bytes
    · intro other also covers
      rw [getElem?_suffix (owner (offset + index) (by omega) (by omega) other also covers) covers.1]
      exact known
    · exact .inl ⟨(s, offset), member, by omega, by dsimp only; omega⟩
  · have behind : terminator k = 1 := if_pos ended
    apply bytes
    · intro other also covers
      have ending := owner (offset + s.length) (by omega) (by omega) other also covers
      have reach' := ending.2
      unfold Covers at covers
      dsimp only at reach'
      omega
    · right
      exact getElem?_replicate_of_lt (by omega)

end

end Written

theorem writeSize_spec {k : Kind} {size : Nat} {table : List Byte} (length : table.length = size)
    (least : initSize k ≤ size) :
    ∃ final, writeSize k size table = some final ∧ final.length = size ∧
      (∀ place, initSize k ≤ place → final[place]? = table[place]?) ∧
      (k ≠ .WinCOFF → k ≠ .XCOFF → final = table) := by
  have stored : ∀ data : List Byte, data.length = 4 → initSize k = 4 → ∃ final, copy 0 data table = some final ∧
      final.length = size ∧ ∀ place, initSize k ≤ place → final[place]? = table[place]? := by
    intro data four header
    obtain ⟨final, ran, same, bytes⟩ := @copy_spec 0 data table (by omega)
    refine ⟨final, ran, same.trans length, fun place behind => ?_⟩
    rw [bytes, if_neg (by omega)]
  cases k with
  | WinCOFF =>
      obtain ⟨final, ran, same, bytes⟩ := stored (bytesOfWord size) rfl rfl
      exact ⟨final, ran, same, bytes, fun differs => absurd rfl differs⟩
  | XCOFF =>
      obtain ⟨final, ran, same, bytes⟩ := stored (bytesOfWord size).reverse rfl rfl
      exact ⟨final, ran, same, bytes, fun _ differs => absurd rfl differs⟩
  | ELF | MachO | RAW | DWARF => exact ⟨table, rfl, length, fun _ _ => rfl, fun _ _ => rfl⟩

def layoutOf (builder : StringTableBuilder) : Layout :=
  (multikeySort (builder.stringIndexMap.map Prod.fst) 0).foldl (place builder.k builder.alignment)
    ⟨builder.stringIndexMap, initSize builder.k, []⟩

theorem finalize_eq {builder : StringTableBuilder} (notDwarf : builder.k ≠ .DWARF) :
    builder.finalize = some { builder with
      finalized := true
      size := if builder.k = .MachO then alignTo (layoutOf builder).size 4 else (layoutOf builder).size
      stringIndexMap :=
        if builder.k = .ELF then assign [] 0 (layoutOf builder).map else (layoutOf builder).map } := by
  unfold StringTableBuilder.finalize
  rw [if_pos notDwarf]
  rfl

theorem write_eq {builder : StringTableBuilder} (done : builder.finalized = true) :
    builder.write = (copyStrings builder.stringIndexMap (List.replicate builder.size 0)).bind
      (writeSize builder.k builder.size) := by
  unfold StringTableBuilder.write
  dsimp only [bind, pure]
  rw [guard_bind done]

/-- The table has every string at its offset, whatever the orders of the map. -/
def Returns (k : Kind) (alignment : Nat) (strings : List (List Byte)) : Prop :=
  ∃ builder, StringTableBuilder.addAll strings (StringTableBuilder.create k alignment) = some builder ∧
    ∀ order, order.Perm builder.stringIndexMap →
      ∃ final, ({ builder with stringIndexMap := order } : StringTableBuilder).finalize = some final ∧
        ∀ entries, entries.Perm final.stringIndexMap →
          ∃ table, ({ final with stringIndexMap := entries } : StringTableBuilder).write = some table ∧
            table.length = final.size ∧
            ∀ s ∈ strings, ∃ offset, final.getOffset s = some offset ∧ alignment ∣ offset ∧ Found k table s offset

def FinalSize (k : Kind) (alignment : Nat) (strings : List (List Byte)) (size : Nat) : Prop :=
  ∃ builder order final,
    StringTableBuilder.addAll strings (StringTableBuilder.create k alignment) = some builder ∧
      order.Perm builder.stringIndexMap ∧
      ({ builder with stringIndexMap := order } : StringTableBuilder).finalize = some final ∧ final.size = size

def rounded (k : Kind) (size : Nat) : Nat := if k = .MachO then alignTo size 4 else size

/-- Behind the header the table has room for the strings that are no suffix of
another one, and for nothing else. -/
def Merges (k : Kind) (strings : List (List Byte)) : Prop :=
  (∃ s ∈ strings, s ≠ []) → ∀ size, FinalSize k 1 strings size →
    size = rounded k (initSize k + (strings.dedup.map (room k strings)).sum)

/-- Only the empty string is added, and put into the header that ends with the size. -/
def EmptyInHeader (k : Kind) (exponent : Nat) (strings : List (List Byte)) : Prop :=
  k = .XCOFF ∧ exponent = 0 ∧ strings ≠ [] ∧ ∀ s ∈ strings, s = []

section Finalized

variable {k : Kind} {exponent : Nat}

theorem finalized_found {builder : StringTableBuilder} {keys : List (List Byte)} {hosts : List (List Byte × Nat)}
    {last : List Byte × Nat} (kind : builder.k = k) (distinct : keys.Nodup) (notDwarf : k ≠ .DWARF)
    (holds : Laid k (2 ^ exponent) keys keys (layoutOf builder) hosts last) :
    ∃ final, builder.finalize = some final ∧
      ∀ entries, entries.Perm final.stringIndexMap →
        ∃ table, ({ final with stringIndexMap := entries } : StringTableBuilder).write = some table ∧
          table.length = final.size ∧
          ∀ s ∈ keys, ∃ offset, final.getOffset s = some offset ∧ 2 ^ exponent ∣ offset ∧
            Found k table s offset := by
  subst kind
  have lastEnd := holds.host_end (mem_append_right hosts (mem_singleton_self last))
  have least := holds.behind last (mem_append_right hosts (mem_singleton_self last))
  refine ⟨_, finalize_eq notDwarf, fun entries perm => ?_⟩
  dsimp only at perm
  generalize sized : (if builder.k = .MachO then alignTo (layoutOf builder).size 4 else (layoutOf builder).size) =
    size at perm ⊢
  have large : (layoutOf builder).size ≤ size := by
    rw [← sized]
    by_cases mach : builder.k = .MachO
    · rw [if_pos mach]
      exact (alignTo_spec _ (by decide)).1
    · rw [if_neg mach]
  generalize mapped : (if builder.k = .ELF then assign [] 0 (layoutOf builder).map else (layoutOf builder).map) =
    map at perm ⊢
  have nodup : (map.map Prod.fst).Nodup := by
    have before : ((layoutOf builder).map.map Prod.fst).Nodup := holds.keys ▸ distinct
    rw [← mapped]
    by_cases elf : builder.k = .ELF
    · rw [if_pos elf]
      exact nodup_assign before
    · rw [if_neg elf]
      exact before
  -- the empty string of an ELF table is at the front, all others are where the layout has them
  have looked : ∀ s, ¬ (builder.k = .ELF ∧ s = []) → map.lookup s = (layoutOf builder).map.lookup s := by
    intro s other
    rw [← mapped]
    by_cases elf : builder.k = .ELF
    · rw [if_pos elf]
      exact lookup_assign_ne fun empty => other ⟨elf, empty⟩
    · rw [if_neg elf]
  have front : builder.k = .ELF → map.lookup [] = some 0 := by
    intro elf
    rw [← mapped, if_pos elf]
    exact lookup_assign_self
  have stands : ∀ s offset, (s, offset) ∈ entries → ¬ (builder.k = .ELF ∧ s = []) →
      ∃ host ∈ hosts ++ [last], EndsIn s offset host := by
    intro s offset member other
    have found := lookup_of_mem nodup (perm.mem_iff.mp member)
    rw [looked s other] at found
    have known : s ∈ keys := by
      rw [← holds.keys, ← lookup_isSome_iff, found]
      rfl
    obtain ⟨same, also, -, host, inHosts, ending⟩ := holds.placed s known
    rw [found] at also
    cases also
    exact ⟨host, inHosts, ending⟩
  obtain ⟨table, copied, length, zeros, found⟩ := copied_found holds large
    (fun entry member filled => stands entry.1 entry.2 member fun both => filled both.2)
      (fun entry member empty => by
      by_cases elf : builder.k = .ELF
      · have place := lookup_of_mem nodup (perm.mem_iff.mp member)
        rw [empty, front elf] at place
        exact (Option.some.inj place).symm.trans_le (Nat.zero_le _)
      · obtain ⟨host, inHosts, ending, reach⟩ := stands entry.1 entry.2 member fun both => elf both.1
        have limit := holds.host_end inHosts
        omega)
  obtain ⟨final, stored, whole, behind, same⟩ := @writeSize_spec builder.k size table length (by omega)
  refine ⟨final, ?_, whole, fun s known => ?_⟩
  · rw [write_eq rfl, copied, Option.bind_some]
    exact stored
  · by_cases atFront : builder.k = .ELF ∧ s = []
    · obtain ⟨elf, empty⟩ := atFront
      subst empty
      have one : initSize builder.k = 1 := by
        rw [elf]
        rfl
      have ended : terminator builder.k = 1 := by
        rw [elf]
        rfl
      have kept := same (by rw [elf]; decide) (by rw [elf]; decide)
      refine ⟨0, front elf, Nat.dvd_zero _, ?_,
        fun index small => absurd small (Nat.not_lt_zero index), fun _ => ?_⟩
      · rw [length_nil]
        omega
      · rw [kept]
        exact zeros 0 (by omega) (by omega)
    · obtain ⟨offset, place, aligned, host, inHosts, ending⟩ := holds.placed s known
      have here := looked s atFront
      rw [place] at here
      have member : (s, offset) ∈ entries := perm.mem_iff.mpr (mem_of_lookup here)
      obtain ⟨low, limit, text, terminated⟩ := found (s, offset) member host inHosts ending
      dsimp only at low limit text terminated
      refine ⟨offset, here, aligned, ?_, fun index small => ?_, fun ends => ?_⟩
      · omega
      · rw [behind _ (by omega)]
        exact text index small
      · rw [behind _ (by omega)]
        exact terminated ends

theorem finalized_front {builder : StringTableBuilder} {offset : Nat} (kind : builder.k = k)
    (align : builder.alignment = 2 ^ exponent) (alone : builder.stringIndexMap = [([], offset)])
    (front : k = .RAW ∨ k = .ELF ∨ k = .MachO) :
    ∃ final, builder.finalize = some final ∧
      ∀ entries, entries.Perm final.stringIndexMap →
        ∃ table, ({ final with stringIndexMap := entries } : StringTableBuilder).write = some table ∧
          table.length = final.size ∧
          ∃ offset, final.getOffset [] = some offset ∧ 2 ^ exponent ∣ offset ∧ Found k table [] offset := by
  have pos : initSize k - ([] : List Byte).length - terminator k = 0 := by
    rcases front with rfl | rfl | rfl <;> rfl
  have layout : layoutOf builder = ⟨[([], 0)], initSize k, []⟩ := by
    unfold layoutOf
    rw [alone, kind, align]
    have sorted : multikeySort ([(([] : List Byte), offset)].map Prod.fst) 0 = [[]] := by
      rw [map_singleton, multikeySort]
    rw [sorted, foldl_cons, foldl_nil]
    unfold place
    dsimp only
    rw [pos, Nat.zero_and, if_pos (And.intro (suffix_refl []) rfl)]
    rfl
  have notDwarf : builder.k ≠ .DWARF := by
    rw [kind]
    rcases front with rfl | rfl | rfl <;> decide
  refine ⟨_, finalize_eq notDwarf, fun entries perm => ?_⟩
  rw [layout, kind] at perm ⊢
  have whole : ∀ size, initSize k ≤ size → ∃ table,
      (copyStrings [([], 0)] (List.replicate size 0)).bind (writeSize k size) = some table ∧ table.length = size ∧
        ∀ index, index < size → table[index]? = some 0 := by
    intro size least
    have copied : copyStrings [([], 0)] (List.replicate size 0) = some (List.replicate size 0) := rfl
    rw [copied, Option.bind_some]
    refine ⟨List.replicate size 0, ?_, length_replicate,
      fun index small => getElem?_replicate_of_lt small⟩
    rcases front with rfl | rfl | rfl <;> rfl
  have mapped : (if k = .ELF then assign [] 0 [([], 0)] else [([], 0)]) = [([], 0)] := by
    rcases front with rfl | rfl | rfl <;> rfl
  have sized : initSize k ≤ (if k = .MachO then alignTo (initSize k) 4 else initSize k) ∧
      terminator k ≤ if k = .MachO then alignTo (initSize k) 4 else initSize k := by
    rcases front with rfl | rfl | rfl <;> decide
  dsimp only at perm ⊢
  rw [mapped] at perm ⊢
  rw [perm_singleton.mp perm]
  obtain ⟨table, ran, length, zeros⟩ := whole _ sized.1
  refine ⟨table, ?_, length, 0, rfl, Nat.dvd_zero _, ?_,
    fun index small => absurd small (Nat.not_lt_zero index), fun ended => ?_⟩
  · rw [write_eq rfl]
    exact ran
  · rw [length, length_nil, Nat.add_zero, Nat.zero_add]
    exact sized.2
  · apply zeros
    have one : terminator k = 1 := if_pos ended
    rw [length_nil]
    omega

theorem layout_cases {builder : StringTableBuilder} (kind : builder.k = k)
    (align : builder.alignment = 2 ^ exponent)
    (distinct : (builder.stringIndexMap.map Prod.fst).Nodup) (some' : builder.stringIndexMap ≠ []) :
    (∃ hosts last, Laid k (2 ^ exponent) (builder.stringIndexMap.map Prod.fst)
        (multikeySort (builder.stringIndexMap.map Prod.fst) 0) (layoutOf builder) hosts last) ∨
      ((∃ offset, builder.stringIndexMap = [([], offset)]) ∧ 2 ^ exponent ∣ initSize k - terminator k) := by
  obtain ⟨perm, order⟩ := multikeySort_spec (builder.stringIndexMap.map Prod.fst) 0
  cases sorted : multikeySort (builder.stringIndexMap.map Prod.fst) 0 with
  | nil =>
      rw [sorted] at perm
      exact absurd (map_eq_nil_iff.mp (nil_perm.mp perm)) some'
  | cons first rest =>
      rw [sorted] at perm order
      by_cases front : first = [] ∧ 2 ^ exponent ∣ initSize k - terminator k
      · obtain ⟨empty, divides⟩ := front
        have alone : rest = [] := by
          by_contra more
          exact first_ne_nil order (perm.nodup_iff.mpr distinct) more empty
        subst empty
        rw [alone, singleton_perm] at perm
        refine .inr ⟨?_, divides⟩
        obtain ⟨entry, shape⟩ := length_eq_one_iff.mp (by
          have length := congrArg List.length perm
          rw [length_map] at length
          exact length.symm)
        rw [shape, map_singleton] at perm
        obtain ⟨s, offset⟩ := entry
        have empty : s = [] := (List.cons.inj perm).1.symm
        rw [empty] at shape
        exact ⟨offset, shape⟩
      · left
        have laid := @layout_laid k exponent builder.stringIndexMap first rest perm distinct front
        unfold layoutOf
        rw [sorted, kind, align]
        exact laid

end Finalized

section Strings

variable {k : Kind} {exponent : Nat} {strings : List (List Byte)}

theorem finalized_none {builder : StringTableBuilder} (kind : builder.k = k) (notDwarf : k ≠ .DWARF)
    (none : builder.stringIndexMap = []) :
    ∃ final, builder.finalize = some final ∧
      ∀ entries, entries.Perm final.stringIndexMap →
        ∃ table, ({ final with stringIndexMap := entries } : StringTableBuilder).write = some table ∧
          table.length = final.size := by
  subst kind
  have layout : layoutOf builder = ⟨[], initSize builder.k, []⟩ := by
    unfold layoutOf
    rw [none, map_nil, multikeySort, foldl_nil]
  refine ⟨_, finalize_eq notDwarf, fun entries perm => ?_⟩
  rw [layout] at perm ⊢
  dsimp only at perm ⊢
  generalize sized : (if builder.k = .MachO then alignTo (initSize builder.k) 4 else initSize builder.k) = size
  have large : initSize builder.k ≤ size := by
    rw [← sized]
    by_cases mach : builder.k = .MachO
    · rw [if_pos mach]
      exact (alignTo_spec _ (by decide)).1
    · rw [if_neg mach]
  have copied : copyStrings entries (List.replicate size 0) = some (List.replicate size 0) := by
    by_cases elf : builder.k = .ELF
    · rw [if_pos elf] at perm
      rw [perm_singleton.mp perm]
      rfl
    · rw [if_neg elf] at perm
      rw [perm_nil.mp perm]
      rfl
  obtain ⟨final, stored, whole, -⟩ := @writeSize_spec builder.k size _ length_replicate large
  refine ⟨final, ?_, whole⟩
  rw [write_eq rfl, copied, Option.bind_some]
  exact stored

theorem returns_of_not_emptyInHeader (notDwarf : k ≠ .DWARF) (long : k = .WinCOFF → ∀ s ∈ strings, 8 < s.length)
    (good : ¬ EmptyInHeader k exponent strings) : Returns k (2 ^ exponent) strings := by
  obtain ⟨builder, added, kind, align, distinct, keys⟩ := @added_spec k strings (2 ^ exponent) long
  refine ⟨builder, added, fun order perm => ?_⟩
  have distinct' : (order.map Prod.fst).Nodup := (perm.map Prod.fst).nodup_iff.mpr distinct
  have keys' : ∀ s, s ∈ order.map Prod.fst ↔ s ∈ strings := fun s => ((perm.map Prod.fst).mem_iff).trans (keys s)
  by_cases some' : order = []
  · obtain ⟨final, finalized, written⟩ :=
      @finalized_none k { builder with stringIndexMap := order } kind notDwarf some'
    refine ⟨final, finalized, fun entries also => ?_⟩
    obtain ⟨table, ran, length⟩ := written entries also
    refine ⟨table, ran, length, fun s member => ?_⟩
    have known := (keys' s).mpr member
    rw [some'] at known
    exact absurd known not_mem_nil
  · rcases @layout_cases k exponent { builder with stringIndexMap := order } kind align distinct' some' with
      ⟨hosts, last, laid⟩ | ⟨⟨offset, alone⟩, divides⟩
    · have sorted := (multikeySort_spec (order.map Prod.fst) 0).1
      obtain ⟨final, finalized, written⟩ := @finalized_found k exponent
        { builder with stringIndexMap := order } _ hosts last kind distinct' notDwarf
        { laid with placed := fun s member => laid.placed s (sorted.mem_iff.mpr member) }
      refine ⟨final, finalized, fun entries also => ?_⟩
      obtain ⟨table, ran, length, found⟩ := written entries also
      exact ⟨table, ran, length, fun s member => found s ((keys' s).mpr member)⟩
    · dsimp only at alone
      have empty : ∀ s ∈ strings, s = [] := by
        intro s member
        have known := (keys' s).mpr member
        rw [alone] at known
        exact mem_singleton.mp known
      have member : [] ∈ strings := by
        apply (keys' []).mp
        rw [alone]
        exact mem_cons_self
      have front : k = .RAW ∨ k = .ELF ∨ k = .MachO := by
        cases k with
        | RAW => exact .inl rfl
        | ELF => exact .inr (.inl rfl)
        | MachO => exact .inr (.inr rfl)
        | DWARF => exact absurd rfl notDwarf
        | WinCOFF => exact absurd (long rfl [] member) (Nat.not_lt_zero 8)
        | XCOFF =>
            have least : exponent = 0 := by
              have three : 2 ^ exponent ∣ 3 := divides
              cases exponent with
              | zero => rfl
              | succ exponent =>
                  have two : 2 ∣ 3 := (Dvd.intro_left (2 ^ exponent) (Nat.pow_succ ..).symm).trans three
                  exact absurd two (by decide)
            exact absurd ⟨rfl, least, ne_nil_of_mem member, empty⟩ good
      obtain ⟨final, finalized, written⟩ :=
        @finalized_front k exponent { builder with stringIndexMap := order } offset kind align alone front
      refine ⟨final, finalized, fun entries also => ?_⟩
      obtain ⟨table, ran, length, found⟩ := written entries also
      refine ⟨table, ran, length, fun s inStrings => ?_⟩
      rw [empty s inStrings]
      exact found

theorem merges_strings (notDwarf : k ≠ .DWARF) (long : k = .WinCOFF → ∀ s ∈ strings, 8 < s.length) :
    Merges k strings := by
  rintro some' size ⟨builder, order, final, added, perm, finalized, sized⟩
  obtain ⟨builder', added', kind, align, distinct, keys⟩ := @added_spec k strings 1 long
  rw [added] at added'
  cases added'
  obtain ⟨sorted, descending⟩ := multikeySort_spec (order.map Prod.fst) 0
  have distinct' : (multikeySort (order.map Prod.fst) 0).Nodup :=
    sorted.nodup_iff.mpr ((perm.map Prod.fst).nodup_iff.mpr distinct)
  have keys' : ∀ s, s ∈ multikeySort (order.map Prod.fst) 0 ↔ s ∈ strings := fun s =>
    sorted.mem_iff.trans ((perm.map Prod.fst).mem_iff.trans (keys s))
  have same : (multikeySort (order.map Prod.fst) 0).Perm strings.dedup :=
    (perm_ext_iff_of_nodup distinct' strings.nodup_dedup).mpr fun s => (keys' s).trans mem_dedup.symm
  have rooms : room k (multikeySort (order.map Prod.fst) 0) = room k strings := by
    funext s
    have covered : Covered (multikeySort (order.map Prod.fst) 0) s ↔ Covered strings s :=
      exists_congr fun t => and_congr_left fun _ => keys' t
    exact if_congr covered rfl rfl
  obtain ⟨s, member, filled⟩ := some'
  have laid := @layout_size k _ descending distinct' ⟨s, (keys' s).mpr member, filled⟩ order
  rw [rooms, (same.map (room k strings)).sum_nat] at laid
  rw [finalize_eq (kind.symm ▸ notDwarf)] at finalized
  cases finalized
  rw [← sized, ← laid]
  unfold rounded layoutOf
  dsimp only
  rw [kind, align]

theorem not_returns_of_emptyInHeader (bad : EmptyInHeader k exponent strings) :
    ¬ Returns k (2 ^ exponent) strings := by
  obtain ⟨rfl, rfl, some', empty⟩ := bad
  rintro ⟨builder, added, returns⟩
  obtain ⟨builder', added', kind, align, distinct, keys⟩ :=
    @added_spec .XCOFF strings (2 ^ 0) fun coff => absurd coff (by decide)
  rw [added] at added'
  cases added'
  obtain ⟨s, member⟩ := exists_mem_of_ne_nil strings some'
  have alone : ∃ offset, builder.stringIndexMap = [([], offset)] := by
    have all : ∀ entry ∈ builder.stringIndexMap, entry.1 = [] := fun entry inMap =>
      empty entry.1 ((keys entry.1).mp (List.mem_map_of_mem inMap))
    rw [empty s member] at member
    have known := (keys []).mpr member
    cases shape : builder.stringIndexMap with
    | nil =>
        rw [shape] at known
        exact absurd known not_mem_nil
    | cons first rest =>
        rw [shape] at all distinct
        have none : rest = [] := by
          apply eq_nil_iff_forall_not_mem.mpr
          intro entry inRest
          rw [map_cons, nodup_cons] at distinct
          apply distinct.1
          rw [all first mem_cons_self, ← all entry (mem_cons_of_mem first inRest)]
          exact List.mem_map_of_mem inRest
        obtain ⟨t, offset⟩ := first
        have here : t = [] := all (t, offset) mem_cons_self
        rw [none, here]
        exact ⟨offset, rfl⟩
  obtain ⟨offset, alone⟩ := alone
  obtain ⟨final, finalized, written⟩ := returns builder.stringIndexMap (List.Perm.refl _)
  have layout : layoutOf builder = ⟨[([], 3)], 4, []⟩ := by
    unfold layoutOf
    have sorted : multikeySort ([(([] : List Byte), offset)].map Prod.fst) 0 = [[]] := by
      rw [map_singleton, multikeySort]
    rw [alone, kind, align, sorted, foldl_cons, foldl_nil]
    unfold place
    dsimp only
    rw [Nat.pow_zero, Nat.sub_self, Nat.and_zero, if_pos (And.intro (suffix_refl []) rfl)]
    rfl
  rw [finalize_eq (by rw [kind]; decide)] at finalized
  cases finalized
  rw [layout, kind] at written
  obtain ⟨table, ran, -, found⟩ := written _ (List.Perm.refl _)
  obtain ⟨place, stands, -, -, -, ended⟩ := found s member
  rw [empty s member] at stands ended
  have three : place = 3 := (Option.some.inj stands).symm
  have stored : table = [0, 0, 0, 4] := by
    have evaluated : (copyStrings [([], 3)] (List.replicate 4 0)).bind (writeSize .XCOFF 4) =
        some [0, 0, 0, 4] := by
      decide
    rw [write_eq rfl] at ran
    exact Option.some.inj (ran.symm.trans evaluated)
  rw [three, stored] at ended
  exact absurd (ended (by decide)) (by decide)

/-- Every string is found at its offset, unless the empty string alone is put into the header. -/
theorem stringTable_returns (notDwarf : k ≠ .DWARF) (long : k = .WinCOFF → ∀ s ∈ strings, 8 < s.length) :
    (Returns k (2 ^ exponent) strings ∧ (exponent = 0 → Merges k strings)) ↔ ¬ EmptyInHeader k exponent strings :=
  ⟨fun returned bad => not_returns_of_emptyInHeader bad returned.1, fun good =>
    ⟨returns_of_not_emptyInHeader notDwarf long good, fun _ => merges_strings notDwarf long⟩⟩

theorem stringTable_returns_ofElf : Returns .ELF (2 ^ 2) [[97, 98], [98], []] :=
  ((@stringTable_returns .ELF 2 [[97, 98], [98], []] (by decide) fun coff => absurd coff (by decide)).mpr
    fun bad => absurd bad.1 (by decide)).1

theorem stringTable_empty_inHeader : ¬ (∀ k exponent strings, k ≠ Kind.DWARF →
    (k = .WinCOFF → ∀ s ∈ strings, 8 < s.length) →
    Returns k (2 ^ exponent) strings ∧ (exponent = 0 → Merges k strings)) := by
  intro every
  exact not_returns_of_emptyInHeader
    ⟨rfl, rfl, cons_ne_nil [] [], fun s member => mem_singleton.mp member⟩
    (every .XCOFF 0 [[]] (by decide) fun coff => absurd coff (by decide)).1

end Strings

end EvmBackend.StringTable
