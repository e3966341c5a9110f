/-
The strings in the order of their tails.

Sorted, every string comes behind all those it is a suffix of, and what stands
between them ends in it as well.
-/

import EvmBackend.StringTable

namespace EvmBackend.StringTable

open ThreeWayPartition List

def TailLe : List Nat → List Nat → Prop
  | [], _ => True
  | _ :: _, [] => False
  | c :: rest, d :: others => c < d ∨ c = d ∧ TailLe rest others

theorem TailLe.nil (tail : List Nat) : TailLe [] tail := trivial

theorem TailLe.prefix_between {tail longer middle : List Nat} (start : tail <+: longer) (low : TailLe tail middle)
    (high : TailLe middle longer) : tail <+: middle := by
  induction tail generalizing longer middle with
  | nil => exact nil_prefix
  | cons c rest ih =>
      obtain ⟨others, rfl⟩ := start
      cases middle with
      | nil => exact absurd low id
      | cons d next =>
          rcases low with less | ⟨rfl, low⟩
          · rcases high with more | ⟨same, -⟩ <;> omega
          · rcases high with more | ⟨-, high⟩
            · omega
            · exact (prefix_cons_inj c).mpr (ih (prefix_append rest others) low high)

theorem TailLe.eq_of_prefix {tail longer : List Nat} (start : tail <+: longer) (high : TailLe longer tail) :
    longer = tail := by
  induction tail generalizing longer with
  | nil =>
      cases longer with
      | nil => rfl
      | cons c rest => exact absurd high id
  | cons c rest ih =>
      obtain ⟨others, rfl⟩ := start
      rcases high with more | ⟨-, high⟩
      · omega
      · exact congrArg (List.cons c) (ih (prefix_append rest others) high)

def Descending (pos : Nat) (vec : List (List Byte)) : Prop :=
  vec.Pairwise fun s t => TailLe ((tailKey t).drop pos) ((tailKey s).drop pos)

theorem drop_of_charTailAt (s : List Byte) (pos : Nat) :
    (charTailAt s pos = -1 ∧ (tailKey s).drop pos = []) ∨
      ∃ c : Nat, charTailAt s pos = c ∧ (tailKey s).drop pos = c :: (tailKey s).drop (pos + 1) := by
  rw [charTailAt_eq]
  cases here : (tailKey s)[pos]? with
  | none => exact .inl ⟨rfl, drop_eq_nil_iff.mpr (List.getElem?_eq_none_iff.mp here)⟩
  | some c =>
      obtain ⟨inside, value⟩ := List.getElem?_eq_some_iff.mp here
      refine .inr ⟨c, rfl, ?_⟩
      rw [drop_eq_getElem_cons inside, value]

theorem tail_le_of_lt {s t : List Byte} {pos : Nat} (less : charTailAt s pos < charTailAt t pos) :
    TailLe ((tailKey s).drop pos) ((tailKey t).drop pos) := by
  rcases drop_of_charTailAt s pos with ⟨-, ended⟩ | ⟨c, head, split⟩
  · rw [ended]
    exact TailLe.nil _
  · rcases drop_of_charTailAt t pos with ⟨also, -⟩ | ⟨d, head', split'⟩
    · omega
    · rw [split, split']
      exact .inl (by omega)

theorem tail_le_of_next {s t : List Byte} {pos : Nat} (same : charTailAt s pos = charTailAt t pos)
    (next : TailLe ((tailKey s).drop (pos + 1)) ((tailKey t).drop (pos + 1))) :
    TailLe ((tailKey s).drop pos) ((tailKey t).drop pos) := by
  rcases drop_of_charTailAt s pos with ⟨-, ended⟩ | ⟨c, head, split⟩
  · rw [ended]
    exact TailLe.nil _
  · rcases drop_of_charTailAt t pos with ⟨also, -⟩ | ⟨d, head', split'⟩
    · omega
    · rw [split, split']
      exact .inr ⟨by omega, next⟩

theorem tail_le_of_ended {s t : List Byte} {pos : Nat} (ended : charTailAt s pos = -1) :
    TailLe ((tailKey s).drop pos) ((tailKey t).drop pos) := by
  rcases drop_of_charTailAt s pos with ⟨-, empty⟩ | ⟨c, head, -⟩
  · rw [empty]
    exact TailLe.nil _
  · omega

theorem descending_parts {pivot : Int} {pos : Nat} {above equal below : List (List Byte)}
    (greater : ∀ s ∈ above, pivot < charTailAt s pos) (same : ∀ s ∈ equal, charTailAt s pos = pivot)
    (less : ∀ s ∈ below, charTailAt s pos < pivot) (first : Descending pos above) (middle : Descending pos equal)
    (last : Descending pos below) : Descending pos (above ++ equal ++ below) := by
  unfold Descending at *
  rw [List.append_assoc]
  refine pairwise_append.mpr ⟨first, pairwise_append.mpr ⟨middle, last, ?_⟩, ?_⟩
  · intro s member t also
    exact tail_le_of_lt ((less t also).trans_eq (same s member).symm)
  · intro s member t also
    rcases mem_append.mp also with inEqual | inBelow
    · exact tail_le_of_lt ((same t inEqual).trans_lt (greater s member))
    · exact tail_le_of_lt ((less t inBelow).trans (greater s member))

theorem multikeySort_spec (vec : List (List Byte)) (pos : Nat) :
    (multikeySort vec pos).Perm vec ∧ Descending pos (multikeySort vec pos) := by
  induction vec, pos using multikeySort.induct with
  | case1 pos =>
      rw [multikeySort]
      exact ⟨.refl _, .nil⟩
  | case2 pos s =>
      rw [multikeySort]
      exact ⟨.refl _, pairwise_singleton _ _⟩
  | case3 pos s next rest pivot parts middle first second third =>
      obtain ⟨above, equal, below, ran, parted, one, two, three⟩ := pass_parts s (next :: rest) pos
      have parts_eq : parts = (above ++ equal ++ below, above.length, above.length + equal.length) := ran
      have middle_eq : middle = equal := by
        change (parts.1.take parts.2.2).drop parts.2.1 = equal
        rw [parts_eq]
        exact two
      rw [parts_eq] at first third
      dsimp only at first third
      rw [one] at first
      rw [three] at third
      rw [middle_eq] at second
      have shape : multikeySort (s :: next :: rest) pos = multikeySort above pos ++
          (if charTailAt s pos ≠ -1 then multikeySort equal (pos + 1) else equal) ++ multikeySort below pos := by
        rw [multikeySort, ran]
        dsimp only
        rw [one, two, three]
      obtain ⟨sorted, same, perm, order⟩ :
          ∃ sorted, (if charTailAt s pos ≠ -1 then multikeySort equal (pos + 1) else equal) =
          sorted ∧ sorted.Perm equal ∧ Descending pos sorted := by
        by_cases on : charTailAt s pos ≠ -1
        · obtain ⟨perm, order⟩ := second on
          rw [if_pos on]
          refine ⟨_, rfl, perm, order.imp_of_mem fun {t u} inLeft inRight next => tail_le_of_next ?_ next⟩
          rw [parted.equal u (perm.mem_iff.mp inRight), parted.equal t (perm.mem_iff.mp inLeft)]
        · rw [if_neg on]
          refine ⟨_, rfl, .refl _, pairwise_of_forall_mem_list fun t inLeft u inRight => tail_le_of_ended ?_⟩
          rw [parted.equal u inRight]
          exact not_not.mp on
      rw [shape, same]
      refine ⟨((first.1.append perm).append third.1).trans parted.perm,
        @descending_parts (charTailAt s pos) _ _ _ _ ?_ ?_ ?_ first.2 order third.2⟩
      · exact fun t member => parted.above t (first.1.mem_iff.mp member)
      · exact fun t member => parted.equal t (perm.mem_iff.mp member)
      · exact fun t member => parted.below t (third.1.mem_iff.mp member)

theorem prefix_tailKey {s t : List Byte} : tailKey s <+: tailKey t ↔ s <:+ t := by
  unfold tailKey
  rw [prefix_map_iff_of_injective fun _ _ same => BitVec.eq_of_toNat_eq same, reverse_prefix]

theorem not_suffix_behind {front back : List (List Byte)} {s t : List Byte}
    (order : Descending 0 (front ++ s :: back)) (distinct : (front ++ s :: back).Nodup) (member : t ∈ back) :
    ¬ s <:+ t := by
  intro ending
  have later := (pairwise_cons.mp (pairwise_append.mp order).2.1).1 t member
  have same := TailLe.eq_of_prefix (prefix_tailKey.mpr ending) later
  have equal : t = s := by
    have turned : tailKey t <+: tailKey s := by
      rewrite [same]
      exact prefix_rfl
    exact (prefix_tailKey.mp turned).eq_of_length_le ending.length_le
  subst equal
  exact (nodup_cons.mp (nodup_append.mp distinct).2.1).1 member

theorem suffix_of_previous {front back : List (List Byte)} {s u : List Byte}
    (order : Descending 0 (front ++ u :: s :: back)) (distinct : (front ++ u :: s :: back).Nodup)
    {t : List Byte} (member : t ∈ front ++ u :: s :: back) (ending : s <:+ t) (other : t ≠ s) : s <:+ u := by
  have between : TailLe (tailKey s) (tailKey u) :=
    (pairwise_cons.mp (pairwise_append.mp order).2.1).1 s mem_cons_self
  rcases mem_append.mp member with inFront | later
  · have before : TailLe (tailKey u) (tailKey t) :=
      (pairwise_append.mp order).2.2 t inFront u mem_cons_self
    exact prefix_tailKey.mp (TailLe.prefix_between (prefix_tailKey.mpr ending) between before)
  · rcases mem_cons.mp later with rfl | later
    · exact ending
    · rcases mem_cons.mp later with rfl | behind
      · exact absurd rfl other
      · have shape : front ++ u :: s :: back = (front ++ [u]) ++ s :: back := by
          rw [List.append_assoc, singleton_append]
        rw [shape] at order distinct
        exact absurd ending (not_suffix_behind order distinct behind)

end EvmBackend.StringTable
