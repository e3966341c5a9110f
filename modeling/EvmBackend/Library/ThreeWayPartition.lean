/-
Partition of a list in place by a key: the items above the pivot come first,
then those that have it, then those below.

One pass keeps four stretches: above, equal, not yet seen, below.
-/

import Mathlib.Data.List.Perm.Basic
import Mathlib.Order.Lattice

namespace EvmBackend.ThreeWayPartition

open List

variable {Item : Type*}

def swap (items : List Item) (left right : Nat) : List Item :=
  match items[left]?, items[right]? with
  | some one, some two => (items.set left two).set right one
  | _, _ => items

theorem swap_apart (front middle back : List Item) (one two : Item) :
    swap (front ++ one :: middle ++ two :: back) front.length (front.length + 1 + middle.length) =
      front ++ two :: middle ++ one :: back := by
  have first : (front ++ one :: middle ++ two :: back)[front.length]? = some one := by simp
  have second : (front ++ one :: middle ++ two :: back)[front.length + 1 + middle.length]? = some two := by
    have length : front.length + 1 + middle.length = (front ++ one :: middle).length := by
      rw [length_append, length_cons]
      omega
    rw [length]
    simp
  unfold swap
  rw [first, second]
  simp [Nat.add_assoc, Nat.add_comm 1]

theorem swap_self (front back : List Item) (one : Item) :
    swap (front ++ one :: back) front.length front.length = front ++ one :: back := by
  have here : (front ++ one :: back)[front.length]? = some one := by simp
  unfold swap
  rw [here]
  simp

theorem swap_comm (items : List Item) (left right : Nat) : swap items left right = swap items right left := by
  unfold swap
  cases one : items[left]? with
  | none => cases items[right]? <;> rfl
  | some first =>
      cases two : items[right]? with
      | none => rfl
      | some second =>
          by_cases same : left = right
          · subst same
            rw [one] at two
            cases two
            rfl
          · exact set_comm _ _ same

theorem swap_perm (items : List Item) (left right : Nat) : (swap items left right).Perm items := by
  unfold swap
  cases one : items[left]? with
  | none => exact List.Perm.refl _
  | some first =>
      cases two : items[right]? with
      | none => exact List.Perm.refl _
      | some second =>
          obtain ⟨inLeft, rfl⟩ := List.getElem?_eq_some_iff.mp one
          obtain ⟨inRight, rfl⟩ := List.getElem?_eq_some_iff.mp two
          exact set_set_perm inLeft inRight

section Partition

variable {Key : Type*} [LinearOrder Key] (key : Item → Key) (pivot : Key)

def partitionLoop (items : List Item) (i j k : Nat) : List Item × Nat × Nat :=
  if k < j then
    match items[k]? with
    | none => (items, i, j)
    | some item =>
        if pivot < key item then partitionLoop (swap items i k) (i + 1) j (k + 1)
        else if key item < pivot then partitionLoop (swap items (j - 1) k) i (j - 1) k
        else partitionLoop items i j (k + 1)
  else (items, i, j)
termination_by j - k

structure Partitioned (items above equal below : List Item) : Prop where
  perm : (above ++ equal ++ below).Perm items
  filled : equal ≠ []
  above : ∀ item ∈ above, pivot < key item
  equal : ∀ item ∈ equal, key item = pivot
  below : ∀ item ∈ below, key item < pivot

variable {key pivot}

theorem partitionLoop_spec {items above equal unseen below : List Item}
    (perm : (above ++ equal ++ unseen ++ below).Perm items) (filled : equal ≠ [])
    (greater : ∀ item ∈ above, pivot < key item) (same : ∀ item ∈ equal, key item = pivot)
    (less : ∀ item ∈ below, key item < pivot) :
    ∃ above' equal' below',
      partitionLoop key pivot (above ++ equal ++ unseen ++ below) above.length
          (above.length + equal.length + unseen.length) (above.length + equal.length) =
        (above' ++ equal' ++ below', above'.length, above'.length + equal'.length) ∧
      Partitioned key pivot items above' equal' below' := by
  generalize count : unseen.length = turns
  induction turns generalizing above equal unseen below with
  | zero =>
      cases length_eq_zero_iff.mp count
      rw [Nat.add_zero, partitionLoop, if_neg (Nat.lt_irrefl _), append_nil]
      rw [append_nil] at perm
      exact ⟨above, equal, below, rfl, perm, filled, greater, same, less⟩
  | succ turns ih =>
      obtain ⟨item, rest, rfl⟩ := exists_cons_of_length_eq_add_one count
      have length : rest.length = turns := Nat.succ.inj count
      have here : (above ++ equal ++ item :: rest ++ below)[above.length + equal.length]? = some item := by
        rw [← length_append]
        simp
      rw [partitionLoop, if_pos (by omega), here]
      dsimp only
      by_cases isAbove : pivot < key item
      · obtain ⟨first, others, rfl⟩ := exists_cons_of_ne_nil filled
        have moved : swap (above ++ first :: others ++ item :: rest ++ below) above.length
            (above.length + (first :: others).length) =
              (above ++ [item]) ++ (others ++ [first]) ++ rest ++ below := by
          have apart := swap_apart above others (rest ++ below) first item
          rw [length_cons, Nat.add_comm others.length 1, ← Nat.add_assoc]
          simpa using apart
        have places : above.length + (first :: others).length + (turns + 1) =
            (above ++ [item]).length + (others ++ [first]).length + turns := by simp; omega
        have next : above.length + (first :: others).length + 1 =
            (above ++ [item]).length + (others ++ [first]).length := by simp; omega
        have aboveLength : above.length + 1 = (above ++ [item]).length := by simp
        have still : ((above ++ [item]) ++ (others ++ [first]) ++ rest ++ below).Perm items := by
          rw [← moved]
          exact (swap_perm _ _ _).trans perm
        rw [if_pos isAbove, moved, places, next, aboveLength]
        apply ih still (append_ne_nil_of_right_ne_nil others (cons_ne_nil first [])) _ _ less length
        · intro other member
          rcases mem_append.mp member with before | new
          · exact greater other before
          · rw [mem_singleton.mp new]
            exact isAbove
        · intro other member
          apply same
          rcases mem_append.mp member with kept | turned
          · exact mem_cons_of_mem first kept
          · rw [mem_singleton.mp turned]
            exact mem_cons_self
      · rw [if_neg isAbove]
        by_cases isBelow : key item < pivot
        · obtain ⟨moved, still⟩ : ∃ moved : List Item, moved.length = turns ∧
              swap (above ++ equal ++ item :: rest ++ below) (above.length + equal.length + (turns + 1) - 1)
                (above.length + equal.length) = above ++ equal ++ moved ++ item :: below := by
            rw [← Nat.add_assoc, Nat.add_sub_cancel, swap_comm]
            rcases eq_nil_or_concat rest with none | ⟨middle, last, split⟩
            · subst none
              rw [← length, length_nil, Nat.add_zero, ← length_append]
              have alone := swap_self (above ++ equal) below item
              exact ⟨[], rfl, by simpa using alone⟩
            · rw [concat_eq_append] at split
              rw [split, length_append, length_singleton] at length
              have apart := swap_apart (above ++ equal) middle below item last
              refine ⟨last :: middle, by simpa using length, ?_⟩
              rw [← length, Nat.add_comm middle.length 1, ← Nat.add_assoc, ← length_append, split]
              simpa using apart
          rw [if_pos isBelow, still.2]
          have again : (above ++ equal ++ moved ++ item :: below).Perm items := by
            rw [← still.2]
            exact (swap_perm _ _ _).trans perm
          apply ih again filled greater same _ still.1
          intro other member
          rcases mem_cons.mp member with rfl | before
          · exact isBelow
          · exact less other before
        · have sameKey : key item = pivot := le_antisymm (not_lt.mp isAbove) (not_lt.mp isBelow)
          have shape : above ++ equal ++ item :: rest ++ below =
              above ++ (equal ++ [item]) ++ rest ++ below := by simp
          have places : above.length + equal.length + (turns + 1) =
              above.length + (equal ++ [item]).length + turns := by
            rw [length_append, length_singleton]
            omega
          have next : above.length + equal.length + 1 = above.length + (equal ++ [item]).length := by
            rw [length_append, length_singleton]
            omega
          rw [shape] at perm ⊢
          rw [if_neg isBelow, places, next]
          apply ih perm (append_ne_nil_of_left_ne_nil filled [item]) greater _ less length
          intro other member
          rcases mem_append.mp member with before | new
          · exact same other before
          · rw [mem_singleton.mp new]
            exact sameKey

theorem partitionLoop_whole (first : Item) (rest : List Item) :
    ∃ above equal below,
      partitionLoop key (key first) (first :: rest) 0 (first :: rest).length 1 =
        (above ++ equal ++ below, above.length, above.length + equal.length) ∧
      Partitioned key (key first) (first :: rest) above equal below := by
  have ran := @partitionLoop_spec _ _ _ key (key first) (first :: rest) [] [first] rest []
    (by rw [append_nil]; exact List.Perm.refl _) (cons_ne_nil first []) (forall_mem_nil _)
    (forall_mem_singleton.mpr rfl) (forall_mem_nil _)
  rw [append_nil, length_nil, length_singleton, Nat.zero_add, Nat.add_comm 1] at ran
  exact ran

end Partition

end EvmBackend.ThreeWayPartition
