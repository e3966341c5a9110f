/-
Numbers as lists of groups, the lowest first, ended by the first item that does
not ask for another.

All groups but the last are marked. Read in two's complement, the last group
carries the sign, and groups of the sign added behind it change nothing.
-/

import Mathlib.Data.Nat.Digits.Defs
import Mathlib.Tactic.Ring

namespace EvmBackend.GroupedNumbers

open List

section Marks

variable {Item : Type*} (continues : Item → Bool) (mark : Item → Item)

def firstNumber : List Item → Option (List Item)
  | [] => none
  | item :: items => if continues item then (firstNumber items).map (item :: ·) else some [item]

def markGroups (stays : Bool) : List Item → List Item
  | [] => []
  | [group] => [if stays then mark group else group]
  | group :: next :: groups => mark group :: markGroups stays (next :: groups)

@[simp]
theorem length_markGroups (stays : Bool) (groups : List Item) :
    (markGroups mark stays groups).length = groups.length := by
  fun_induction markGroups mark stays groups with
  | case1 | case2 => rfl
  | case3 group next groups ih =>
      rw [length_cons, ih]
      rfl

theorem markGroups_cons (stays : Bool) (group : Item) {groups : List Item} (filled : groups ≠ []) :
    markGroups mark stays (group :: groups) = mark group :: markGroups mark stays groups := by
  cases groups with
  | nil => exact absurd rfl filled
  | cons next groups => rfl

theorem markGroups_append (stays : Bool) (left : List Item) {right : List Item} (filled : right ≠ []) :
    markGroups mark stays (left ++ right) = markGroups mark true left ++ markGroups mark stays right := by
  induction left with
  | nil => rfl
  | cons group left ih =>
      have more : left ++ right ≠ [] := fun none => filled (append_eq_nil_iff.mp none).2
      rw [List.cons_append, markGroups_cons mark stays group more, ih]
      cases left with
      | nil | cons => rfl

theorem markGroups_replicate (turns : Nat) (group : Item) :
    markGroups mark false (List.replicate (turns + 1) group) = List.replicate turns (mark group) ++ [group] := by
  induction turns with
  | zero => rfl
  | succ turns ih =>
      have filled : List.replicate (turns + 1) group ≠ [] := cons_ne_nil _ _
      rw [List.replicate_succ, markGroups_cons mark false group filled, ih]
      rfl

variable {continues mark}

theorem firstNumber_split {items number : List Item} (found : firstNumber continues items = some number) :
    ∃ front last suffix, number = front ++ [last] ∧ items = number ++ suffix ∧
      (∀ item ∈ front, continues item = true) ∧ continues last = false := by
  induction items generalizing number with
  | nil => cases found
  | cons item items ih =>
      unfold firstNumber at found
      by_cases more : continues item = true
      · rw [if_pos more] at found
        obtain ⟨tail, also, shape⟩ := Option.map_eq_some_iff.mp found
        obtain ⟨front, last, suffix, split, whole, marked, ends⟩ := ih also
        subst shape
        refine ⟨item :: front, last, suffix, ?_, ?_, ?_, ends⟩
        · rw [split, List.cons_append]
        · rw [whole, List.cons_append]
        · intro other member
          rcases mem_cons.mp member with rfl | deeper
          · exact more
          · exact marked other deeper
      · rw [if_neg more] at found
        cases found
        exact ⟨[], item, items, rfl, rfl, forall_mem_nil _, Bool.eq_false_iff.mpr more⟩

theorem firstNumber_none {items : List Item} (found : firstNumber continues items = none) :
    ∀ item ∈ items, continues item = true := by
  induction items with
  | nil => exact forall_mem_nil _
  | cons item items ih =>
      unfold firstNumber at found
      by_cases more : continues item = true
      · rw [if_pos more] at found
        exact forall_mem_cons.mpr ⟨more, ih (Option.map_eq_none_iff.mp found)⟩
      · rw [if_neg more] at found
        cases found

theorem firstNumber_markGroups {groups : List Item} (filled : groups ≠ [])
    (ends : ∀ group ∈ groups, continues group = false) (asks : ∀ group ∈ groups, continues (mark group) = true)
    (suffix : List Item) :
    firstNumber continues (markGroups mark false groups ++ suffix) = some (markGroups mark false groups) := by
  fun_induction markGroups mark false groups with
  | case1 => exact absurd rfl filled
  | case2 group =>
      have last := ends group mem_cons_self
      rw [if_neg Bool.false_ne_true, List.cons_append, firstNumber, if_neg (Bool.eq_false_iff.mp last)]
  | case3 group next groups ih =>
      have more := asks group mem_cons_self
      rw [List.cons_append, firstNumber, if_pos more,
        ih (cons_ne_nil _ _) (forall_mem_cons.mp ends).2 (forall_mem_cons.mp asks).2,
          Option.map_some]

theorem map_markGroups {Value : Type*} {groupOf : Item → Value} {groups : List Item} (stays : Bool)
    (keeps : ∀ group ∈ groups, groupOf (mark group) = groupOf group) :
    (markGroups mark stays groups).map groupOf = groups.map groupOf := by
  fun_induction markGroups mark stays groups with
  | case1 => rfl
  | case2 group =>
      have kept := keeps group mem_cons_self
      cases stays with
      | false => rfl
      | true => rw [if_pos rfl, map_singleton, map_singleton, kept]
  | case3 group next groups ih =>
      rw [map_cons, map_cons, keeps group mem_cons_self, ih (forall_mem_cons.mp keeps).2]

end Marks

/-- The groups of the given base, of which the upper half is negative at the end. -/
def signedValue (base : Nat) (groups : List Nat) : Int :=
  Nat.ofDigits base groups - if base / 2 ≤ groups.getLast?.getD 0 then (base : Int) ^ groups.length else 0

section Signed

variable {base : Nat}

theorem signedValue_singleton (group : Nat) :
    signedValue base [group] = group - if base / 2 ≤ group then (base : Int) else 0 := by
  unfold signedValue
  rw [Nat.ofDigits_singleton, getLast?_singleton, Option.getD_some, length_singleton, pow_one]

theorem signedValue_cons (group : Nat) {groups : List Nat} (filled : groups ≠ []) :
    signedValue base (group :: groups) = group + base * signedValue base groups := by
  obtain ⟨next, rest, rfl⟩ := exists_cons_of_ne_nil filled
  unfold signedValue
  rw [Nat.ofDigits_cons, getLast?_cons_cons, length_cons, pow_succ]
  push_cast
  split <;> ring

theorem signedValue_concat (front : List Nat) (last : Nat) :
    signedValue base (front ++ [last]) =
      Nat.ofDigits base front + base ^ front.length * (last - if base / 2 ≤ last then (base : Int) else 0) := by
  unfold signedValue
  rw [Nat.ofDigits_append, Nat.ofDigits_singleton, getLast?_concat, Option.getD_some, length_append,
    length_singleton, pow_succ]
  push_cast
  split <;> ring

theorem signedValue_extend (even : 2 ∣ base) (positive : 0 < base) (front : List Nat) (last : Nat) :
    signedValue base (front ++ [last] ++ [if base / 2 ≤ last then base - 1 else 0]) =
      signedValue base (front ++ [last]) := by
  rw [signedValue_concat, signedValue_concat, Nat.ofDigits_append, Nat.ofDigits_singleton, length_append,
    length_singleton, pow_succ]
  by_cases negative : base / 2 ≤ last
  · have half : base / 2 ≤ base - 1 := by omega
    rw [if_pos negative, if_pos negative, if_pos half]
    push_cast [Nat.cast_sub positive]
    ring
  · have small : ¬ base / 2 ≤ 0 := by omega
    rw [if_neg negative, if_neg negative, if_neg small]
    push_cast
    ring

theorem signedValue_replicate (even : 2 ∣ base) (positive : 0 < base) (front : List Nat) (last turns : Nat) :
    signedValue base (front ++ [last] ++ List.replicate turns (if base / 2 ≤ last then base - 1 else 0)) =
      signedValue base (front ++ [last]) := by
  induction turns generalizing front last with
  | zero => rw [List.replicate_zero, append_nil]
  | succ turns ih =>
      have again : (if base / 2 ≤ (if base / 2 ≤ last then base - 1 else 0) then base - 1 else 0) =
          if base / 2 ≤ last then base - 1 else 0 := by
        by_cases negative : base / 2 ≤ last
        · rw [if_pos negative, if_pos (by omega)]
        · rw [if_neg negative, if_neg (by omega)]
      have step := ih (front ++ [last]) (if base / 2 ≤ last then base - 1 else 0)
      rw [again, signedValue_extend even positive] at step
      rw [List.replicate_succ, ← step, List.append_assoc (front ++ [last])]
      rfl

end Signed

end EvmBackend.GroupedNumbers
