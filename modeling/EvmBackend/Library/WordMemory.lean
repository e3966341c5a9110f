/-
Numbers that lie in a memory of words, the lowest word first, and the loops that
write one word in every round.

A loop is described by what it writes in each round. When the word of a round
depends only on words that the earlier rounds leave alone, the result is known at
every address.
-/

import Mathlib.Tactic.Ring
import Mathlib.Logic.Function.Basic

namespace EvmBackend.WordMemory

open Function

variable {w : Nat}

abbrev Memory (w : Nat) := Nat → BitVec w

def numberAt (memory : Memory w) (start : Nat) : Nat → Nat
  | 0 => 0
  | parts + 1 => numberAt memory start parts + (memory (start + parts)).toNat * 2 ^ (w * parts)

def Apart (first parts second others : Nat) : Prop := first + parts ≤ second ∨ second + others ≤ first

section Numbers

variable {memory other : Memory w} {start parts : Nat}

theorem number_succ : numberAt memory start (parts + 1) =
    numberAt memory start parts + (memory (start + parts)).toNat * 2 ^ (w * parts) := rfl

theorem two_pow_succ (w parts : Nat) : 2 ^ (w * (parts + 1)) = 2 ^ w * 2 ^ (w * parts) := by
  rw [← pow_add]
  congr 1
  ring

theorem number_lt (memory : Memory w) (start parts : Nat) : numberAt memory start parts < 2 ^ (w * parts) := by
  induction parts with
  | zero => exact Nat.one_pos
  | succ parts ih =>
      have word := Nat.mul_le_mul_right (2 ^ (w * parts)) (memory (start + parts)).isLt
      rw [Nat.succ_mul] at word
      rw [number_succ, two_pow_succ]
      omega

theorem number_congr (same : ∀ i < parts, memory (start + i) = other (start + i)) :
    numberAt memory start parts = numberAt other start parts := by
  induction parts with
  | zero => rfl
  | succ parts ih =>
      rw [number_succ, number_succ, ih fun i below => same i (below.trans (Nat.lt_succ_self _)),
        same parts (Nat.lt_succ_self _)]

theorem number_add (memory : Memory w) (start low high : Nat) :
    numberAt memory start (low + high) =
      numberAt memory start low + 2 ^ (w * low) * numberAt memory (start + low) high := by
  induction high with
  | zero => rfl
  | succ high ih =>
      rw [← Nat.add_assoc, number_succ, ih, number_succ, Nat.mul_add w, pow_add, Nat.add_assoc start]
      ring

theorem number_eq_zero_iff : numberAt memory start parts = 0 ↔ ∀ i < parts, memory (start + i) = 0 := by
  induction parts with
  | zero => exact ⟨fun _ i below => absurd below (Nat.not_lt_zero i), fun _ => rfl⟩
  | succ parts ih =>
      have positive := Nat.two_pow_pos (w * parts)
      rw [number_succ, Nat.add_eq_zero_iff, Nat.mul_eq_zero, or_iff_left positive.ne', ih]
      constructor
      · rintro ⟨low, top⟩ i below
        rcases Nat.lt_succ_iff_lt_or_eq.mp below with less | rfl
        · exact low i less
        · exact BitVec.eq_of_toNat_eq (top.trans (BitVec.toNat_ofNat 0 w).symm)
      · intro none
        refine ⟨fun i below => none i (below.trans (Nat.lt_succ_self _)), ?_⟩
        rw [none parts (Nat.lt_succ_self _)]
        exact BitVec.toNat_ofNat 0 w

theorem number_update_outside {address : Nat} (word : BitVec w) (outside : ∀ i < parts, address ≠ start + i) :
    numberAt (update memory address word) start parts = numberAt memory start parts :=
  number_congr fun i below => update_of_ne (outside i below).symm word memory

theorem number_update {i : Nat} (word : BitVec w) (inside : i < parts) :
    numberAt (update memory (start + i) word) start parts + (memory (start + i)).toNat * 2 ^ (w * i) =
      numberAt memory start parts + word.toNat * 2 ^ (w * i) := by
  induction parts with
  | zero => exact absurd inside (Nat.not_lt_zero i)
  | succ parts ih =>
      rw [number_succ, number_succ]
      rcases Nat.lt_succ_iff_lt_or_eq.mp inside with below | rfl
      · rw [update_of_ne (by omega)]
        have low := ih below
        omega
      · rw [update_self, number_update_outside word fun j below => by omega]
        omega

theorem number_testBit (positive : 0 < w) (memory : Memory w) (start parts bit : Nat) :
    (numberAt memory start parts).testBit bit =
      (decide (bit < w * parts) && (memory (start + bit / w)).getLsbD (bit % w)) := by
  induction parts with
  | zero => simp [numberAt]
  | succ parts ih =>
      have low := number_lt memory start parts
      rw [number_succ, Nat.add_comm, Nat.mul_comm, Nat.testBit_two_pow_mul_add _ low]
      have bits := Nat.div_add_mod bit w
      by_cases below : bit < w * parts
      · have more : bit < w * (parts + 1) :=
          below.trans (Nat.mul_lt_mul_of_pos_left (Nat.lt_succ_self _) positive)
        rw [if_pos below, ih, decide_eq_true below, decide_eq_true more]
      · rw [if_neg below]
        by_cases more : bit < w * (parts + 1)
        · have index : bit / w = parts := by
            apply Nat.div_eq_of_lt_le
            · rw [Nat.mul_comm]
              exact Nat.le_of_not_lt below
            · rw [Nat.mul_comm]
              exact more
          have offset : bit - w * parts = bit % w := by
            rw [index] at bits
            omega
          rw [offset, index, decide_eq_true more, Bool.true_and]
          rfl
        · rw [decide_eq_false more, Bool.false_and]
          apply Nat.testBit_lt_two_pow
          apply (memory (start + parts)).isLt.trans_le
          apply Nat.pow_le_pow_right (by decide)
          rw [Nat.mul_add, Nat.mul_one] at more
          omega

end Numbers

def forEach (place : Nat → Nat) (word : Nat → Memory w → BitVec w) (rounds : Nat) (memory : Memory w) :
    Memory w :=
  (List.range rounds).foldl (fun memory i => update memory (place i) (word i memory)) memory

section Loops

variable {place : Nat → Nat} {word : Nat → Memory w → BitVec w} {memory : Memory w}

theorem forEach_succ (rounds : Nat) :
    forEach place word (rounds + 1) memory =
      update (forEach place word rounds memory) (place rounds)
        (word rounds (forEach place word rounds memory)) := by
  unfold forEach
  rw [List.range_succ, List.foldl_append]
  rfl

theorem forEach_spec (place : Nat → Nat) (word : Nat → Memory w → BitVec w) (value : Nat → BitVec w)
    (memory : Memory w) (rounds : Nat) (distinct : ∀ i j, i < j → j < rounds → place i ≠ place j)
    (reads : ∀ i < rounds, ∀ now : Memory w, (∀ a, (∀ j < i, a ≠ place j) → now a = memory a) →
      word i now = value i) :
    (∀ i < rounds, forEach place word rounds memory (place i) = value i) ∧
      ∀ a, (∀ j < rounds, a ≠ place j) → forEach place word rounds memory a = memory a := by
  induction rounds with
  | zero => exact ⟨fun i below => absurd below (Nat.not_lt_zero i), fun _ _ => rfl⟩
  | succ rounds ih =>
      obtain ⟨written, kept⟩ := ih (fun i j less below => distinct i j less (below.trans (Nat.lt_succ_self _)))
        fun i below => reads i (below.trans (Nat.lt_succ_self _))
      have last := reads rounds (Nat.lt_succ_self _) _ kept
      constructor
      · intro i below
        rw [forEach_succ, last]
        rcases Nat.lt_succ_iff_lt_or_eq.mp below with less | rfl
        · rw [update_of_ne (distinct i rounds less (Nat.lt_succ_self _)), written i less]
        · rw [update_self]
      · intro a away
        rw [forEach_succ, update_of_ne (away rounds (Nat.lt_succ_self _)),
          kept a fun j below => away j (below.trans (Nat.lt_succ_self _))]

end Loops

theorem foldlM_range_holds {σ : Type} (round : σ → Nat → Option σ) {state : σ} (holds : Nat → σ → Prop)
    {rounds : Nat}
    (start : holds 0 state)
    (step : ∀ i < rounds, ∀ now, holds i now → ∃ next, round now i = some next ∧ holds (i + 1) next) :
    ∃ last, (List.range rounds).foldlM round state = some last ∧ holds rounds last := by
  induction rounds with
  | zero => exact ⟨state, rfl, start⟩
  | succ rounds ih =>
      obtain ⟨now, ran, held⟩ := ih fun i below => step i (below.trans (Nat.lt_succ_self _))
      obtain ⟨next, last, goal⟩ := step rounds (Nat.lt_succ_self _) now held
      refine ⟨next, ?_, goal⟩
      rw [List.range_succ, List.foldlM_append, ran]
      change (round now rounds).bind some = some next
      rw [last, Option.bind_some]

theorem foldlM_range_none {σ : Type} {round : σ → Nat → Option σ} {state : σ} {rounds : Nat}
    (positive : 0 < rounds)
    (fails : round state 0 = none) : (List.range rounds).foldlM round state = none := by
  obtain ⟨rest, rfl⟩ := Nat.exists_eq_succ_of_ne_zero positive.ne'
  rw [List.range_succ_eq_map, List.foldlM_cons, fails]
  rfl

end EvmBackend.WordMemory
