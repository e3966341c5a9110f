/-
Trees given by the parent of each node, with a level that grows by one from
parent to child.

The nodes above a node form a chain, so their levels tell them apart. Two nodes
have a nearest node above both, found by going up from the lower one. A subtree
can be moved to any node that is not in it; the levels in it are then set right
from the top, one stale node of a stack at a time.
-/

import Mathlib.Data.Option.Basic
import Mathlib.Logic.Function.Basic
import Mathlib.Logic.Relation
import Mathlib.Tactic.Basic

namespace EvmBackend.ParentTrees

variable {Node : Type*}

def Above (parent : Node → Option Node) : Node → Node → Prop :=
  Relation.ReflTransGen fun upper lower => parent lower = some upper

def Leveled (parent : Node → Option Node) (level : Node → Nat) : Prop :=
  ∀ child upper, parent child = some upper → level child = level upper + 1

inductive Depth (parent : Node → Option Node) : Node → Nat → Prop
  | top {node : Node} (none : parent node = none) : Depth parent node 0
  | child {node upper : Node} {depth : Nat} (step : parent node = some upper) (rest : Depth parent upper depth) :
      Depth parent node (depth + 1)

structure NearestCommon (parent : Node → Option Node) (nearest left right : Node) : Prop where
  aboveLeft : Above parent nearest left
  aboveRight : Above parent nearest right
  lowest : ∀ node, Above parent node left → Above parent node right → Above parent node nearest

section Above

variable {parent : Node → Option Node} {level : Node → Nat} {node upper lower left right : Node}

theorem Above.refl (node : Node) : Above parent node node := Relation.ReflTransGen.refl

theorem Above.trans (one : Above parent upper node) (two : Above parent node lower) : Above parent upper lower :=
  Relation.ReflTransGen.trans one two

theorem above_parent (step : parent lower = some upper) : Above parent upper lower :=
  Relation.ReflTransGen.single step

theorem above_iff : Above parent node lower ↔ node = lower ∨ ∃ upper, parent lower = some upper ∧
    Above parent node upper := by
  constructor
  · intro above
    rcases Relation.ReflTransGen.cases_tail above with same | ⟨upper, rest, step⟩
    · exact .inl same.symm
    · exact .inr ⟨upper, step, rest⟩
  · rintro (rfl | ⟨upper, step, rest⟩)
    · exact Above.refl node
    · exact rest.trans (above_parent step)

theorem above_top (none : parent lower = none) : Above parent node lower ↔ node = lower := by
  rw [above_iff]
  constructor
  · rintro (same | ⟨upper, step, -⟩)
    · exact same
    · exact absurd (none.symm.trans step) (Option.some_ne_none upper).symm
  · exact Or.inl

theorem above_step (step : parent lower = some upper) :
    Above parent node lower ↔ node = lower ∨ Above parent node upper := by
  rw [above_iff]
  constructor
  · rintro (same | ⟨other, also, rest⟩)
    · exact .inl same
    · rw [step] at also
      cases also
      exact .inr rest
  · rintro (same | rest)
    · exact .inl same
    · exact .inr ⟨upper, step, rest⟩

theorem Above.level_le (leveled : Leveled parent level) (above : Above parent upper lower) :
    level upper ≤ level lower := by
  induction above with
  | refl => exact Nat.le_refl _
  | tail _ step ih =>
      have next := leveled _ _ step
      omega

theorem Above.eq_of_level (leveled : Leveled parent level) (above : Above parent upper lower)
    (same : level lower ≤ level upper) : upper = lower := by
  rcases above_iff.mp above with equal | ⟨next, step, rest⟩
  · exact equal
  · have low := rest.level_le leveled
    have more := leveled _ _ step
    omega

theorem Above.chain (one : Above parent left lower) (two : Above parent right lower) :
    Above parent left right ∨ Above parent right left := by
  induction one with
  | refl => exact .inr two
  | @tail middle last rest step ih =>
      rcases above_iff.mp two with same | ⟨other, also, deeper⟩
      · rw [same]
        exact .inl (rest.trans (above_parent step))
      · rw [step] at also
        cases also
        exact ih deeper

theorem Above.of_level (leveled : Leveled parent level) (one : Above parent left lower)
    (two : Above parent right lower) (order : level left ≤ level right) : Above parent left right := by
  rcases one.chain two with good | other
  · exact good
  · have same := other.eq_of_level leveled order
    rw [same]
    exact Above.refl left

theorem above_iff_of_parents (leveled : Leveled parent level) (relation : Node → Node → Prop)
    {inside : Node → Prop}
    (closed : ∀ child upper, parent child = some upper → inside upper)
    (tops : ∀ top, inside top → parent top = none → ∀ other, relation other top ↔ other = top)
    (steps : ∀ child upper, inside child → parent child = some upper →
      ∀ other, relation other child ↔ other = child ∨ relation other upper)
    (here : inside lower) (other : Node) : Above parent other lower ↔ relation other lower := by
  generalize height : level lower = depth
  induction depth using Nat.strongRecOn generalizing lower with
  | ind depth ih =>
      cases step : parent lower with
      | none => rw [above_top step, tops lower here step]
      | some upper =>
          have more := leveled _ _ step
          rw [above_step step, steps lower upper here step, ih (level upper) (by omega) (closed _ _ step) rfl]

theorem depth_level (leveled : Leveled parent level) (node : Node)
    (tops : ∀ top, Above parent top node → parent top = none → level top = 0) :
      Depth parent node (level node) := by
  generalize height : level node = depth
  induction depth generalizing node with
  | zero =>
      cases step : parent node with
      | none => exact .top step
      | some upper =>
          have more := leveled _ _ step
          omega
  | succ depth ih =>
      cases step : parent node with
      | none =>
          have low := tops node (Above.refl node) step
          omega
      | some upper =>
          have more := leveled _ _ step
          exact .child step (ih upper (fun top above => tops top (above.trans (above_parent step))) (by omega))

end Above

section Nearest

variable {parent : Node → Option Node} {level : Node → Nat} {nearest left right upper : Node}

theorem NearestCommon.self (node : Node) : NearestCommon parent node node node :=
  ⟨Above.refl node, Above.refl node, fun _ above _ => above⟩

theorem NearestCommon.symm (found : NearestCommon parent nearest left right) :
    NearestCommon parent nearest right left :=
  ⟨found.aboveRight, found.aboveLeft, fun node one two => found.lowest node two one⟩

theorem NearestCommon.of_parent (step : parent left = some upper) (apart : ¬ Above parent left right)
    (found : NearestCommon parent nearest upper right) : NearestCommon parent nearest left right := by
  refine ⟨found.aboveLeft.trans (above_parent step), found.aboveRight, fun node one two => ?_⟩
  rcases (above_step step).mp one with same | above
  · rw [same] at two
    exact absurd two apart
  · exact found.lowest node above two

theorem NearestCommon.of_top (top : parent nearest = none) {other : Node} (above : Above parent nearest other) :
    NearestCommon parent nearest nearest other :=
  ⟨Above.refl nearest, above, fun node one _ => by
    rw [(above_top top).mp one]
    exact Above.refl nearest⟩

end Nearest

section Moved

open Function

variable [DecidableEq Node] {parent : Node → Option Node} {level : Node → Nat} {node upper lower : Node}

theorem above_moved_outside (leveled : Leveled parent level) (outside : ¬ Above parent node lower)
    (other : Node) :
    Above (update parent node (some upper)) other lower ↔ Above parent other lower := by
  generalize height : level lower = depth
  induction depth using Nat.strongRecOn generalizing lower with
  | ind depth ih =>
      have differs : lower ≠ node := by
        intro same
        rw [same] at outside
        exact outside (Above.refl node)
      have same : update parent node (some upper) lower = parent lower := update_of_ne differs _ _
      cases step : parent lower with
      | none => rw [above_top (same.trans step), above_top step]
      | some next =>
          have more := leveled _ _ step
          have further : ¬ Above parent node next := fun above => outside (above.trans (above_parent step))
          rw [above_step (same.trans step), above_step step, ih (level next) (by omega) further rfl]

noncomputable def movedLevel (parent : Node → Option Node) (level : Node → Nat) (node upper lower : Node) : Nat :=
  open Classical in if Above parent node lower then level lower - level node + (level upper + 1) else level lower

theorem leveled_moved (leveled : Leveled parent level) (apart : ¬ Above parent node upper) :
    Leveled (update parent node (some upper)) (movedLevel parent level node upper) := by
  intro child next step
  unfold movedLevel
  by_cases same : child = node
  · subst same
    rw [update_self] at step
    cases step
    rw [if_pos (Above.refl child), if_neg apart, Nat.sub_self, Nat.zero_add]
  · rw [update_of_ne same] at step
    have more := leveled _ _ step
    by_cases inside : Above parent node next
    · have low := inside.level_le leveled
      rw [if_pos (inside.trans (above_parent step)), if_pos inside]
      omega
    · have outside : ¬ Above parent node child := by
        intro above
        rcases (above_step step).mp above with equal | deeper
        · exact same equal.symm
        · exact inside deeper
      rw [if_neg outside, if_neg inside]
      exact more

end Moved

structure Stale (parent : Node → Option Node) (target level : Node → Nat) (stack : List Node) : Prop where
  ready : ∀ node ∈ stack, ∃ upper, parent node = some upper ∧ level upper = target upper
  wrong : ∀ node ∈ stack, level node ≠ target node
  nodup : stack.Nodup
  others : ∀ node upper, parent node = some upper → level upper = target upper →
    level node = target node ∨ node ∈ stack
  tops : ∀ node, parent node = none → level node = target node

section Stale

open Function

variable {parent : Node → Option Node} {target level : Node → Nat} {node : Node} {stack pushed : List Node}

theorem Stale.next [DecidableEq Node] (leveled : Leveled parent target)
    (stale : Stale parent target level (node :: stack))
    (pushes : ∀ child, child ∈ pushed ↔ parent child = some node ∧ level child ≠ target node + 1)
    (distinct : pushed.Nodup) :
    Stale parent target (update level node (target node)) (pushed ++ stack) := by
  have wrong := stale.wrong node List.mem_cons_self
  have fresh := List.nodup_cons.mp stale.nodup
  have apart : ∀ child ∈ pushed, child ≠ node := by
    rintro child member rfl
    have loop := leveled _ _ ((pushes child).mp member).1
    omega
  refine ⟨fun child member => ?_, fun child member => ?_, ?_, fun child upper step right => ?_,
    fun child none => ?_⟩
  · rcases List.mem_append.mp member with new | old
    · exact ⟨node, ((pushes child).mp new).1, update_self ..⟩
    · obtain ⟨upper, step, right⟩ := stale.ready child (List.mem_cons_of_mem node old)
      refine ⟨upper, step, ?_⟩
      by_cases same : upper = node
      · rw [same, update_self]
      · rw [update_of_ne same]
        exact right
  · rcases List.mem_append.mp member with new | old
    · obtain ⟨step, differs⟩ := (pushes child).mp new
      rw [update_of_ne (apart child new), leveled _ _ step]
      exact differs
    · have other : child ≠ node := fun same => fresh.1 (same ▸ old)
      rw [update_of_ne other]
      exact stale.wrong child (List.mem_cons_of_mem node old)
  · refine List.nodup_append.mpr ⟨distinct, fresh.2, fun child new other old same => ?_⟩
    -- the parents of the nodes on the stack are right, and the node was not
    obtain ⟨upper, step, right⟩ := stale.ready other (List.mem_cons_of_mem node old)
    rw [← same, ((pushes child).mp new).1] at step
    cases step
    exact wrong right
  · by_cases same : child = node
    · left
      rw [same, update_self]
    · rw [update_of_ne same]
      by_cases below : upper = node
      · subst below
        by_cases good : level child = target upper + 1
        · left
          rw [good, leveled _ _ step]
        · right
          exact List.mem_append_left stack ((pushes child).mpr ⟨step, good⟩)
      · rw [update_of_ne below] at right
        rcases stale.others child upper step right with good | onStack
        · exact .inl good
        · rcases List.mem_cons.mp onStack with equal | deeper
          · exact absurd equal same
          · exact .inr (List.mem_append_right pushed deeper)
  · by_cases same : child = node
    · rw [same, update_self]
    · rw [update_of_ne same]
      exact stale.tops child none

theorem Stale.done (leveled : Leveled parent target) (stale : Stale parent target level []) : level = target := by
  funext node
  generalize height : target node = depth
  induction depth using Nat.strongRecOn generalizing node with
  | ind depth ih =>
      rw [← height]
      cases step : parent node with
      | none => exact stale.tops node step
      | some upper =>
          have more := leveled _ _ step
          have right := ih (target upper) (by omega) upper rfl
          exact (stale.others node upper step right).resolve_right List.not_mem_nil

end Stale

end EvmBackend.ParentTrees
