/-
The dominator tree after a block was split off: a new block takes over some of the
edges into its only successor.

The tree of a graph is correct if it has just the blocks that can be reached, and
a block is above another if it dominates it. The split asks the old tree whether
the edges that stay come from below the successor, and makes a place for the new
block under the nearest dominator of its predecessors.
-/

import EvmBackend.DominatorTree.Queries
import EvmBackend.Library.Dominance
import Mathlib.Data.List.TakeWhile

namespace EvmBackend.DominatorTree

open ParentTrees Dominance Function List Option

variable {Block : Type} [DecidableEq Block]

structure Cfg (Block : Type) where
  entry : Block
  predecessors : Block → List Block
  successors : Block → List Block

namespace Cfg

def Edge {Block : Type} (cfg : Cfg Block) (block succ : Block) : Prop := block ∈ cfg.predecessors succ

def Paired (cfg : Cfg Block) : Prop :=
  ∀ block succ, (cfg.predecessors succ).count block = (cfg.successors block).count succ

end Cfg

/-- Whether every predecessor of the successor, the new block aside, is below the
successor or unreachable. -/
def newBBDominatesNewBBSucc (newBB newBBSucc : Block) : List Block → DominatorTree Block →
    Option (Bool × DominatorTree Block)
  | [], tree => some (true, tree)
  | pred :: preds, tree =>
      if pred = newBB then newBBDominatesNewBBSucc newBB newBBSucc preds tree
      else do
        let (dominated, next) ← tree.dominates newBBSucc pred
        if !dominated && next.isReachableFromEntry pred then some (false, next)
        else newBBDominatesNewBBSucc newBB newBBSucc preds next

/-- The nearest common dominator of the reachable blocks, from the one found so far. -/
def nearestOfPreds (entry : Block) (tree : DominatorTree Block) : Block → List Block → Option Block
  | newBBIDom, [] => some newBBIDom
  | newBBIDom, pred :: preds =>
      if tree.isReachableFromEntry pred then do
        let found ← tree.findNearestCommonDominator entry newBBIDom pred
        let nearest ← found
        nearestOfPreds entry tree nearest preds
      else nearestOfPreds entry tree newBBIDom preds

/-- The graph is that with the new block; nothing is done if it cannot be reached. -/
def split (cfg : Cfg Block) (newBB : Block) (tree : DominatorTree Block) : Option (DominatorTree Block) :=
  match cfg.successors newBB with
  | [newBBSucc] => do
      guard (cfg.predecessors newBB ≠ [])
      let (takesOver, asked) ← newBBDominatesNewBBSucc newBB newBBSucc (cfg.predecessors newBBSucc) tree
      match (cfg.predecessors newBB).dropWhile fun pred => !asked.isReachableFromEntry pred with
      | [] => some asked
      | first :: preds => do
          let newBBIDom ← nearestOfPreds cfg.entry asked first preds
          let added ← asked.addNewBlock newBB newBBIDom
          if takesOver then added.changeImmediateDominator newBBSucc newBB else some added
  | _ => none

structure Correct (cfg : Cfg Block) (tree : DominatorTree Block) : Prop where
  consistent : Consistent tree
  root : tree.rootNode = some cfg.entry
  known : ∀ block, tree.known block ↔ Reachable cfg.Edge cfg.entry block
  above : ∀ block, tree.known block → ∀ other,
    (Above tree.idomOf other block ↔ Dominates cfg.Edge cfg.entry other block)

structure Splits (cfg next : Cfg Block) (newBB newBBSucc : Block) (moved rest : List Block) : Prop where
  entry : next.entry = cfg.entry
  some_ : moved ≠ []
  before : (cfg.predecessors newBBSucc).Perm (moved ++ rest)
  intoNew : (next.predecessors newBB).Perm moved
  intoSucc : (next.predecessors newBBSucc).Perm (newBB :: rest)
  others : ∀ block, block ≠ newBB → block ≠ newBBSucc → (next.predecessors block).Perm (cfg.predecessors block)
  notEntry : newBB ≠ cfg.entry
  fresh : cfg.predecessors newBB = []
  unused : ∀ block, newBB ∉ cfg.predecessors block
  paired : next.Paired

variable {cfg next : Cfg Block} {tree asked : DominatorTree Block} {newBB newBBSucc : Block}
    {moved rest : List Block}

section Splits

variable (splits : Splits cfg next newBB newBBSucc moved rest)

include splits

theorem Splits.apart : newBB ≠ newBBSucc := by
  intro same
  have none := splits.before
  rw [← same, splits.fresh] at none
  exact splits.some_ (append_eq_nil_iff.mp none.symm.eq_nil).1

theorem Splits.edges : SplitsEdges cfg.Edge next.Edge (· ∈ moved) (· ∈ rest) newBB newBBSucc := by
  refine ⟨fun block => ?_, fun block => ?_, fun block => ?_, fun block other new succ => ?_,
    fun block other taken => ⟨fun same => ?_, fun same => ?_⟩, splits.apart⟩
  · rw [← mem_append]
    exact splits.before.mem_iff
  · exact splits.intoNew.mem_iff
  · rw [← mem_cons]
    exact splits.intoSucc.mem_iff
  · exact (splits.others other new succ).mem_iff
  · exact splits.unused other (same ▸ taken)
  · have none := splits.fresh
    rw [← same] at none
    change block ∈ cfg.predecessors other at taken
    rw [none] at taken
    exact not_mem_nil taken

theorem Splits.successors : next.successors newBB = [newBBSucc] := by
  refine perm_singleton.mp (perm_iff_count.mpr fun block => ?_)
  rw [← splits.paired newBB block]
  have unused : newBB ∉ moved ∧ newBB ∉ rest := by
    rw [← not_or, ← mem_append]
    exact fun member => splits.unused newBBSucc (splits.before.mem_iff.mpr member)
  by_cases succ : block = newBBSucc
  · rw [succ, splits.intoSucc.count_eq, count_cons_self, count_eq_zero.mpr unused.2,
      count_singleton_self]
  · have other : block ∉ [newBBSucc] := fun member => succ (mem_singleton.mp member)
    rw [count_eq_zero.mpr other]
    by_cases new : block = newBB
    · rw [new, splits.intoNew.count_eq]
      exact count_eq_zero.mpr unused.1
    · rw [(splits.others block new succ).count_eq]
      exact count_eq_zero.mpr (splits.unused block)

end Splits

theorem newBBDominatesNewBBSucc_spec (good : Consistent tree) (preds : List Block) :
    ∃ answer asked, newBBDominatesNewBBSucc newBB newBBSucc preds tree = some (answer, asked) ∧
      SameTree tree asked ∧ Consistent asked ∧
      (answer = true ↔ ∀ pred ∈ preds, pred ≠ newBB → tree.known pred →
        newBBSucc = pred ∨ tree.known newBBSucc ∧ Above tree.idomOf newBBSucc pred) := by
  induction preds generalizing tree with
  | nil =>
      exact ⟨true, tree, rfl, SameTree.refl tree, good, iff_of_true rfl fun _ none =>
        absurd none not_mem_nil⟩
  | cons pred preds ih =>
      rw [newBBDominatesNewBBSucc]
      by_cases new : pred = newBB
      · rw [if_pos new]
        obtain ⟨answer, asked, ran, same, good, decides⟩ := ih good
        refine ⟨answer, asked, ran, same, good, decides.trans ?_⟩
        rw [forall_mem_cons]
        exact (and_iff_right fun old => absurd new old).symm
      · rw [if_neg new]
        obtain ⟨dominated, middle, ran, answers, same, good⟩ := dominates_spec good newBBSucc pred
        dsimp only [bind, pure]
        rw [ran, bind_some]
        dsimp only
        have reachable : middle.isReachableFromEntry pred = true ↔ tree.known pred := by
          unfold isReachableFromEntry
          rw [isSome_iff_ne_none, ← same.known]
          exact Iff.rfl
        by_cases stops : (!dominated && middle.isReachableFromEntry pred) = true
        · rw [if_pos stops]
          rw [Bool.and_eq_true, Bool.not_eq_true', reachable] at stops
          refine ⟨false, middle, rfl, same, good, iff_of_false Bool.false_ne_true fun all => ?_⟩
          have holds := all pred mem_cons_self new stops.2
          have yes : dominated = true := answers.mpr (holds.imp id .inr)
          exact Bool.false_ne_true (stops.1.symm.trans yes)
        · rw [if_neg stops]
          obtain ⟨answer, asked, ran, later, good, decides⟩ := ih good
          refine ⟨answer, asked, ran, same.trans later, good, decides.trans ?_⟩
          rw [forall_mem_cons, same.known, same.idomOf, iff_comm]
          refine and_iff_right fun _ known => ?_
          have yes : dominated = true := by
            by_contra no
            exact stops (Bool.and_eq_true_iff.mpr ⟨by rw [eq_false_of_ne_true no]; rfl, reachable.mpr known⟩)
          rcases answers.mp yes with here | unknown | above
          · exact .inl here
          · exact absurd known unknown
          · exact .inr above

theorem nearestOfPreds_spec {entry : Block} (good : WellFormed tree) (root : tree.rootNode = some entry)
    (preds : List Block) {first : Block} (here : tree.known first) :
    ∃ nearest, nearestOfPreds entry tree first preds = some nearest ∧ tree.known nearest ∧
      ∀ other, Above tree.idomOf other nearest ↔
        Above tree.idomOf other first ∧ ∀ pred ∈ preds, tree.known pred → Above tree.idomOf other pred := by
  induction preds generalizing first with
  | nil =>
      refine ⟨first, rfl, here, fun other => ?_⟩
      exact (and_iff_left fun pred none => absurd none not_mem_nil).symm
  | cons pred preds ih =>
      rw [nearestOfPreds]
      by_cases reachable : tree.isReachableFromEntry pred = true
      · rw [if_pos reachable]
        have known : tree.known pred := isSome_iff_ne_none.mp reachable
        obtain ⟨common, found, both⟩ := findNearestCommonDominator_spec good here known root
        obtain ⟨nearest, ran, there, above⟩ := ih (known_nearest good both.aboveLeft here)
        refine ⟨nearest, ?_, there, fun other => ?_⟩
        · dsimp only [bind, pure]
          rw [found, bind_some, bind_some]
          exact ran
        · rw [above, forall_mem_cons, ← and_assoc]
          refine and_congr_left fun _ => ⟨fun up => ⟨up.trans both.aboveLeft, fun _ => up.trans both.aboveRight⟩,
            fun each => both.lowest other each.1 (each.2 known)⟩
      · rw [if_neg reachable]
        have unknown : ¬tree.known pred := fun known => reachable (isSome_iff_ne_none.mpr known)
        obtain ⟨nearest, ran, there, above⟩ := ih here
        refine ⟨nearest, ran, there, fun other => ?_⟩
        rw [above, forall_mem_cons]
        exact and_congr_right fun _ => (and_iff_right fun known => absurd known unknown).symm

/-! ### The new tree -/

theorem Correct.same (correct : Correct cfg tree) (same : SameTree tree asked) (good : Consistent asked) :
    Correct cfg asked := by
  refine ⟨good, same.rootNode.trans correct.root, fun block => ?_, fun block here other => ?_⟩
  · rw [same.known]
    exact correct.known block
  · rw [same.known] at here
    rw [same.idomOf]
    exact correct.above block here other

theorem correct_of_parents (good : Consistent tree) (root : tree.rootNode = some cfg.entry)
    (known : ∀ block, tree.known block ↔ Reachable cfg.Edge cfg.entry block)
    (steps : ∀ child upper, tree.known child → tree.idomOf child = some upper → ∀ other,
      Dominates cfg.Edge cfg.entry other child ↔ other = child ∨ Dominates cfg.Edge cfg.entry other upper) :
    Correct cfg tree := by
  refine ⟨good, root, known, fun block here other => ?_⟩
  refine above_iff_of_parents good.leveled (fun upper lower => Dominates cfg.Edge cfg.entry upper lower)
    good.known_idom (fun top known none other => ?_) steps here other
  have entry : top = cfg.entry := Option.some.inj ((good.root top known none).1.symm.trans root)
  rw [entry]
  exact dominates_entry

theorem Correct.step {child upper : Block} (correct : Correct cfg tree) (here : tree.known child)
    (step : tree.idomOf child = some upper) (other : Block) :
    Dominates cfg.Edge cfg.entry other child ↔ other = child ∨ Dominates cfg.Edge cfg.entry other upper := by
  rw [← correct.above child here, above_step step,
    correct.above upper (correct.consistent.known_idom child upper step)]

section NewTree

variable (noPreds : cfg.predecessors cfg.entry = []) (correct : Correct cfg tree)
  (splits : Splits cfg next newBB newBBSucc moved rest)

include splits

theorem Splits.entered (noPreds : cfg.predecessors cfg.entry = []) : cfg.entry ≠ newBBSucc := by
  intro same
  have none := splits.before
  rw [← same, noPreds] at none
  exact splits.some_ (append_eq_nil_iff.mp none.symm.eq_nil).1

theorem Splits.unknown (correct : Correct cfg tree) : ¬tree.known newBB := by
  rw [correct.known]
  intro path
  cases path with
  | start => exact splits.notEntry rfl
  | step _ taken =>
      change _ ∈ cfg.predecessors newBB at taken
      rw [splits.fresh] at taken
      exact not_mem_nil taken

theorem Splits.dominates_old {other block : Block} (otherOld : other ≠ newBB) (old : block ≠ newBB) :
    Dominates next.Edge next.entry other block ↔ Dominates cfg.Edge cfg.entry other block := by
  rw [splits.entry]
  exact not_congr (splits.edges.reaches_iff otherOld.symm splits.notEntry.symm old)

theorem Splits.dominates_new {other : Block} (otherOld : other ≠ newBB) :
    Dominates next.Edge next.entry other newBB ↔ ∀ last ∈ moved, Dominates cfg.Edge cfg.entry other last := by
  unfold Dominates
  rw [splits.entry, splits.edges.reaches_new otherOld.symm splits.notEntry.symm]
  exact ⟨fun none last moves path => none ⟨last, moves, path⟩, fun all ⟨last, moves, path⟩ => all last moves path⟩

theorem Splits.reachable_old {block : Block} (old : block ≠ newBB) :
    Reachable next.Edge next.entry block ↔ Reachable cfg.Edge cfg.entry block := by
  unfold Reachable
  rw [splits.entry]
  exact splits.edges.reaches_iff trivial splits.notEntry.symm old

theorem Splits.reachable_new :
    Reachable next.Edge next.entry newBB ↔ ∃ last ∈ moved, Reachable cfg.Edge cfg.entry last := by
  unfold Reachable
  rw [splits.entry]
  exact splits.edges.reaches_new trivial splits.notEntry.symm

theorem Splits.answer_iff (correct : Correct cfg tree) :
    (∀ pred ∈ next.predecessors newBBSucc, pred ≠ newBB → tree.known pred →
        newBBSucc = pred ∨ tree.known newBBSucc ∧ Above tree.idomOf newBBSucc pred) ↔
      ∀ last ∈ rest, Dominates cfg.Edge cfg.entry newBBSucc last := by
  constructor
  · intro answers last stays path
    have known : tree.known last := (correct.known last).mpr path.reachable
    have old : last ≠ newBB := fun same => splits.unknown correct (same ▸ known)
    have member := splits.intoSucc.mem_iff.mpr (mem_cons_of_mem newBB stays)
    rcases answers last member old known with here | ⟨-, above⟩
    · exact path.free here.symm
    · exact (correct.above last known newBBSucc).mp above path
  · intro each pred member old known
    have stays := (mem_cons.mp (splits.intoSucc.mem_iff.mp member)).resolve_left old
    have taken : cfg.Edge pred newBBSucc := splits.before.mem_iff.mpr (mem_append_right moved stays)
    refine .inr ⟨(correct.known newBBSucc).mpr ?_, (correct.above pred known newBBSucc).mpr (each pred stays)⟩
    exact .step ((correct.known pred).mp known) taken trivial

theorem Splits.correct_unreachable (correct : Correct cfg tree)
    (none : ∀ last ∈ moved, ¬tree.known last) : Correct next tree := by
  have lost : ¬Reachable next.Edge next.entry newBB := by
    rw [splits.reachable_new]
    rintro ⟨last, moves, path⟩
    exact none last moves ((correct.known last).mpr path)
  have missing := splits.unknown correct
  refine ⟨correct.consistent, correct.root.trans (congrArg some splits.entry.symm), fun block => ?_,
    fun block here other => ?_⟩
  · by_cases new : block = newBB
    · rw [new]
      exact iff_of_false missing lost
    · rw [splits.reachable_old new]
      exact correct.known block
  · have old : block ≠ newBB := fun same => missing (same ▸ here)
    by_cases new : other = newBB
    · rw [new]
      refine iff_of_false (not_above_unknown correct.consistent.toWellFormed missing here) fun dominates => ?_
      have path := (splits.reachable_old old).mpr ((correct.known block).mp here)
      rcases path.avoids_or_meets newBB with avoids | meets
      · exact dominates (avoids.mono fun _ both => both.2)
      · exact lost meets
    · rw [splits.dominates_old new old]
      exact correct.above block here other

/-- The tree with the new block under the nearest dominator of its predecessors. -/
structure Placed (tree : DominatorTree Block) (newBB nearest : Block) (moved : List Block)
    (after : DominatorTree Block) : Prop where
  consistent : Consistent after
  root : after.rootNode = tree.rootNode
  known : ∀ block, after.known block ↔ block = newBB ∨ tree.known block
  inside : tree.known nearest
  above : ∀ other, Above tree.idomOf other nearest ↔ ∀ pred ∈ moved, tree.known pred →
    Above tree.idomOf other pred

omit splits in
theorem Correct.nearest_dominates (correct : Correct cfg tree) {nearest : Block} {after : DominatorTree Block}
    (placed : Placed tree newBB nearest moved after) (other : Block) :
    Dominates cfg.Edge cfg.entry other nearest ↔ ∀ last ∈ moved, Dominates cfg.Edge cfg.entry other last := by
  rw [← correct.above nearest placed.inside, placed.above]
  refine ⟨fun all last moves path => ?_, fun all last moves known => ?_⟩
  · have known := (correct.known last).mpr path.reachable
    exact (correct.above last known other).mp (all last moves known) path
  · exact (correct.above last known other).mpr (all last moves)

theorem Splits.step_new (correct : Correct cfg tree) {nearest : Block} {after : DominatorTree Block}
    (placed : Placed tree newBB nearest moved after) (other : Block) :
    Dominates next.Edge next.entry other newBB ↔
      other = newBB ∨ Dominates next.Edge next.entry other nearest := by
  have old : nearest ≠ newBB := fun same => splits.unknown correct (same ▸ placed.inside)
  by_cases new : other = newBB
  · rw [new]
    exact iff_of_true (dominates_self newBB) (.inl rfl)
  · rw [splits.dominates_new new, splits.dominates_old new old, correct.nearest_dominates placed]
    exact (or_iff_right new).symm

theorem Splits.known_placed (correct : Correct cfg tree) {nearest : Block} {after : DominatorTree Block}
    (placed : Placed tree newBB nearest moved after) {first : Block} (moves : first ∈ moved)
    (reached : tree.known first) (block : Block) :
    after.known block ↔ Reachable next.Edge next.entry block := by
  rw [placed.known]
  by_cases new : block = newBB
  · rw [new]
    exact iff_of_true (.inl rfl) (splits.reachable_new.mpr ⟨first, moves, (correct.known first).mp reached⟩)
  · rw [or_iff_right new, splits.reachable_old new]
    exact correct.known block

theorem Splits.correct_kept (noPreds : cfg.predecessors cfg.entry = []) (correct : Correct cfg tree)
    {nearest : Block} {after : DominatorTree Block} (placed : Placed tree newBB nearest moved after)
    (idoms : after.idomOf = update tree.idomOf newBB (some nearest))
    (stays : ¬∀ last ∈ rest, Dominates cfg.Edge cfg.entry newBBSucc last)
    {first : Block} (moves : first ∈ moved) (reached : tree.known first) : Correct next after := by
  have edges := splits.edges
  have around : Reaches next.Edge (fun step => step ≠ newBB) cfg.entry newBBSucc := by
    by_contra dominates
    exact stays ((edges.new_dominates_succ splits.notEntry.symm (splits.entered noPreds)).mp dominates)
  have lone {block : Block} (here : tree.known block) : ¬Dominates next.Edge next.entry newBB block := by
    rw [splits.entry]
    exact edges.not_new_dominates splits.notEntry.symm around ((correct.known block).mp here)
  refine correct_of_parents placed.consistent
    (placed.root.trans (correct.root.trans (congrArg some splits.entry.symm)))
    (splits.known_placed correct placed moves reached) fun child upper here step other => ?_
  rw [idoms] at step
  by_cases new : child = newBB
  · subst new
    rw [update_self] at step
    cases step
    exact splits.step_new correct placed other
  · rw [update_of_ne new] at step
    have known := ((placed.known child).mp here).resolve_left new
    have inside := correct.consistent.known_idom child upper step
    have old : upper ≠ newBB := fun same => splits.unknown correct (same ▸ inside)
    by_cases isNew : other = newBB
    · rw [isNew]
      exact iff_of_false (lone known) fun either => either.elim (fun same => new same.symm) (lone inside)
    · rw [splits.dominates_old isNew new, splits.dominates_old isNew old]
      exact correct.step known step other

theorem Splits.correct_takenOver (noPreds : cfg.predecessors cfg.entry = []) (correct : Correct cfg tree)
    {nearest : Block} {after : DominatorTree Block} (placed : Placed tree newBB nearest moved after)
    (idoms : after.idomOf = update (update tree.idomOf newBB (some nearest)) newBBSucc (some newBB))
    (each : ∀ last ∈ rest, Dominates cfg.Edge cfg.entry newBBSucc last)
    {first : Block} (moves : first ∈ moved) (reached : tree.known first) : Correct next after := by
  have edges := splits.edges
  have entered := splits.entered noPreds
  have below (block : Block) :
      Dominates next.Edge next.entry newBB block ↔ Dominates cfg.Edge cfg.entry newBBSucc block := by
    rw [splits.entry]
    exact edges.new_dominates_iff splits.notEntry.symm entered each
  refine correct_of_parents placed.consistent
    (placed.root.trans (correct.root.trans (congrArg some splits.entry.symm)))
    (splits.known_placed correct placed moves reached) fun child upper here step other => ?_
  rw [idoms] at step
  by_cases succ : child = newBBSucc
  · subst succ
    rw [update_self] at step
    cases step
    by_cases isNew : other = newBB
    · rw [isNew]
      exact iff_of_true ((below child).mpr (dominates_self child)) (.inr (dominates_self newBB))
    · by_cases isSucc : other = child
      · rw [isSucc]
        exact iff_of_true (dominates_self child) (.inl rfl)
      · rw [splits.dominates_old isNew splits.apart.symm, splits.dominates_new isNew,
          edges.dominates_succ_iff entered each isSucc]
        exact (or_iff_right isSucc).symm
  · rw [update_of_ne succ] at step
    by_cases new : child = newBB
    · subst new
      rw [update_self] at step
      cases step
      exact splits.step_new correct placed other
    · rw [update_of_ne new] at step
      have known := ((placed.known child).mp here).resolve_left new
      have inside := correct.consistent.known_idom child upper step
      have old : upper ≠ newBB := fun same => splits.unknown correct (same ▸ inside)
      by_cases isNew : other = newBB
      · rw [isNew, below, below, correct.step known step newBBSucc, or_iff_right fun same => succ same.symm]
        exact (or_iff_right fun same => new same.symm).symm
      · rw [splits.dominates_old isNew new, splits.dominates_old isNew old]
        exact correct.step known step other

end NewTree

theorem isReachable_iff {block : Block} : tree.isReachableFromEntry block = true ↔ tree.known block :=
  isSome_iff_ne_none

theorem not_isReachable_iff {block : Block} : (!tree.isReachableFromEntry block) = true ↔ ¬tree.known block := by
  rw [Bool.not_eq_true', ← Bool.not_eq_true, isReachable_iff]

theorem first_reachable {list preds : List Block} {first : Block}
    (left : (list.dropWhile fun pred => !tree.isReachableFromEntry pred) = first :: preds) :
    first ∈ list ∧ tree.known first ∧ ∀ property : Block → Prop,
      (∀ pred ∈ list, tree.known pred → property pred) ↔
        property first ∧ ∀ pred ∈ preds, tree.known pred → property pred := by
  have whole := takeWhile_append_dropWhile (p := fun pred => !tree.isReachableFromEntry pred) (l := list)
  rw [left] at whole
  have member : first ∈ list := by
    rw [← whole]
    exact mem_append_right _ mem_cons_self
  have here : tree.known first := by
    have head := head_dropWhile_not (fun pred => !tree.isReachableFromEntry pred) (l := list)
      (left ▸ cons_ne_nil first preds)
    simp only [left, head_cons] at head
    by_contra missing
    exact Bool.false_ne_true (head.symm.trans (not_isReachable_iff.mpr missing))
  refine ⟨member, here, fun property => ?_⟩
  rw [← whole, forall_mem_append, forall_mem_cons]
  constructor
  · rintro ⟨-, atFirst, rest⟩
    exact ⟨atFirst here, rest⟩
  · rintro ⟨atFirst, rest⟩
    refine ⟨fun pred early known => ?_, fun _ => atFirst, rest⟩
    have missing := mem_takeWhile_imp (p := fun pred => !tree.isReachableFromEntry pred) early
    exact absurd known (not_isReachable_iff.mp missing)

/-- After the split the tree is that of the new graph. -/
theorem split_correct (noPreds : cfg.predecessors cfg.entry = []) (correct : Correct cfg tree)
    (splits : Splits cfg next newBB newBBSucc moved rest) :
    ∃ after, split next newBB tree = some after ∧ Correct next after := by
  obtain ⟨takesOver, asked, answered, same, good, decides⟩ :=
    newBBDominatesNewBBSucc_spec correct.consistent (next.predecessors newBBSucc)
  rw [splits.answer_iff correct] at decides
  have correct := correct.same same good
  have some_ : next.predecessors newBB ≠ [] := by
    intro none
    have empty := splits.intoNew
    rw [none] at empty
    exact splits.some_ empty.symm.eq_nil
  have unknown := splits.unknown correct
  unfold split
  rw [splits.successors]
  dsimp only [bind, pure]
  rw [guard_pass some_, answered, bind_some]
  dsimp only
  cases left : (next.predecessors newBB).dropWhile fun pred => !asked.isReachableFromEntry pred with
  | nil =>
      refine ⟨asked, rfl, splits.correct_unreachable correct fun last moves => ?_⟩
      exact not_isReachable_iff.mp (dropWhile_eq_nil_iff.mp left last (splits.intoNew.mem_iff.mpr moves))
  | cons first preds =>
      obtain ⟨member, reached, each⟩ := first_reachable left
      have moves := splits.intoNew.mem_iff.mp member
      have root : asked.rootNode = some next.entry := correct.root.trans (congrArg some splits.entry.symm)
      obtain ⟨nearest, found, inside, above⟩ := nearestOfPreds_spec good.toWellFormed root preds reached
      obtain ⟨added, adds, formed, idoms, known, rootNode, -, invalid⟩ :=
        addNewBlock_spec good.toWellFormed unknown inside
      have nearestAbove (other : Block) : Above asked.idomOf other nearest ↔
          ∀ pred ∈ moved, asked.known pred → Above asked.idomOf other pred := by
        rw [above, ← each fun pred => Above asked.idomOf other pred]
        exact ⟨fun all pred moves => all pred (splits.intoNew.mem_iff.mpr moves),
          fun all pred member => all pred (splits.intoNew.mem_iff.mp member)⟩
      dsimp only
      rw [found, bind_some, adds, bind_some]
      by_cases takes : takesOver = true
      · rw [if_pos takes]
        have below := decides.mp takes
        have path : Reachable cfg.Edge cfg.entry newBBSucc := by
          have taken : cfg.Edge first newBBSucc := splits.before.mem_iff.mpr (mem_append_left rest moves)
          exact .step ((correct.known first).mp reached) taken trivial
        have apart : ¬Above added.idomOf newBBSucc newBB := by
          intro up
          rw [idoms, above_step (update_self newBB (some nearest) asked.idomOf), or_iff_right splits.apart.symm,
            above_moved_outside good.leveled (not_above_unknown good.toWellFormed unknown inside),
            correct.above nearest inside] at up
          have placed : Placed asked newBB nearest moved added :=
            ⟨formed.consistent invalid, rootNode, known, inside, nearestAbove⟩
          exact splits.edges.not_all_below (splits.entered noPreds) below path
            ((correct.nearest_dominates placed newBBSucc).mp up)
        obtain ⟨after, changes, formed, sameKnown, sameRoot, -, invalid, moved_⟩ :=
          changeImmediateDominator_spec formed
            ((known newBBSucc).mpr (.inr ((correct.known newBBSucc).mpr path)))
              ((known newBB).mpr (.inl rfl)) apart
        refine ⟨after, changes, splits.correct_takenOver noPreds correct
          ⟨formed.consistent invalid, sameRoot.trans rootNode, fun block => ?_, inside, nearestAbove⟩ ?_
            below moves
            reached⟩
        · rw [sameKnown]
          exact known block
        · rw [moved_, idoms]
      · rw [if_neg takes]
        exact ⟨added, rfl, splits.correct_kept noPreds correct
          ⟨formed.consistent invalid, rootNode, known, inside, nearestAbove⟩ idoms
          (fun each => takes (decides.mpr each)) moves reached⟩

def loopCfg : Cfg Nat where
  entry := 0
  predecessors := fun block => if block = 1 then [0, 1] else []
  successors := fun block => if block = 0 then [1] else if block = 1 then [1] else []

def loopTree : DominatorTree Nat := ((setNewRoot 0 (create Nat)).bind (addNewBlock 1 0)).getD (create Nat)

def preheaderCfg : Cfg Nat where
  entry := 0
  predecessors := fun block => if block = 1 then [2, 1] else if block = 2 then [0] else []
  successors := fun block => if block = 0 then [2] else if block = 1 then [1] else if block = 2 then [1] else []

theorem loopTree_correct : Correct loopCfg loopTree := by
  have empty (block : Nat) : ¬(create Nat).known block := fun here => here (AList.lookup_empty block)
  obtain ⟨first, ran, rerooted⟩ := setNewRoot_spec consistent_create.toWellFormed (empty 0) nofun
  have alone (block : Nat) : first.known block ↔ block = 0 := by
    rw [rerooted.known]
    exact or_iff_left (empty block)
  obtain ⟨tree, added, formed, idoms, known, sameRoot, -, invalid⟩ :=
    addNewBlock_spec rerooted.formed (fun here => Nat.one_ne_zero ((alone 1).mp here)) ((alone 0).mpr rfl)
  have same : loopTree = tree := by
    unfold loopTree
    rw [ran, bind_some, added, getD_some]
  have blocks (block : Nat) : tree.known block ↔ block = 1 ∨ block = 0 := by rw [known, alone]
  have edge {block succ : Nat} (taken : loopCfg.Edge block succ) : succ = 1 ∧ (block = 0 ∨ block = 1) := by
    change block ∈ (if succ = 1 then [0, 1] else []) at taken
    split at taken
    · rename_i isLoop
      exact ⟨isLoop, by simpa using taken⟩
    · exact absurd taken not_mem_nil
  have enters : loopCfg.Edge 0 1 := mem_cons_self
  rw [same]
  refine correct_of_parents (formed.consistent invalid) (sameRoot.trans rerooted.rootNode) (fun block => ?_)
    fun child upper here step other => ?_
  · rw [blocks]
    constructor
    · rintro (rfl | rfl)
      · exact .step (.start trivial) enters trivial
      · exact .start trivial
    · intro path
      cases path with
      | start => exact .inr rfl
      | step _ taken => exact .inl (edge taken).1
  · rcases (blocks child).mp here with rfl | rfl
    · rw [idoms, update_self] at step
      cases step
      rw [show (0 : Nat) = loopCfg.entry from rfl, dominates_entry]
      constructor
      · intro dominates
        by_contra neither
        rw [not_or] at neither
        exact dominates (.step (.start fun same => neither.2 same.symm) enters fun same => neither.1 same.symm)
      · rintro (rfl | rfl)
        · exact dominates_self 1
        · refine dominates_of_predecessors Nat.zero_ne_one fun last taken around => ?_
          rcases (edge taken).2 with rfl | rfl
          · exact dominates_self _
          · exact absurd rfl around.free
    · rw [idoms, update_of_ne Nat.zero_ne_one, rerooted.top (empty 0)] at step
      exact absurd step (some_ne_none upper).symm

theorem split_correct_ofPreheader :
    ∃ after, split preheaderCfg 2 loopTree = some after ∧ Correct preheaderCfg after :=
  split_correct rfl loopTree_correct
    { entry := rfl
      some_ := cons_ne_nil 0 []
      before := List.Perm.refl _
      intoNew := List.Perm.refl _
      intoSucc := List.Perm.refl _
      others := fun block new succ => by
        unfold preheaderCfg loopCfg
        dsimp only
        rw [if_neg succ, if_neg new, if_neg succ]
      notEntry := Nat.succ_ne_zero 1
      fresh := rfl
      unused := fun block => by
        unfold loopCfg
        dsimp only
        split
        · decide
        · exact not_mem_nil
      paired := fun block succ => by
        unfold preheaderCfg
        dsimp only
        grind }

end EvmBackend.DominatorTree
