/-
The links and levels of a dominator tree.

A tree is looked at through functions from blocks: immediate dominator, children,
level and numbers. To store a node is to update each of these at its block, so
what a change does is said by what it does to them.
-/

import EvmBackend.DominatorTree
import Mathlib.Data.List.Basic
import Mathlib.Data.List.Nodup
import Mathlib.Order.Lattice

namespace EvmBackend.DominatorTree

open ParentTrees Function Option

variable {Block : Type} [DecidableEq Block] {tree next : DominatorTree Block} {block other idom : Block}
  {node : DomTreeNode Block}

def known (tree : DominatorTree Block) (block : Block) : Prop := tree.getNode block ≠ none

def idomOf (tree : DominatorTree Block) (block : Block) : Option Block :=
  (tree.getNode block).bind DomTreeNode.idom

def levelOf (tree : DominatorTree Block) (block : Block) : Nat := (tree.getNode block).elim 0 DomTreeNode.level

def childrenOf (tree : DominatorTree Block) (block : Block) : List Block :=
  (tree.getNode block).elim [] DomTreeNode.children

def numInOf (tree : DominatorTree Block) (block : Block) : Nat := (tree.getNode block).elim 0 DomTreeNode.dfsNumIn

def numOutOf (tree : DominatorTree Block) (block : Block) : Nat :=
  (tree.getNode block).elim 0 DomTreeNode.dfsNumOut

instance (tree : DominatorTree Block) (block : Block) : Decidable (tree.known block) :=
  inferInstanceAs (Decidable (tree.getNode block ≠ none))

theorem known_iff : tree.known block ↔ ∃ node, tree.getNode block = some node :=
  ne_none_iff_exists'

section Found

variable (found : tree.getNode block = some node)

include found

theorem known_of_found : tree.known block := known_iff.mpr ⟨node, found⟩

theorem idomOf_found : tree.idomOf block = node.idom := by
  unfold idomOf
  rw [found, bind_some]

theorem levelOf_found : tree.levelOf block = node.level := by
  unfold levelOf
  rw [found, elim_some]

theorem childrenOf_found : tree.childrenOf block = node.children := by
  unfold childrenOf
  rw [found, elim_some]

theorem numInOf_found : tree.numInOf block = node.dfsNumIn := by
  unfold numInOf
  rw [found, elim_some]

theorem numOutOf_found : tree.numOutOf block = node.dfsNumOut := by
  unfold numOutOf
  rw [found, elim_some]

theorem pointer_found : tree.pointer block = some block := by
  unfold pointer
  rw [found, map_some]

end Found

theorem known_of_idom (step : tree.idomOf block = some idom) : tree.known block := by
  intro missing
  unfold idomOf at step
  rw [missing, bind_none] at step
  exact absurd step (some_ne_none idom).symm

theorem known_of_child (member : other ∈ tree.childrenOf block) : tree.known block := by
  intro missing
  unfold childrenOf at member
  rw [missing, elim_none] at member
  exact absurd member List.not_mem_nil

@[simp] theorem getNode_setNode_self : (tree.setNode block node).getNode block = some node :=
  AList.lookup_insert tree.domTreeNodes

theorem getNode_setNode_ne (differs : other ≠ block) :
    (tree.setNode block node).getNode other = tree.getNode other :=
  AList.lookup_insert_ne differs

theorem view_setNode {View : Type} (view : Option (DomTreeNode Block) → View) :
    (fun other => view ((tree.setNode block node).getNode other)) =
      update (fun other => view (tree.getNode other)) block (view (some node)) := by
  funext other
  by_cases same : other = block
  · rw [same, getNode_setNode_self, update_self]
  · rw [getNode_setNode_ne same, update_of_ne same]

@[simp] theorem idomOf_setNode : (tree.setNode block node).idomOf = update tree.idomOf block node.idom :=
  view_setNode fun found => found.bind DomTreeNode.idom

@[simp] theorem levelOf_setNode : (tree.setNode block node).levelOf = update tree.levelOf block node.level :=
  view_setNode fun found => found.elim 0 DomTreeNode.level

@[simp] theorem childrenOf_setNode :
    (tree.setNode block node).childrenOf = update tree.childrenOf block node.children :=
  view_setNode fun found => found.elim [] DomTreeNode.children

@[simp] theorem numInOf_setNode : (tree.setNode block node).numInOf = update tree.numInOf block node.dfsNumIn :=
  view_setNode fun found => found.elim 0 DomTreeNode.dfsNumIn

@[simp] theorem numOutOf_setNode :
    (tree.setNode block node).numOutOf = update tree.numOutOf block node.dfsNumOut :=
  view_setNode fun found => found.elim 0 DomTreeNode.dfsNumOut

theorem known_setNode : (tree.setNode block node).known other ↔ other = block ∨ tree.known other := by
  unfold known
  by_cases same : other = block
  · rw [same, getNode_setNode_self]
    exact iff_of_true (some_ne_none node) (.inl rfl)
  · rw [getNode_setNode_ne same]
    exact (or_iff_right same).symm

def blocks {Block : Type} (tree : DominatorTree Block) : List Block := tree.domTreeNodes.keys

theorem mem_blocks : block ∈ tree.blocks ↔ tree.known block := by
  unfold blocks known getNode
  rw [← AList.mem_keys, ← AList.lookup_isSome, isSome_iff_ne_none]

theorem length_blocks {Block : Type} (tree : DominatorTree Block) : tree.blocks.length = tree.size := by
  unfold blocks AList.keys List.keys size
  rw [List.length_map]

structure Linked (tree : DominatorTree Block) : Prop where
  known_idom : ∀ block idom, tree.idomOf block = some idom → tree.known idom
  mem_children : ∀ child block, child ∈ tree.childrenOf block ↔ tree.idomOf child = some block
  nodup : ∀ block, (tree.childrenOf block).Nodup

structure WellFormed (tree : DominatorTree Block) : Prop extends Linked tree where
  leveled : Leveled tree.idomOf tree.levelOf
  root : ∀ block, tree.known block → tree.idomOf block = none →
    tree.rootNode = some block ∧ tree.levelOf block = 0 ∧ tree.roots = [block]

structure SameLinks (tree next : DominatorTree Block) : Prop where
  idomOf : next.idomOf = tree.idomOf
  childrenOf : next.childrenOf = tree.childrenOf
  known : next.known = tree.known
  rootNode : next.rootNode = tree.rootNode
  roots : next.roots = tree.roots

theorem SameLinks.refl (tree : DominatorTree Block) : SameLinks tree tree := ⟨rfl, rfl, rfl, rfl, rfl⟩

theorem SameLinks.trans {last : DominatorTree Block} (one : SameLinks tree next) (two : SameLinks next last) :
    SameLinks tree last :=
  ⟨two.idomOf.trans one.idomOf, two.childrenOf.trans one.childrenOf, two.known.trans one.known,
    two.rootNode.trans one.rootNode, two.roots.trans one.roots⟩

theorem SameLinks.setNode (found : tree.getNode block = some node) {changed : DomTreeNode Block}
    (idom : changed.idom = node.idom) (children : changed.children = node.children) :
    SameLinks tree (tree.setNode block changed) := by
  refine ⟨?_, ?_, ?_, rfl, rfl⟩
  · rw [idomOf_setNode, idom, ← idomOf_found found, update_eq_self]
  · rw [childrenOf_setNode, children, ← childrenOf_found found, update_eq_self]
  · funext other
    apply propext
    rw [known_setNode]
    exact ⟨fun either => either.elim (fun same => same ▸ known_of_found found) id, .inr⟩

theorem Linked.same (linked : Linked tree) (same : SameLinks tree next) : Linked next := by
  refine ⟨fun block idom step => ?_, fun child block => ?_, fun block => ?_⟩
  · rw [same.known]
    rw [same.idomOf] at step
    exact linked.known_idom block idom step
  · rw [same.childrenOf, same.idomOf]
    exact linked.mem_children child block
  · rw [same.childrenOf]
    exact linked.nodup block

end EvmBackend.DominatorTree
