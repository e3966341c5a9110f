/-
A dominator tree over its whole life. Clients add blocks, move and erase them, put new
roots on top, and ask in between, in any order. What the tree stands for is the set of its
blocks with the block right above each; the levels, the lists of children and the numbers
of the depth-first walk follow from that.
-/

import EvmBackend.DominatorTree.Split
import EvmBackend.Library.Runs

namespace EvmBackend

open ParentTrees Function

structure DomParents (Block : Type) where
  blocks : Set Block
  parent : Block → Option Block

namespace DominatorTree

variable {Block : Type} [DecidableEq Block] {tree next last : DominatorTree Block} {parents : DomParents Block}

inductive Call (Block : Type)
  | setNewRoot (block : Block)
  | addNewBlock (block domBlock : Block)
  | changeImmediateDominator (block newBlock : Block)
  | eraseNode (block : Block)
  | updateDFSNumbers
  | dominates (above below : Block)
  deriving DecidableEq, Repr

def apply : Call Block → DominatorTree Block → Option (DominatorTree Block)
  | .setNewRoot block => setNewRoot block
  | .addNewBlock block domBlock => addNewBlock block domBlock
  | .changeImmediateDominator block newBlock => changeImmediateDominator block newBlock
  | .eraseNode block => eraseNode block
  | .updateDFSNumbers => updateDFSNumbers
  | .dominates above below => fun tree => (dominates above below tree).map Prod.snd

open Classical in
/-- What the calls mean. The blocks without one above are under a new root. -/
noncomputable def effect : Call Block → DomParents Block → DomParents Block
  | .setNewRoot block, parents => ⟨insert block parents.blocks,
      fun other => if other ∈ parents.blocks ∧ parents.parent other = none then some block
        else parents.parent other⟩
  | .addNewBlock block domBlock,
    parents => ⟨insert block parents.blocks, update parents.parent block (some domBlock)⟩
  | .changeImmediateDominator block newBlock,
    parents => ⟨parents.blocks, update parents.parent block (some newBlock)⟩
  | .eraseNode block, parents => ⟨parents.blocks \ {block}, update parents.parent block none⟩
  | .updateDFSNumbers, parents => parents
  | .dominates _ _, parents => parents

/-- What the source asserts before a call. A block is not put below itself, and the root
is not erased: it would stay behind as the root that a new one is put above. -/
def Allowed : Call Block → DomParents Block → Prop
  | .setNewRoot block, parents => block ∉ parents.blocks
  | .addNewBlock block domBlock, parents => block ∉ parents.blocks ∧ domBlock ∈ parents.blocks
  | .changeImmediateDominator block newBlock, parents =>
      block ∈ parents.blocks ∧ newBlock ∈ parents.blocks ∧ ¬Above parents.parent block newBlock
  | .eraseNode block, parents => parents.parent block ≠ none ∧ ∀ child, parents.parent child ≠ some block
  | .updateDFSNumbers, _ => True
  | .dominates _ _, _ => True

/-- The calls on what a tree stands for. -/
noncomputable def specified (call : Call Block) (parents : DomParents Block) : Option (DomParents Block) :=
  some (effect call parents)

structure Rooted (tree : DominatorTree Block) : Prop where
  roots : ∀ root ∈ tree.roots, tree.known root
  rootNode : ∀ root ∈ tree.rootNode, tree.known root

structure Represents (tree : DominatorTree Block) (parents : DomParents Block) : Prop
    extends Consistent tree, Rooted tree where
  blocks : ∀ block, tree.known block ↔ block ∈ parents.blocks
  parent : tree.idomOf = parents.parent

theorem represents_create : Represents (create Block) ⟨∅, fun _ => none⟩ := by
  have unknown (block : Block) : ¬(create Block).known block := fun here => here (AList.lookup_empty block)
  refine ⟨consistent_create, ⟨nofun, nofun⟩,
    fun block => iff_of_false (unknown block) (Set.notMem_empty block), ?_⟩
  funext block
  exact idomOf_unknown (unknown block)

theorem Rooted.same (rooted : Rooted tree) (roots : next.roots = tree.roots)
    (rootNode : next.rootNode = tree.rootNode)
    (known : ∀ root, tree.known root → tree.idomOf root = none → next.known root) (good : WellFormed tree) :
    Rooted next := by
  have top {root : Block} (here : tree.known root) : ∃ root, tree.known root ∧ tree.idomOf root = none ∧
      tree.rootNode = some root ∧ tree.roots = [root] := by
    obtain ⟨root, present, none, named, -⟩ := good.root_above here
    exact ⟨root, present, none, named, (good.root root present none).2.2⟩
  refine ⟨fun root member => ?_, fun root member => ?_⟩
  · rw [roots] at member
    obtain ⟨other, present, none, -, single⟩ := top (rooted.roots root member)
    rw [single, List.mem_singleton] at member
    exact known root (member ▸ present) (member ▸ none)
  · rw [rootNode] at member
    obtain ⟨other, present, none, named, -⟩ := top (rooted.rootNode root member)
    obtain rfl := Option.some.inj (named.symm.trans member)
    exact known other present none

theorem Represents.same (represents : Represents tree parents) (same : SameTree tree next)
    (good : Consistent next) :
    Represents next parents := by
  refine ⟨good, represents.toRooted.same same.roots same.rootNode (fun root here _ => ?_) represents.toWellFormed,
    fun block => ?_, same.idomOf.trans represents.parent⟩
  · rw [same.known]
    exact here
  · rw [same.known]
    exact represents.blocks block

theorem updateDFSNumbers_empty (good : Consistent tree) (rooted : Rooted tree)
    (empty : ¬∃ block, tree.known block) :
    ∃ next, updateDFSNumbers tree = some next ∧ SameTree tree next ∧ Consistent next := by
  have rootless : tree.rootNode = none := by
    cases named : tree.rootNode with
    | none => rfl
    | some root => exact absurd ⟨root, rooted.rootNode root named⟩ empty
  unfold updateDFSNumbers
  split
  · exact ⟨_, rfl, ⟨⟨rfl, rfl, rfl, rfl, rfl⟩, rfl⟩, good.cached _ 0, good.numbers⟩
  · rw [rootless]
    exact ⟨tree, rfl, SameTree.refl tree, good⟩

theorem apply_represents {call : Call Block} (represents : Represents tree parents)
    (allowed : Allowed call parents) :
    ∃ next, apply call tree = some next ∧ Represents next (effect call parents) := by
  classical
  have good := represents.toWellFormed
  have rooted := represents.toRooted
  cases call with
  | setNewRoot block =>
      have missing : ¬tree.known block := fun here => allowed ((represents.blocks block).mp here)
      obtain ⟨next, ran, rerooted⟩ := setNewRoot_spec good missing rooted.roots
      have here : next.known block := (rerooted.known block).mpr (.inl rfl)
      refine ⟨next, ran, rerooted.formed.consistent rerooted.invalid, ⟨?_, ?_⟩, fun other => ?_, ?_⟩
      · rw [rerooted.roots]
        exact List.forall_mem_singleton.mpr here
      · rw [rerooted.rootNode]
        rintro root ⟨⟩
        exact here
      · rw [rerooted.known, represents.blocks]
        exact Set.mem_insert_iff.symm
      · funext other
        rw [rerooted.parents, represents.parent]
        exact if_congr (and_congr_left' (represents.blocks other)) rfl rfl
  | addNewBlock block domBlock =>
      have missing : ¬tree.known block := fun here => allowed.1 ((represents.blocks block).mp here)
      obtain ⟨next, ran, formed, idoms, known, rootNode, roots, invalid⟩ :=
        addNewBlock_spec good missing ((represents.blocks domBlock).mpr allowed.2)
      refine ⟨next, ran, formed.consistent invalid,
        rooted.same roots rootNode (fun root here _ => (known root).mpr (.inr here)) good, fun other => ?_, ?_⟩
      · rw [known, represents.blocks]
        exact Set.mem_insert_iff.symm
      · rw [idoms, represents.parent]
        rfl
  | changeImmediateDominator block newBlock =>
      obtain ⟨here, there, apart⟩ := allowed
      rw [← represents.parent] at apart
      obtain ⟨next, ran, formed, known, rootNode, roots, invalid, idoms⟩ := changeImmediateDominator_spec good
        ((represents.blocks block).mpr here) ((represents.blocks newBlock).mpr there) apart
      refine ⟨next, ran, formed.consistent invalid, rooted.same roots rootNode (fun root here _ => ?_) good,
        fun other => ?_, ?_⟩
      · rw [known]
        exact here
      · rw [known]
        exact represents.blocks other
      · rw [idoms, represents.parent]
        rfl
  | eraseNode block =>
      obtain ⟨below, leaf⟩ := allowed
      rw [← represents.parent] at below leaf
      obtain ⟨upper, step⟩ := Option.ne_none_iff_exists'.mp below
      obtain ⟨next, ran, formed, invalid, rootNode, roots, known, idoms⟩ :=
        eraseNode_spec good (known_of_idom step) leaf
      refine ⟨next, ran, formed.consistent invalid, rooted.same roots rootNode (fun root here none => ?_) good,
        fun other => ?_, ?_⟩
      · exact (known root).mpr ⟨fun same => below (same ▸ none), here⟩
      · rw [known, represents.blocks]
        exact and_comm
      · rw [idoms, represents.parent]
        rfl
  | updateDFSNumbers =>
      by_cases empty : ∃ block, tree.known block
      · obtain ⟨block, here⟩ := empty
        obtain ⟨next, ran, same, consistent, _⟩ := updateDFSNumbers_spec represents.toConsistent here
        exact ⟨next, ran, represents.same same consistent⟩
      · obtain ⟨next, ran, same, consistent⟩ := updateDFSNumbers_empty represents.toConsistent rooted empty
        exact ⟨next, ran, represents.same same consistent⟩
  | dominates above below =>
      obtain ⟨_, next, ran, _, same, consistent⟩ := dominates_spec represents.toConsistent above below
      exact ⟨next, congrArg (Option.map Prod.snd) ran, represents.same same consistent⟩

theorem run_represents {calls : List (Call Block)} (represents : Represents tree parents)
    (allowed : Runs.EveryStep specified Allowed calls parents) :
    ∃ next, Runs.run apply calls tree = some next ∧
      Represents next (calls.foldl (fun parents call => effect call parents) parents) := by
  induction calls generalizing tree parents with
  | nil => exact ⟨tree, rfl, represents⟩
  | cons call calls ih =>
      obtain ⟨middle, stepped, meant⟩ := apply_represents represents allowed.1
      obtain ⟨next, rest, last⟩ := ih meant (allowed.2 _ rfl)
      refine ⟨next, ?_, last⟩
      rw [Runs.run_cons, stepped]
      exact rest

/-- After any allowed calls in any order the tree is that of their effects: levels are depths, a
query tells what is above, and a common dominator is the nearest one. -/
theorem session_represents {calls : List (Call Block)}
    (allowed : Runs.EveryStep specified Allowed calls ⟨∅, fun _ => none⟩) {parents : DomParents Block}
    (effects : calls.foldl (fun parents call => effect call parents) ⟨∅, fun _ => none⟩ = parents) :
    ∃ tree, Runs.run apply calls (create Block) = some tree ∧
      (∀ block, tree.isReachableFromEntry block = true ↔ block ∈ parents.blocks) ∧
      (∀ block ∈ parents.blocks, Depth parents.parent block (tree.levelOf block)) ∧
      (∀ above below, ∃ answer after, dominates above below tree = some (answer, after) ∧
        Represents after parents ∧
        (answer = true ↔ above = below ∨ below ∉ parents.blocks ∨
          above ∈ parents.blocks ∧ Above parents.parent above below)) ∧
      ∀ entry ∈ parents.blocks, parents.parent entry = none → ∀ a ∈ parents.blocks, ∀ b ∈ parents.blocks,
        ∃ nearest, findNearestCommonDominator entry a b tree = some (some nearest) ∧
          NearestCommon parents.parent nearest a b := by
  obtain ⟨tree, ran, represents⟩ := run_represents represents_create allowed
  rw [effects] at represents
  have good := represents.toWellFormed
  refine ⟨tree, ran, fun block => isReachable_iff.trans (represents.blocks block), fun block member => ?_,
    fun above below => ?_, ?_⟩
  · rw [← represents.parent]
    have here := (represents.blocks block).mpr member
    exact depth_level good.leveled block fun top above none =>
      (good.root top (known_nearest good above here) none).2.1
  · obtain ⟨answer, after, asked, told, same, consistent⟩ := dominates_spec represents.toConsistent above below
    refine ⟨answer, after, asked, represents.same same consistent, ?_⟩
    rw [told, represents.blocks, represents.blocks, represents.parent]
  · intro entry member top a left b right
    rw [← represents.parent] at top ⊢
    have root := (good.root entry ((represents.blocks entry).mpr member) top).1
    exact findNearestCommonDominator_spec good ((represents.blocks a).mpr left)
      ((represents.blocks b).mpr right) root

/-- Two blocks below the entry, one of them moved below the other, and a new root on top. -/
def sixCalls : List (Call Nat) :=
  [.setNewRoot 1, .addNewBlock 2 1, .addNewBlock 3 1, .dominates 1 3, .changeImmediateDominator 3 2,
    .setNewRoot 0]

theorem everyStep_specified {call : Call Block} {calls : List (Call Block)} (allowed : Allowed call parents)
    (rest : Runs.EveryStep specified Allowed calls (effect call parents)) :
    Runs.EveryStep specified Allowed (call :: calls) parents :=
  ⟨allowed, fun _ same => Option.some.inj same ▸ rest⟩

theorem sixCalls_allowed : Runs.EveryStep specified Allowed sixCalls ⟨∅, fun _ => none⟩ := by
  refine everyStep_specified (Set.notMem_empty 1) (everyStep_specified (by simp [Allowed, effect])
    (everyStep_specified (by simp [Allowed, effect]) (everyStep_specified trivial (everyStep_specified ?_
      (everyStep_specified (by simp [Allowed, effect]) trivial)))))
  refine ⟨by simp [effect], by simp [effect], ?_⟩
  rw [above_step (show _ = some 1 by simp [effect]), above_top (by simp [effect])]
  decide

theorem session_represents_ofSixCalls :
    ∃ tree, Runs.run apply sixCalls (create Nat) = some tree ∧
      Depth (sixCalls.foldl (fun parents call => effect call parents) ⟨∅, fun _ => none⟩).parent 3
        (tree.levelOf 3) := by
  obtain ⟨tree, ran, _, depth, _⟩ := session_represents sixCalls_allowed rfl
  exact ⟨tree, ran, depth 3 (by simp [sixCalls, effect])⟩

end DominatorTree

end EvmBackend
