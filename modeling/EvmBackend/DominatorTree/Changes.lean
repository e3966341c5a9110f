/-
Every change of a dominator tree leaves it well formed, and its numbers are no
longer taken as valid.
-/

import EvmBackend.DominatorTree.Levels

namespace EvmBackend.DominatorTree

open ParentTrees Function List Option

variable {Block : Type} [DecidableEq Block] {tree next : DominatorTree Block} {block other idom new : Block}
  {node : DomTreeNode Block}

/-- If the numbers are taken as valid, they tell which nodes are above which. -/
structure Consistent (tree : DominatorTree Block) : Prop extends WellFormed tree where
  numbers : tree.dfsInfoValid = true → ∀ one two, tree.known one → tree.known two →
    (Above tree.idomOf one two ↔ tree.numInOf one ≤ tree.numInOf two ∧ tree.numOutOf two ≤ tree.numOutOf one)

theorem WellFormed.consistent (good : WellFormed tree) (invalid : tree.dfsInfoValid = false) : Consistent tree :=
  ⟨good, fun valid => absurd (invalid.symm.trans valid) Bool.false_ne_true⟩

theorem WellFormed.cached (good : WellFormed tree) (valid : Bool) (queries : Nat) :
    WellFormed { tree with dfsInfoValid := valid, slowQueries := queries } :=
  ⟨⟨good.known_idom, good.mem_children, good.nodup⟩, good.leveled, good.root⟩

theorem consistent_create : Consistent (DominatorTree.create Block) := by
  have none : ∀ block, (DominatorTree.create Block).getNode block = Option.none :=
    fun block => AList.lookup_empty block
  have unknown : ∀ block, ¬ (DominatorTree.create Block).known block := fun block here => here (none block)
  refine WellFormed.consistent ⟨⟨fun block idom step => ?_, fun child block => ?_, fun block => ?_⟩,
    fun child upper step => ?_, fun block here => absurd here (unknown block)⟩ rfl
  · exact absurd (known_of_idom step) (unknown block)
  · exact iff_of_false (fun member => unknown block (known_of_child member)) fun step =>
      unknown child (known_of_idom step)
  · unfold childrenOf
    rw [none block]
    exact nodup_nil
  · exact absurd (known_of_idom step) (unknown child)

theorem idomOf_unknown (missing : ¬ tree.known block) : tree.idomOf block = none := by
  unfold idomOf
  rw [not_not.mp missing, bind_none]

theorem childrenOf_unknown (missing : ¬ tree.known block) : tree.childrenOf block = [] := by
  unfold childrenOf
  rw [not_not.mp missing, elim_none]

theorem levelOf_unknown (missing : ¬ tree.known block) : tree.levelOf block = 0 := by
  unfold levelOf
  rw [not_not.mp missing, elim_none]

theorem not_above_unknown (good : WellFormed tree) (missing : ¬ tree.known block) (here : tree.known other) :
    ¬ Above tree.idomOf block other := by
  intro above
  induction above with
  | refl => exact missing here
  | tail _ step ih => exact ih (good.known_idom _ _ step)

/-! ### New leaves -/

theorem addChild_spec (good : WellFormed tree) (missing : ¬ tree.known block) (there : tree.known idom) :
    ∃ next, addChild block idom tree = some next ∧ WellFormed next ∧
      next.idomOf = update tree.idomOf block (some idom) ∧
      (∀ other, next.known other ↔ other = block ∨ tree.known other) ∧
      next.rootNode = tree.rootNode ∧ next.roots = tree.roots ∧ next.dfsInfoValid = tree.dfsInfoValid := by
  obtain ⟨above, found⟩ := known_iff.mp there
  have differs : idom ≠ block := by
    rintro rfl
    exact missing there
  unfold addChild
  dsimp only [bind, pure]
  rw [found, bind_some]
  generalize changed : setNode block (.create (some (idom, above)))
    (setNode idom { above with children := above.children ++ [block] } tree) = next
  have idoms : next.idomOf = update tree.idomOf block (some idom) := by
    rw [← changed, idomOf_setNode, idomOf_setNode]
    dsimp only
    rw [← idomOf_found found, update_eq_self]
    rfl
  have levels : next.levelOf = update tree.levelOf block (tree.levelOf idom + 1) := by
    rw [← changed, levelOf_setNode, levelOf_setNode]
    dsimp only
    rw [← levelOf_found found, update_eq_self, levelOf_found found]
    rfl
  have lists : next.childrenOf = update tree.childrenOf idom (tree.childrenOf idom ++ [block]) := by
    rw [← changed, childrenOf_setNode, childrenOf_setNode]
    dsimp only
    rw [← childrenOf_found found, update_comm differs]
    have none : (DomTreeNode.create (some (idom, above))).children = tree.childrenOf block :=
      (childrenOf_unknown missing).symm
    rw [none, update_eq_self]
  have domain : ∀ other, next.known other ↔ other = block ∨ tree.known other := by
    intro other
    rw [← changed, known_setNode, known_setNode]
    refine or_congr_right (or_iff_right_of_imp fun same => ?_)
    rw [same]
    exact there
  have leaf : ∀ child, tree.idomOf child ≠ some block := fun child step => missing (good.known_idom _ _ step)
  refine ⟨next, rfl, ⟨⟨fun child upper step => ?_, fun child upper => ?_, fun upper => ?_⟩,
    fun child upper step => ?_, fun top known none => ?_⟩, idoms, domain, ?_, ?_, ?_⟩
  · rw [idoms] at step
    rw [domain]
    by_cases same : child = block
    · rw [same, update_self] at step
      cases step
      exact .inr there
    · rw [update_of_ne same] at step
      exact .inr (good.known_idom child upper step)
  · rw [lists, idoms]
    by_cases atIdom : upper = idom
    · rw [atIdom, update_self, mem_append, mem_singleton, good.mem_children]
      by_cases same : child = block
      · rw [same, update_self]
        exact iff_of_true (.inr rfl) rfl
      · rw [update_of_ne same]
        exact or_iff_left same
    · rw [update_of_ne atIdom, good.mem_children]
      by_cases same : child = block
      · rw [same, update_self, idomOf_unknown missing]
        exact iff_of_false (some_ne_none upper).symm fun equal => atIdom (Option.some.inj equal).symm
      · rw [update_of_ne same]
  · rw [lists]
    by_cases atIdom : upper = idom
    · rw [atIdom, update_self]
      refine nodup_append.mpr ⟨good.nodup idom, nodup_cons.mpr ⟨not_mem_nil, nodup_nil⟩, ?_⟩
      intro child member last also equal
      rw [mem_singleton.mp also] at equal
      rw [equal, good.mem_children, idomOf_unknown missing] at member
      exact absurd member (some_ne_none idom).symm
    · rw [update_of_ne atIdom]
      exact good.nodup upper
  · rw [idoms] at step
    rw [levels]
    by_cases same : child = block
    · rw [same, update_self] at step
      cases step
      rw [same, update_self, update_of_ne differs]
    · rw [update_of_ne same] at step
      have notBlock : upper ≠ block := by
        rintro rfl
        exact leaf child step
      rw [update_of_ne same, update_of_ne notBlock]
      exact good.leveled child upper step
  · rw [idoms] at none
    have notBlock : top ≠ block := by
      rintro rfl
      rw [update_self] at none
      exact absurd none (some_ne_none idom)
    rw [update_of_ne notBlock] at none
    have root := good.root top (((domain top).mp known).resolve_left notBlock) none
    rw [levels, update_of_ne notBlock, ← changed]
    exact root
  · rw [← changed]
    rfl
  · rw [← changed]
    rfl
  · rw [← changed]
    rfl

theorem addNewBlock_spec (good : WellFormed tree) (missing : ¬ tree.known block) (there : tree.known idom) :
    ∃ next, addNewBlock block idom tree = some next ∧ WellFormed next ∧
      next.idomOf = update tree.idomOf block (some idom) ∧
      (∀ other, next.known other ↔ other = block ∨ tree.known other) ∧
      next.rootNode = tree.rootNode ∧ next.roots = tree.roots ∧ next.dfsInfoValid = false := by
  unfold addNewBlock
  dsimp only [bind, pure]
  have passed : tree.getNode idom ≠ none := there
  rw [guard_pass (not_not.mp missing), guard_pass passed]
  exact addChild_spec (good.cached false tree.slowQueries) missing there

theorem changeImmediateDominator_spec (good : WellFormed tree) (here : tree.known block) (there : tree.known new)
    (apart : ¬ Above tree.idomOf block new) :
    ∃ next, changeImmediateDominator block new tree = some next ∧ WellFormed next ∧ next.known = tree.known ∧
      next.rootNode = tree.rootNode ∧ next.roots = tree.roots ∧ next.dfsInfoValid = false ∧
      next.idomOf = update tree.idomOf block (some new) := by
  unfold changeImmediateDominator
  dsimp only [bind, pure]
  rw [guard_pass ⟨here, there⟩]
  obtain ⟨next, ran, well, root, idoms⟩ := setIDom_spec (good.cached false tree.slowQueries) here there apart
  exact ⟨next, ran, well, root.known, root.rootNode, root.roots, root.dfsInfoValid, idoms⟩

/-! ### New roots -/

theorem views_fresh (missing : ¬ tree.known block) :
    (tree.setNode block (.create none)).idomOf = tree.idomOf ∧
      (tree.setNode block (.create none)).levelOf = tree.levelOf ∧
      (tree.setNode block (.create none)).childrenOf = tree.childrenOf := by
  refine ⟨?_, ?_, ?_⟩
  · have same : (DomTreeNode.create none).idom = tree.idomOf block := (idomOf_unknown missing).symm
    rw [idomOf_setNode, same, update_eq_self]
  · have same : (DomTreeNode.create (none : Option (Block × DomTreeNode Block))).level = tree.levelOf block :=
      (levelOf_unknown missing).symm
    rw [levelOf_setNode, same, update_eq_self]
  · have same : (DomTreeNode.create none).children = tree.childrenOf block := (childrenOf_unknown missing).symm
    rw [childrenOf_setNode, same, update_eq_self]

theorem wellFormed_single (alone : ∀ other, ¬ tree.known other) (block : Block) :
    WellFormed { tree.setNode block (.create none) with
      dfsInfoValid := false, roots := [block], rootNode := some block } := by
  obtain ⟨idoms, levels, lists⟩ := views_fresh (alone block)
  have none : ∀ other, tree.idomOf other = Option.none := fun other => idomOf_unknown (alone other)
  refine ⟨⟨fun child upper step => ?_, fun child upper => ?_, fun upper => ?_⟩, fun child upper step => ?_,
    fun top here top' => ?_⟩
  · change (tree.setNode block (.create Option.none)).idomOf child = some upper at step
    rw [idoms, none child] at step
    exact absurd step (some_ne_none upper).symm
  · change child ∈ (tree.setNode block (.create Option.none)).childrenOf upper ↔
      (tree.setNode block (.create Option.none)).idomOf child = some upper
    rw [idoms, lists, none child, childrenOf_unknown (alone upper)]
    exact iff_of_false not_mem_nil (some_ne_none upper).symm
  · change ((tree.setNode block (.create Option.none)).childrenOf upper).Nodup
    rw [lists, childrenOf_unknown (alone upper)]
    exact nodup_nil
  · change (tree.setNode block (.create Option.none)).idomOf child = some upper at step
    rw [idoms, none child] at step
    exact absurd step (some_ne_none upper).symm
  · have same : top = block := (known_setNode.mp here).resolve_right (alone top)
    subst same
    refine ⟨rfl, ?_, rfl⟩
    change (tree.setNode top (.create Option.none)).levelOf top = 0
    rw [levels, levelOf_unknown (alone top)]

def linkRoot (block oldRoot : Block) (old : DomTreeNode Block) (tree : DominatorTree Block) :
    DominatorTree Block :=
  (setNode block { DomTreeNode.create none with children := [] ++ [oldRoot] }
    { tree.setNode block (.create none) with dfsInfoValid := false }).setNode oldRoot
      { old with idom := some block }

theorem WellFormed.root_of_roots (good : WellFormed tree) {root : Block} (here : tree.known root)
    (roots : tree.roots = [root]) :
    tree.idomOf root = none ∧ ∀ other, tree.known other → tree.idomOf other = none → other = root := by
  have only : ∀ other, tree.known other → tree.idomOf other = none → other = root := by
    intro other present none
    have same := (good.root other present none).2.2
    rw [roots] at same
    exact (List.cons.inj same).1.symm
  obtain ⟨top, known, none, -, -⟩ := good.root_above here
  exact ⟨only top known none ▸ none, only⟩

section NewRoot

variable {oldRoot : Block} {old : DomTreeNode Block}

section Views

variable (missing : ¬ tree.known block) (found : tree.getNode oldRoot = some old)

include missing

theorem idomOf_linkRoot : (linkRoot block oldRoot old tree).idomOf = update tree.idomOf oldRoot (some block) := by
  rw [linkRoot, idomOf_setNode, idomOf_setNode]
  change update (update (tree.setNode block (.create none)).idomOf block none) oldRoot (some block) = _
  rw [(views_fresh missing).1, ← idomOf_unknown missing, update_eq_self]

include found

theorem old_ne_new : oldRoot ≠ block := by
  rintro rfl
  exact missing (known_of_found found)

theorem levelOf_linkRoot : (linkRoot block oldRoot old tree).levelOf = tree.levelOf := by
  rw [linkRoot, levelOf_setNode, levelOf_setNode]
  change update (update (tree.setNode block (.create none)).levelOf block 0) oldRoot old.level = _
  rw [(views_fresh missing).2.1, ← levelOf_unknown missing, update_eq_self, ← levelOf_found found, update_eq_self]

theorem childrenOf_linkRoot :
    (linkRoot block oldRoot old tree).childrenOf = update tree.childrenOf block [oldRoot] := by
  rw [linkRoot, childrenOf_setNode, childrenOf_setNode]
  change update (update (tree.setNode block (.create none)).childrenOf block [oldRoot]) oldRoot old.children = _
  rw [(views_fresh missing).2.2, ← childrenOf_found found, update_comm (old_ne_new missing found).symm,
    update_eq_self]

omit missing in
theorem known_linkRoot : (linkRoot block oldRoot old tree).known other ↔ other = block ∨ tree.known other := by
  rw [linkRoot, known_setNode, known_setNode]
  change other = oldRoot ∨ other = block ∨ (tree.setNode block (.create none)).known other ↔ _
  rw [known_setNode]
  constructor
  · rintro (rfl | rfl | same | there)
    · exact .inr (known_of_found found)
    · exact .inl rfl
    · exact .inl same
    · exact .inr there
  · exact fun either => .inr (.inr either)

end Views

variable (good : WellFormed tree) (missing : ¬ tree.known block) (found : tree.getNode oldRoot = some old)
  (top : tree.idomOf oldRoot = none)

include good missing found top

theorem linked_linkRoot : Linked (linkRoot block oldRoot old tree) := by
  refine ⟨fun child upper step => ?_, fun child upper => ?_, fun upper => ?_⟩
  · rw [idomOf_linkRoot missing] at step
    rw [known_linkRoot found]
    by_cases same : child = oldRoot
    · rw [same, update_self] at step
      cases step
      exact .inl rfl
    · rw [update_of_ne same] at step
      exact .inr (good.known_idom child upper step)
  · rw [childrenOf_linkRoot missing found, idomOf_linkRoot missing]
    by_cases atBlock : upper = block
    · rw [atBlock, update_self, mem_singleton]
      by_cases same : child = oldRoot
      · rw [same, update_self]
        exact iff_of_true rfl rfl
      · rw [update_of_ne same]
        exact iff_of_false same fun step => missing (good.known_idom _ _ step)
    · rw [update_of_ne atBlock, good.mem_children]
      by_cases same : child = oldRoot
      · rw [same, update_self, top]
        exact iff_of_false (some_ne_none upper).symm fun step => atBlock (Option.some.inj step).symm
      · rw [update_of_ne same]
  · rw [childrenOf_linkRoot missing found]
    by_cases atBlock : upper = block
    · rw [atBlock, update_self]
      exact nodup_cons.mpr ⟨not_mem_nil, nodup_nil⟩
    · rw [update_of_ne atBlock]
      exact good.nodup upper

def levelUnder (tree : DominatorTree Block) (block : Block) : Nat :=
  if tree.known block then tree.levelOf block + 1 else 0

omit good found missing top in
theorem levelUnder_known (here : tree.known block) : tree.levelUnder block = tree.levelOf block + 1 := if_pos here

omit good found missing top in
theorem levelUnder_unknown (missing : ¬ tree.known block) : tree.levelUnder block = 0 := if_neg missing

theorem leveled_linkRoot : Leveled (linkRoot block oldRoot old tree).idomOf tree.levelUnder := by
  intro child upper step
  rw [idomOf_linkRoot missing] at step
  by_cases same : child = oldRoot
  · rw [same, update_self] at step
    cases step
    have here := known_of_found found
    rw [same, levelUnder_known here, (good.root oldRoot here top).2.1, levelUnder_unknown missing]
  · rw [update_of_ne same] at step
    rw [levelUnder_known (known_of_idom step), levelUnder_known (good.known_idom _ _ step), good.leveled _ _ step]

theorem updateLevel_linkRoot (only : ∀ other, tree.known other → tree.idomOf other = none → other = oldRoot) :
    ∃ leveled, updateLevel oldRoot (linkRoot block oldRoot old tree) = some leveled ∧
      SameLinks (linkRoot block oldRoot old tree) leveled ∧ leveled.levelOf = tree.levelUnder ∧
      leveled.dfsInfoValid = false := by
  have idoms := @idomOf_linkRoot _ _ tree block oldRoot old missing
  have levels := levelOf_linkRoot missing found
  refine @updateLevel_spec _ _ _ oldRoot block _ (linked_linkRoot good missing found top)
    (leveled_linkRoot good missing found top) ?_ ?_ ?_ ?_
  · rw [idoms, update_self]
  · rw [levels, levelOf_unknown missing, levelUnder_unknown missing]
  · intro child upper other step equal
    rw [idoms, update_of_ne other] at step
    rw [levels, levelUnder_known (good.known_idom _ _ step)] at equal
    exact absurd equal (Nat.ne_of_lt (Nat.lt_succ_self _))
  · intro other none
    rw [idoms] at none
    have notOld : other ≠ oldRoot := by
      rintro rfl
      rw [update_self] at none
      exact absurd none (some_ne_none block)
    rw [update_of_ne notOld] at none
    have unknown : ¬ tree.known other := fun present => notOld (only other present none)
    rw [levels, levelOf_unknown unknown, levelUnder_unknown unknown]

end NewRoot

structure Rerooted (block : Block) (tree next : DominatorTree Block) : Prop where
  formed : WellFormed next
  rootNode : next.rootNode = some block
  roots : next.roots = [block]
  invalid : next.dfsInfoValid = false
  known : ∀ other, next.known other ↔ other = block ∨ tree.known other
  parents : ∀ other, next.idomOf other =
    if tree.known other ∧ tree.idomOf other = none then some block else tree.idomOf other

theorem Rerooted.top (rerooted : Rerooted block tree next) (missing : ¬ tree.known block) :
    next.idomOf block = none := by
  rw [rerooted.parents, if_neg fun both => missing both.1, idomOf_unknown missing]

theorem rerooted_first (alone : ∀ other, ¬ tree.known other) (block : Block) :
    Rerooted block tree { tree.setNode block (.create none) with
      dfsInfoValid := false, roots := [block], rootNode := some block } := by
  have idoms : idomOf (tree.setNode block (.create none)) = tree.idomOf := (views_fresh (alone block)).1
  refine ⟨wellFormed_single alone block, rfl, rfl, rfl, fun other => known_setNode, fun other => ?_⟩
  rw [if_neg fun both => alone other both.1]
  exact congrFun idoms other

theorem rerooted_above (good : WellFormed tree) {oldRoot : Block} {old : DomTreeNode Block}
    (missing : ¬ tree.known block) (found : tree.getNode oldRoot = some old) (roots : tree.roots = [oldRoot]) :
    ∃ leveled, updateLevel oldRoot (linkRoot block oldRoot old tree) = some leveled ∧
      Rerooted block tree { leveled with roots := [block], rootNode := some block } := by
  have here : tree.known oldRoot := known_of_found found
  obtain ⟨top, only⟩ := good.root_of_roots here roots
  obtain ⟨leveled, ran, same, levels, invalid⟩ := updateLevel_linkRoot good missing found top only
  have still := (linked_linkRoot good missing found top).same same
  have known : ∀ other, leveled.known other ↔ other = block ∨ tree.known other := fun other => by
    rw [same.known]
    exact known_linkRoot found
  have parents : ∀ other, leveled.idomOf other =
      if tree.known other ∧ tree.idomOf other = none then some block else tree.idomOf other := by
    intro other
    rw [same.idomOf, idomOf_linkRoot missing]
    by_cases isOld : other = oldRoot
    · rw [isOld, update_self, if_pos ⟨here, top⟩]
    · rw [update_of_ne isOld, if_neg fun both => isOld (only other both.1 both.2)]
  refine ⟨leveled, ran, ⟨⟨still.known_idom, still.mem_children, still.nodup⟩, ?_, fun other present none => ?_⟩,
    rfl, rfl, invalid, known, parents⟩
  · change Leveled leveled.idomOf leveled.levelOf
    rw [same.idomOf, levels]
    exact leveled_linkRoot good missing found top
  · have unknown : ¬ tree.known other := by
      intro there
      have step := parents other
      by_cases none' : tree.idomOf other = Option.none
      · rw [if_pos ⟨there, none'⟩] at step
        exact absurd (step.symm.trans none) (some_ne_none block)
      · rw [if_neg fun both => none' both.2] at step
        exact none' (step.symm.trans none)
    have equal : other = block := ((known other).mp present).resolve_right unknown
    refine ⟨congrArg some equal.symm, ?_, congrArg (fun last => [last]) equal.symm⟩
    change leveled.levelOf other = 0
    rw [levels, levelUnder_unknown unknown]

theorem setNewRoot_first (missing : tree.getNode block = none) (empty : tree.roots = []) :
    setNewRoot block tree = some { tree.setNode block (.create none) with
      dfsInfoValid := false, roots := [block], rootNode := some block } := by
  obtain ⟨roots, nodes, rootNode, valid, queries⟩ := tree
  obtain rfl : roots = [] := empty
  unfold setNewRoot
  dsimp only [bind, pure]
  rw [guard_pass missing]
  rfl

theorem setNewRoot_above {oldRoot : Block} {old : DomTreeNode Block} (missing : tree.getNode block = none)
    (found : tree.getNode oldRoot = some old) (above : tree.roots = [oldRoot]) :
    setNewRoot block tree = (updateLevel oldRoot (linkRoot block oldRoot old tree)).bind fun leveled =>
      some { leveled with roots := [block], rootNode := some block } := by
  have differs : oldRoot ≠ block := old_ne_new (not_not.mpr missing) found
  obtain ⟨roots, nodes, rootNode, valid, queries⟩ := tree
  obtain rfl : roots = [oldRoot] := above
  unfold setNewRoot
  dsimp only [bind, pure]
  rw [guard_pass missing]
  change ((setNode block (.create none) _).getNode block).bind _ = _
  rw [getNode_setNode_self, bind_some]
  rw [getNode_setNode_ne differs]
  change ((setNode block (.create none) _).getNode oldRoot).bind _ = _
  rw [getNode_setNode_ne differs, found, bind_some]
  rfl

theorem setNewRoot_spec (good : WellFormed tree) (missing : ¬ tree.known block)
    (rooted : ∀ root ∈ tree.roots, tree.known root) :
    ∃ next, setNewRoot block tree = some next ∧ Rerooted block tree next := by
  cases roots : tree.roots with
  | nil =>
      have alone : ∀ other, ¬ tree.known other := by
        intro other here
        obtain ⟨root, known, none, -, -⟩ := good.root_above here
        exact cons_ne_nil root [] ((good.root root known none).2.2.symm.trans roots)
      exact ⟨_, setNewRoot_first (not_not.mp missing) roots, rerooted_first alone block⟩
  | cons oldRoot rest =>
      have here := rooted oldRoot (roots ▸ mem_cons_self)
      obtain ⟨root, known, none, -, -⟩ := good.root_above here
      have single := (good.root root known none).2.2
      obtain ⟨rfl, rfl⟩ := List.cons.inj (roots.symm.trans single)
      obtain ⟨old, found⟩ := known_iff.mp here
      obtain ⟨leveled, ran, rerooted⟩ := rerooted_above good missing found single
      refine ⟨_, ?_, rerooted⟩
      rw [setNewRoot_above (not_not.mp missing) found single, ran, bind_some]

/-! ### Erased leaves -/

def dropNode (block : Block) (tree : DominatorTree Block) : DominatorTree Block :=
  { tree with domTreeNodes := tree.domTreeNodes.erase block }

theorem getNode_dropNode_self : (tree.dropNode block).getNode block = none :=
  AList.lookup_erase block tree.domTreeNodes

theorem getNode_dropNode_ne (differs : other ≠ block) :
    (tree.dropNode block).getNode other = tree.getNode other :=
  AList.lookup_erase_ne differs

theorem view_dropNode {View : Type} (view : Option (DomTreeNode Block) → View) :
    (fun other => view ((tree.dropNode block).getNode other)) =
      update (fun other => view (tree.getNode other)) block (view none) := by
  funext other
  by_cases same : other = block
  · rw [same, getNode_dropNode_self, update_self]
  · rw [getNode_dropNode_ne same, update_of_ne same]

theorem idomOf_dropNode : (tree.dropNode block).idomOf = update tree.idomOf block none :=
  view_dropNode fun found => found.bind DomTreeNode.idom

theorem levelOf_dropNode : (tree.dropNode block).levelOf = update tree.levelOf block 0 :=
  view_dropNode fun found => found.elim 0 DomTreeNode.level

theorem childrenOf_dropNode : (tree.dropNode block).childrenOf = update tree.childrenOf block [] :=
  view_dropNode fun found => found.elim [] DomTreeNode.children

theorem known_dropNode : (tree.dropNode block).known other ↔ other ≠ block ∧ tree.known other := by
  unfold known
  by_cases same : other = block
  · rw [same, getNode_dropNode_self]
    exact iff_of_false (fun absurdity => absurdity rfl) fun both => both.1 rfl
  · rw [getNode_dropNode_ne same]
    exact (and_iff_right same).symm

/-- A leaf is taken out of the children of its immediate dominator, which may come into another order. -/
structure Unlinked (block : Block) (tree next : DominatorTree Block) : Prop where
  idomOf : next.idomOf = tree.idomOf
  levelOf : next.levelOf = tree.levelOf
  mem : ∀ child upper, child ∈ next.childrenOf upper ↔ child ≠ block ∧ child ∈ tree.childrenOf upper
  nodup : ∀ upper, (next.childrenOf upper).Nodup
  known : next.known = tree.known
  rootNode : next.rootNode = tree.rootNode
  roots : next.roots = tree.roots
  dfsInfoValid : next.dfsInfoValid = tree.dfsInfoValid

theorem wellFormed_dropNode (good : WellFormed tree) (leaf : tree.childrenOf block = [])
    (unlinked : Unlinked block tree next) : WellFormed (next.dropNode block) := by
  have childless : ∀ child, tree.idomOf child ≠ some block := by
    intro child step
    rw [← good.mem_children, leaf] at step
    exact absurd step not_mem_nil
  refine ⟨⟨fun child upper step => ?_, fun child upper => ?_, fun upper => ?_⟩, fun child upper step => ?_,
    fun top here none => ?_⟩
  · rw [idomOf_dropNode, unlinked.idomOf] at step
    rw [known_dropNode, unlinked.known]
    by_cases same : child = block
    · rw [same, update_self] at step
      exact absurd step (some_ne_none upper).symm
    · rw [update_of_ne same] at step
      refine ⟨fun equal => childless child ?_, good.known_idom child upper step⟩
      rw [← equal]
      exact step
  · rw [idomOf_dropNode, childrenOf_dropNode, unlinked.idomOf]
    by_cases atBlock : upper = block
    · rw [atBlock, update_self]
      refine iff_of_false not_mem_nil fun step => ?_
      by_cases same : child = block
      · rw [same, update_self] at step
        exact absurd step (some_ne_none block).symm
      · rw [update_of_ne same] at step
        exact childless child step
    · rw [update_of_ne atBlock, unlinked.mem, good.mem_children]
      by_cases same : child = block
      · rw [same, update_self]
        exact iff_of_false (fun both => both.1 rfl) (some_ne_none upper).symm
      · rw [update_of_ne same]
        exact and_iff_right same
  · rw [childrenOf_dropNode]
    by_cases atBlock : upper = block
    · rw [atBlock, update_self]
      exact nodup_nil
    · rw [update_of_ne atBlock]
      exact unlinked.nodup upper
  · rw [idomOf_dropNode, unlinked.idomOf] at step
    rw [levelOf_dropNode, unlinked.levelOf]
    by_cases same : child = block
    · rw [same, update_self] at step
      exact absurd step (some_ne_none upper).symm
    · rw [update_of_ne same] at step
      have notBlock : upper ≠ block := by
        rintro rfl
        exact childless child step
      rw [update_of_ne same, update_of_ne notBlock]
      exact good.leveled child upper step
  · obtain ⟨differs, known⟩ := known_dropNode.mp here
    rw [unlinked.known] at known
    rw [idomOf_dropNode, update_of_ne differs, unlinked.idomOf] at none
    rw [levelOf_dropNode, update_of_ne differs, unlinked.levelOf]
    change next.rootNode = some top ∧ _ ∧ next.roots = [top]
    rw [unlinked.rootNode, unlinked.roots]
    exact good.root top known none

theorem unlinked_of_list (good : WellFormed tree) (step : tree.idomOf block = some idom)
    (found : tree.getNode idom = some node)
    {list : List Block} (mem : ∀ child, child ∈ list ↔ child ≠ block ∧ child ∈ node.children)
    (nodup : list.Nodup) :
    Unlinked block tree (tree.setNode idom { node with children := list }) := by
  refine ⟨?_, ?_, fun child upper => ?_, fun upper => ?_, ?_, rfl, rfl, rfl⟩
  · rw [idomOf_setNode, ← idomOf_found found, update_eq_self]
  · rw [levelOf_setNode, ← levelOf_found found, update_eq_self]
  · rw [childrenOf_setNode]
    by_cases atIdom : upper = idom
    · rw [atIdom, update_self, childrenOf_found found]
      exact mem child
    · rw [update_of_ne atIdom]
      refine (and_iff_right_of_imp fun member same => ?_).symm
      rw [same, good.mem_children, step] at member
      exact atIdom (Option.some.inj member).symm
  · rw [childrenOf_setNode]
    by_cases atIdom : upper = idom
    · rw [atIdom, update_self]
      exact nodup
    · rw [update_of_ne atIdom]
      exact good.nodup upper
  · funext other
    apply propext
    rw [known_setNode]
    exact ⟨fun either => either.elim (fun same => same ▸ known_of_found found) id, .inr⟩

theorem unlink_spec (good : WellFormed tree) (found : tree.getNode block = some node) :
    ∃ next, unlink block node tree = some next ∧ Unlinked block tree next := by
  unfold unlink
  cases step : node.idom with
  | none =>
      refine ⟨tree, rfl, rfl, rfl, fun child upper => (and_iff_right_of_imp fun member same => ?_).symm,
        good.nodup, rfl,
        rfl, rfl, rfl⟩
      have up := (good.mem_children child upper).mp member
      rw [same, idomOf_found found, step] at up
      cases up
  | some idom =>
      have up : tree.idomOf block = some idom := (idomOf_found found).trans step
      obtain ⟨above, stored⟩ := known_iff.mp (good.known_idom block idom up)
      have child : block ∈ above.children := by
        rw [← childrenOf_found stored, good.mem_children]
        exact up
      have distinct : above.children.Nodup := by
        rw [← childrenOf_found stored]
        exact good.nodup idom
      dsimp only [bind, pure]
      rw [stored, bind_some, guard_pass child]
      exact ⟨_, rfl, unlinked_of_list good up stored (fun child => distinct.mem_erase_iff) (distinct.erase block)⟩

theorem eraseNode_spec (good : WellFormed tree) (here : tree.known block)
    (leaf : ∀ child, tree.idomOf child ≠ some block) :
    ∃ next, eraseNode block tree = some next ∧ WellFormed next ∧ next.dfsInfoValid = false ∧
      next.rootNode = tree.rootNode ∧ next.roots = tree.roots ∧
      (∀ other, next.known other ↔ other ≠ block ∧ tree.known other) ∧
        next.idomOf = update tree.idomOf block none := by
  obtain ⟨node, found⟩ := known_iff.mp here
  have childless : tree.childrenOf block = [] :=
    eq_nil_iff_forall_not_mem.mpr fun child member => leaf child ((good.mem_children child block).mp member)
  have cached := good.cached false tree.slowQueries
  obtain ⟨middle, ran, unlinked⟩ := unlink_spec cached found
  unfold eraseNode
  dsimp only [bind, pure]
  rw [found, bind_some, guard_pass ((childrenOf_found found).symm.trans childless), ran]
  refine ⟨_, rfl, wellFormed_dropNode cached childless unlinked, unlinked.dfsInfoValid, unlinked.rootNode,
    unlinked.roots,
    fun other => ?_, ?_⟩
  · have shown := @known_dropNode _ _ middle block other
    rw [unlinked.known] at shown
    exact shown
  · have shown := @idomOf_dropNode _ _ middle block
    rw [unlinked.idomOf] at shown
    exact shown

end EvmBackend.DominatorTree
