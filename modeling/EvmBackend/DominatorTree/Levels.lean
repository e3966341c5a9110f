/-
Changes of a dominator tree keep its nodes linked and their levels right.

A subtree that is moved takes along the levels in it: they are set right from its
top, and each node gets its turn once. So there are turns enough.
-/

import EvmBackend.DominatorTree.Links

namespace EvmBackend.DominatorTree

open ParentTrees Function List Option

variable {Block : Type} [DecidableEq Block] {tree next : DominatorTree Block} {block other idom new : Block}
  {node : DomTreeNode Block}

theorem guard_pass {property : Prop} [Decidable property] (holds : property) {Value : Type}
    (rest : Option Value) :
    ((guard property : Option Unit).bind fun _ => rest) = rest := by
  rw [(guard_eq_some' ()).mpr holds, bind_some]

/-! ### Levels -/

theorem isStale_eq (step : tree.idomOf block = some idom) (found : tree.getNode idom = some node) :
    tree.isStale block = some (decide (tree.levelOf block ≠ node.level + 1)) := by
  obtain ⟨here, stored⟩ := known_iff.mp (known_of_idom step)
  rw [idomOf_found stored] at step
  unfold isStale
  dsimp only [bind, pure]
  rw [stored, bind_some, step, bind_some, found, bind_some, levelOf_found stored]

theorem pushStale_eq {children workStack : List Block} (found : tree.getNode block = some node)
    (each : ∀ child ∈ children, tree.idomOf child = some block) :
    pushStale tree children workStack =
      some ((children.filter fun child => tree.levelOf child ≠ node.level + 1).reverse ++ workStack) := by
  induction children generalizing workStack with
  | nil => rfl
  | cons child children ih =>
      have others := (forall_mem_cons.mp each).2
      rw [pushStale]
      dsimp only [bind, pure]
      rw [isStale_eq (each child mem_cons_self) found, bind_some, ih others, filter_cons]
      by_cases stale : tree.levelOf child ≠ node.level + 1
      · rw [decide_eq_true stale, if_pos rfl, if_pos rfl, reverse_cons, List.append_assoc,
          singleton_append]
      · rw [decide_eq_false stale, if_neg Bool.false_ne_true, if_neg Bool.false_ne_true]

theorem updateLevelLoop_spec {target : Block → Nat} {wrong stack : List Block} {fuel : Nat} (linked : Linked tree)
    (leveled : Leveled tree.idomOf target) (stale : Stale tree.idomOf target tree.levelOf stack)
    (covered : ∀ block, tree.known block → tree.levelOf block ≠ target block → block ∈ wrong)
    (enough : wrong.length ≤ fuel) :
    ∃ next, updateLevelLoop fuel stack tree = some next ∧ SameLinks tree next ∧ next.levelOf = target ∧
      next.dfsInfoValid = tree.dfsInfoValid := by
  induction fuel generalizing tree stack wrong with
  | zero =>
      cases stack with
      | nil => exact ⟨tree, rfl, SameLinks.refl tree, stale.done leveled, rfl⟩
      | cons current workStack =>
          obtain ⟨idom, step, -⟩ := stale.ready current mem_cons_self
          have counted := covered current (known_of_idom step) (stale.wrong current mem_cons_self)
          exact absurd (length_pos_of_mem counted) (by omega)
  | succ fuel ih =>
      cases stack with
      | nil => exact ⟨tree, rfl, SameLinks.refl tree, stale.done leveled, rfl⟩
      | cons current workStack =>
          obtain ⟨idom, step, right⟩ := stale.ready current mem_cons_self
          have counted := covered current (known_of_idom step) (stale.wrong current mem_cons_self)
          obtain ⟨⟨up, old, children, numIn, numOut⟩, found⟩ := known_iff.mp (known_of_idom step)
          obtain ⟨above, stored⟩ := known_iff.mp (linked.known_idom _ _ step)
          have linkedUp : up = some idom := (idomOf_found found).symm.trans step
          subst linkedUp
          have level : above.level + 1 = target current := by
            rw [leveled _ _ step, ← right, levelOf_found stored]
          have kids : tree.childrenOf current = children := childrenOf_found found
          let changed : DomTreeNode Block := ⟨some idom, target current, children, numIn, numOut⟩
          have same : SameLinks tree (tree.setNode current changed) := SameLinks.setNode found rfl rfl
          have levels : (tree.setNode current changed).levelOf = update tree.levelOf current (target current) :=
            levelOf_setNode
          let pushed := (children.filter fun child => (tree.setNode current changed).levelOf child ≠
            target current + 1).reverse
          have pushes : pushStale (tree.setNode current changed) children workStack =
              some (pushed ++ workStack) :=
            pushStale_eq getNode_setNode_self fun child member => by
              rw [same.idomOf, ← linked.mem_children, kids]
              exact member
          have further : Stale tree.idomOf target (update tree.levelOf current (target current))
              (pushed ++ workStack) := by
            refine stale.next leveled (fun child => ?_) ?_
            · rw [mem_reverse, mem_filter, decide_eq_true_iff, levels, ← kids, linked.mem_children]
              refine and_congr_right fun below => ?_
              have differs : child ≠ current := by
                rintro rfl
                have loop := leveled _ _ below
                omega
              rw [update_of_ne differs]
            · rw [nodup_reverse, ← kids]
              exact (linked.nodup current).filter _
          have ran : updateLevelLoop (fuel + 1) (current :: workStack) tree =
              updateLevelLoop fuel (pushed ++ workStack) (tree.setNode current changed) := by
            rw [updateLevelLoop]
            dsimp only [bind, pure]
            rw [found, bind_some, bind_some, stored, bind_some, level, pushes,
              bind_some]
          -- the current node is right now, and no other has become wrong
          have fewer : ∀ block, (tree.setNode current changed).known block →
              (tree.setNode current changed).levelOf block ≠ target block → block ∈ wrong.erase current := by
            intro block here differs
            rw [same.known] at here
            rw [levels] at differs
            by_cases equal : block = current
            · rw [equal, update_self] at differs
              exact absurd rfl differs
            · rw [update_of_ne equal] at differs
              exact (mem_erase_of_ne equal).mpr (covered block here differs)
          have shorter : (wrong.erase current).length ≤ fuel := by
            rw [length_erase_of_mem counted]
            omega
          obtain ⟨next, looped, links, reached, valid⟩ := ih (linked.same same) (same.idomOf ▸ leveled)
            (by rw [same.idomOf, levels]; exact further) fewer shorter
          exact ⟨next, ran.trans looped, same.trans links, reached, valid⟩

theorem updateLevel_spec {target : Block → Nat} (linked : Linked tree) (leveled : Leveled tree.idomOf target)
    (step : tree.idomOf block = some idom) (ready : tree.levelOf idom = target idom)
    (others : ∀ child upper, child ≠ block → tree.idomOf child = some upper → tree.levelOf upper = target upper →
      tree.levelOf child = target child)
    (tops : ∀ top, tree.idomOf top = none → tree.levelOf top = target top) :
    ∃ next, updateLevel block tree = some next ∧ SameLinks tree next ∧ next.levelOf = target ∧
      next.dfsInfoValid = tree.dfsInfoValid := by
  obtain ⟨above, stored⟩ := known_iff.mp (linked.known_idom _ _ step)
  have level : above.level + 1 = target block := by
    rw [leveled _ _ step, ← ready, levelOf_found stored]
  unfold updateLevel
  dsimp only [bind, pure]
  rw [isStale_eq step stored, bind_some, level]
  by_cases wrong : tree.levelOf block ≠ target block
  · rw [decide_eq_true wrong, if_pos rfl]
    have stale : Stale tree.idomOf target tree.levelOf [block] := by
      refine ⟨fun node member => ?_, fun node member => ?_,
        nodup_cons.mpr ⟨not_mem_nil, nodup_nil⟩,
        fun child upper below right => ?_, tops⟩
      · rw [mem_singleton.mp member]
        exact ⟨idom, step, ready⟩
      · rw [mem_singleton.mp member]
        exact wrong
      · by_cases same : child = block
        · rw [same]
          exact .inr (mem_singleton_self block)
        · exact .inl (others child upper same below right)
    exact updateLevelLoop_spec linked leveled stale (fun node here _ => mem_blocks.mpr here)
      (Nat.le_of_eq (length_blocks tree))
  · rw [decide_eq_false wrong, if_neg Bool.false_ne_true]
    have stale : Stale tree.idomOf target tree.levelOf [] := by
      refine ⟨fun node member => absurd member not_mem_nil,
        fun node member => absurd member not_mem_nil,
        nodup_nil, fun child upper below right => ?_, tops⟩
      by_cases same : child = block
      · rw [same]
        exact .inl (not_not.mp wrong)
      · exact .inl (others child upper same below right)
    exact ⟨tree, rfl, SameLinks.refl tree, stale.done leveled, rfl⟩

theorem WellFormed.root_above (good : WellFormed tree) (here : tree.known block) :
    ∃ root, tree.known root ∧ tree.idomOf root = none ∧ tree.rootNode = some root ∧
      Above tree.idomOf root block := by
  generalize height : tree.levelOf block = depth
  induction depth using Nat.strongRecOn generalizing block with
  | ind depth ih =>
      cases step : tree.idomOf block with
      | none => exact ⟨block, here, step, (good.root block here step).1, Above.refl block⟩
      | some idom =>
          have more := good.leveled _ _ step
          obtain ⟨root, known, top, named, above⟩ :=
            ih (tree.levelOf idom) (by omega) (good.known_idom _ _ step) rfl
          exact ⟨root, known, top, named, above.trans (above_parent step)⟩

theorem WellFormed.has_idom (good : WellFormed tree) (here : tree.known block) (there : tree.known other)
    (apart : ¬ Above tree.idomOf block other) : ∃ idom, tree.idomOf block = some idom := by
  cases step : tree.idomOf block with
  | some idom => exact ⟨idom, rfl⟩
  | none =>
      obtain ⟨root, -, -, named, above⟩ := good.root_above there
      have same : block = root := Option.some.inj ((good.root block here step).1.symm.trans named)
      rw [same] at apart
      exact absurd above apart

/-! ### Moved subtrees -/

theorem linked_moved {left right : DominatorTree Block} (linked : Linked left)
    (step : left.idomOf block = some idom)
    (differs : idom ≠ new) (here : left.known new)
    (idoms : right.idomOf = update left.idomOf block (some new))
    (lists : right.childrenOf = update (update left.childrenOf idom ((left.childrenOf idom).erase block)) new
      (left.childrenOf new ++ [block]))
    (same : right.known = left.known) : Linked right := by
  have fresh : block ∉ left.childrenOf new := by
    intro member
    rw [linked.mem_children, step] at member
    exact differs (Option.some.inj member)
  refine ⟨fun child upper up => ?_, fun child upper => ?_, fun upper => ?_⟩
  · rw [idoms] at up
    rw [same]
    by_cases moved : child = block
    · rw [moved, update_self] at up
      cases up
      exact here
    · rw [update_of_ne moved] at up
      exact linked.known_idom child upper up
  · rw [lists, idoms]
    by_cases atNew : upper = new
    · rw [atNew, update_self, mem_append, mem_singleton, linked.mem_children]
      by_cases moved : child = block
      · rw [moved, update_self]
        exact iff_of_true (.inr rfl) rfl
      · rw [update_of_ne moved]
        exact or_iff_left moved
    · rw [update_of_ne atNew]
      by_cases atOld : upper = idom
      · rw [atOld, update_self, (linked.nodup idom).mem_erase_iff, linked.mem_children]
        by_cases moved : child = block
        · rw [moved, update_self]
          exact iff_of_false (fun both => both.1 rfl) fun same => differs (Option.some.inj same).symm
        · rw [update_of_ne moved]
          exact and_iff_right moved
      · rw [update_of_ne atOld, linked.mem_children]
        by_cases moved : child = block
        · rw [moved, update_self, step]
          exact iff_of_false (fun same => atOld (Option.some.inj same).symm)
            fun same => atNew (Option.some.inj same).symm
        · rw [update_of_ne moved]
  · rw [lists]
    by_cases atNew : upper = new
    · rw [atNew, update_self]
      refine nodup_append.mpr ⟨linked.nodup new, nodup_cons.mpr ⟨not_mem_nil, nodup_nil⟩, ?_⟩
      intro child member last also equal
      rw [mem_singleton.mp also] at equal
      exact fresh (equal ▸ member)
    · rw [update_of_ne atNew]
      by_cases atOld : upper = idom
      · rw [atOld, update_self]
        exact (linked.nodup idom).erase block
      · rw [update_of_ne atOld]
        exact linked.nodup upper

structure SameRoot (tree next : DominatorTree Block) : Prop where
  known : next.known = tree.known
  rootNode : next.rootNode = tree.rootNode
  roots : next.roots = tree.roots
  dfsInfoValid : next.dfsInfoValid = tree.dfsInfoValid

theorem setIDom_spec (good : WellFormed tree) (here : tree.known block) (there : tree.known new)
    (apart : ¬ Above tree.idomOf block new) :
    ∃ next, setIDom block new tree = some next ∧ WellFormed next ∧ SameRoot tree next ∧
      next.idomOf = update tree.idomOf block (some new) := by
  obtain ⟨idom, step⟩ := good.has_idom here there apart
  obtain ⟨⟨up, level, children, numIn, numOut⟩, found⟩ := known_iff.mp here
  have linkedUp : up = some idom := (idomOf_found found).symm.trans step
  subst linkedUp
  obtain ⟨old, stored⟩ := known_iff.mp (good.known_idom _ _ step)
  unfold setIDom
  dsimp only [bind, pure]
  rw [found, bind_some, bind_some]
  by_cases same : idom = new
  · rw [if_pos same]
    refine ⟨tree, rfl, good, ⟨rfl, rfl, rfl, rfl⟩, ?_⟩
    rw [← same, ← step, update_eq_self]
  · have lower := good.leveled _ _ step
    have notOld : block ≠ idom := by
      rintro rfl
      omega
    have notNew : block ≠ new := by
      rintro rfl
      exact apart (Above.refl block)
    have member : block ∈ old.children := by
      rw [← childrenOf_found stored]
      exact (good.mem_children _ _).mpr step
    obtain ⟨target, target_found⟩ := known_iff.mp there
    rw [if_neg same, stored, bind_some, guard_pass member]
    rw [getNode_setNode_ne (Ne.symm notNew), getNode_setNode_ne (Ne.symm same), target_found, bind_some]
    generalize changed : setNode new { target with children := target.children ++ [block] }
      (setNode block ⟨some new, level, children, numIn, numOut⟩
        (setNode idom { old with children := old.children.erase block } tree)) = moved
    have idoms : moved.idomOf = update tree.idomOf block (some new) := by
      rw [← changed, idomOf_setNode, idomOf_setNode, idomOf_setNode]
      dsimp only
      rw [← idomOf_found stored, update_eq_self, ← idomOf_found target_found, update_comm notNew, update_eq_self]
    have levels : moved.levelOf = tree.levelOf := by
      rw [← changed, levelOf_setNode, levelOf_setNode, levelOf_setNode]
      dsimp only
      have own : level = tree.levelOf block := (levelOf_found found).symm
      rw [← levelOf_found stored, update_eq_self, own, update_eq_self, ← levelOf_found target_found,
        update_eq_self]
    have lists : moved.childrenOf = update (update tree.childrenOf idom ((tree.childrenOf idom).erase block)) new
        (tree.childrenOf new ++ [block]) := by
      rw [← changed, childrenOf_setNode, childrenOf_setNode, childrenOf_setNode]
      dsimp only
      have own : children = tree.childrenOf block := (childrenOf_found found).symm
      rw [← childrenOf_found stored, ← childrenOf_found target_found, own, update_comm notOld.symm,
        update_eq_self]
    have domain : moved.known = tree.known := by
      funext other
      apply propext
      rw [← changed, known_setNode, known_setNode, known_setNode]
      constructor
      · rintro (rfl | rfl | rfl | old)
        · exact there
        · exact here
        · exact good.known_idom _ _ step
        · exact old
      · exact fun old => .inr (.inr (.inr old))
    have linked := linked_moved good.toLinked step same there idoms lists domain
    have leveled := leveled_moved good.leveled apart
    have unmoved : ∀ other, ¬ Above tree.idomOf block other →
        movedLevel tree.idomOf tree.levelOf block new other = tree.levelOf other :=
          fun other outside => if_neg outside
    obtain ⟨next, ran, links, reached, valid⟩ := @updateLevel_spec _ _ moved block new
      (movedLevel tree.idomOf tree.levelOf block new) linked (idoms ▸ leveled)
      (by rw [idoms, update_self])
      (by rw [levels, unmoved new apart])
      (by
        intro child upper differs below right
        rw [idoms, update_of_ne differs] at below
        rw [levels] at right ⊢
        have more := good.leveled _ _ below
        have target := leveled child upper (by rw [update_of_ne differs]; exact below)
        omega)
      (by
        intro top none
        rw [idoms] at none
        have differs : top ≠ block := by
          rintro rfl
          rw [update_self] at none
          exact absurd none (some_ne_none new)
        rw [update_of_ne differs] at none
        rw [levels, unmoved top fun above => differs ((above_top none).mp above).symm])
    refine ⟨next, ran, ⟨linked.same links, ?_, fun top known none => ?_⟩, ⟨?_, ?_, ?_, ?_⟩, ?_⟩
    · rw [links.idomOf, idoms, reached]
      exact leveled
    · rw [links.known, domain] at known
      rw [links.idomOf, idoms] at none
      have differs : top ≠ block := by
        rintro rfl
        rw [update_self] at none
        exact absurd none (some_ne_none new)
      rw [update_of_ne differs] at none
      rw [links.rootNode, links.roots, reached, unmoved top fun above => differs ((above_top none).mp above).symm,
        ← changed]
      exact good.root top known none
    · rw [links.known, domain]
    · rw [links.rootNode, ← changed]
      rfl
    · rw [links.roots, ← changed]
      rfl
    · rw [valid, ← changed]
      rfl
    · rw [links.idomOf, idoms]

end EvmBackend.DominatorTree
