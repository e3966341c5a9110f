/-
Queries of a dominator tree. Whether a node is above another is found in the same
way by the numbers and by the walk up the tree, and the nearest common dominator
by going up from both nodes. A query changes at most what the tree caches.
-/

import EvmBackend.DominatorTree.Changes
import EvmBackend.Library.TreeNumbering

namespace EvmBackend.DominatorTree

open ParentTrees TreeNumbering Function List Option

variable {Block : Type} [DecidableEq Block] {tree next : DominatorTree Block}
    {block other idom above below : Block}
  {node : DomTreeNode Block}

structure SameTree (tree next : DominatorTree Block) : Prop extends SameLinks tree next where
  levelOf : next.levelOf = tree.levelOf

theorem SameTree.refl (tree : DominatorTree Block) : SameTree tree tree := ⟨SameLinks.refl tree, rfl⟩

theorem SameTree.trans {last : DominatorTree Block} (one : SameTree tree next) (two : SameTree next last) :
    SameTree tree last :=
  ⟨one.toSameLinks.trans two.toSameLinks, two.levelOf.trans one.levelOf⟩

theorem WellFormed.same (good : WellFormed tree) (same : SameTree tree next) : WellFormed next := by
  refine ⟨good.toLinked.same same.toSameLinks, ?_, fun block known none => ?_⟩
  · rw [same.idomOf, same.levelOf]
    exact good.leveled
  · rw [same.known] at known
    rw [same.idomOf] at none
    rw [same.rootNode, same.levelOf, same.roots]
    exact good.root block known none

/-! ### Numbers -/

theorem setNumIn_spec (here : tree.known block) (number : Nat) :
    ∃ next, setNumIn block number tree = some next ∧ SameTree tree next ∧
      next.numInOf = update tree.numInOf block number ∧ next.numOutOf = tree.numOutOf ∧
      next.dfsInfoValid = tree.dfsInfoValid := by
  obtain ⟨node, found⟩ := known_iff.mp here
  unfold setNumIn
  dsimp only [bind, pure]
  rw [found, bind_some]
  refine ⟨_, rfl, ⟨SameLinks.setNode found rfl rfl, ?_⟩, numInOf_setNode, ?_, rfl⟩
  · rw [levelOf_setNode, ← levelOf_found found, update_eq_self]
  · rw [numOutOf_setNode, ← numOutOf_found found, update_eq_self]

theorem setNumOut_spec (here : tree.known block) (number : Nat) :
    ∃ next, setNumOut block number tree = some next ∧ SameTree tree next ∧ next.numInOf = tree.numInOf ∧
      next.numOutOf = update tree.numOutOf block number ∧ next.dfsInfoValid = tree.dfsInfoValid := by
  obtain ⟨node, found⟩ := known_iff.mp here
  unfold setNumOut
  dsimp only [bind, pure]
  rw [found, bind_some]
  refine ⟨_, rfl, ⟨SameLinks.setNode found rfl rfl, ?_⟩, ?_, numOutOf_setNode, rfl⟩
  · rw [levelOf_setNode, ← levelOf_found found, update_eq_self]
  · rw [numInOf_setNode, ← numInOf_found found, update_eq_self]

theorem WellFormed.listed (good : WellFormed tree) : Listed tree.idomOf tree.childrenOf :=
  ⟨good.mem_children, good.nodup⟩

theorem updateDFSNumbersLoop_spec {walk : Walk Block} {unseen : List Block} {fuel : Nat} (good : WellFormed tree)
    (numbered : Numbered tree.idomOf tree.childrenOf walk) (numIn : walk.numIn = tree.numInOf)
    (numOut : walk.numOut = tree.numOutOf) (onTree : ∀ block ∈ walk.seen, tree.known block)
    (covered : ∀ block, tree.known block → block ∉ walk.seen → block ∈ unseen)
    (enough : 2 * unseen.length + walk.stack.length ≤ fuel) :
    ∃ next last, updateDFSNumbersLoop fuel walk.stack walk.next tree = some next ∧ SameTree tree next ∧
      Numbered tree.idomOf tree.childrenOf last ∧ last.stack = [] ∧ last.numIn = next.numInOf ∧
      last.numOut = next.numOutOf ∧ walk.seen ⊆ last.seen := by
  induction fuel generalizing tree walk unseen with
  | zero =>
      have empty : walk.stack = [] := length_eq_zero_iff.mp (by omega)
      rw [empty]
      exact ⟨tree, walk, rfl, SameTree.refl tree, numbered, empty, numIn, numOut, fun _ member => member⟩
  | succ fuel ih =>
      cases shape : walk.stack with
      | nil => exact ⟨tree, walk, rfl, SameTree.refl tree, numbered, shape, numIn, numOut, fun _ member => member⟩
      | cons entry workStack =>
          obtain ⟨node, rest⟩ := entry
          have inStack : (node, rest) ∈ walk.stack := by
            rw [shape]
            exact mem_cons_self
          have here : tree.known node :=
            onTree node ((numbered.split node).mpr (.inr (List.mem_map_of_mem inStack)))
          rw [shape, length_cons] at enough
          cases rest with
          | nil =>
              obtain ⟨changed, stored, same, ins, outs, -⟩ := setNumOut_spec here walk.next
              have left := numbered.leave good.leveled shape
              obtain ⟨next, last, ran, tail, ended, empty, ins', outs', grows⟩ :=
                @ih changed (walk.leave node workStack) unseen (good.same same)
                  (by rw [same.idomOf, same.childrenOf]; exact left) (numIn.trans ins.symm)
                  (by rw [outs, ← numOut]; rfl) (fun block seen => by rw [same.known]; exact onTree block seen)
                  (fun block known fresh => covered block (by rw [same.known] at known; exact known) fresh)
                  (by change 2 * unseen.length + workStack.length ≤ fuel; omega)
              rw [same.idomOf, same.childrenOf] at ended
              refine ⟨next, last, ?_, same.trans tail, ended, empty, ins', outs', grows⟩
              rw [updateDFSNumbersLoop]
              dsimp only [bind, pure]
              rw [stored, bind_some]
              exact ran
          | cons child rest =>
              have part := numbered.rest _ inStack
              have up : tree.idomOf child = some node :=
                (good.mem_children child node).mp (part.1.subset mem_cons_self)
              have fresh : child ∉ walk.seen := part.2 child mem_cons_self
              have there : tree.known child := known_of_idom up
              obtain ⟨found, foundAt⟩ := known_iff.mp there
              obtain ⟨changed, stored, same, ins, outs, -⟩ := setNumIn_spec there walk.next
              have visited := numbered.visit good.leveled good.listed shape
              rw [childrenOf_found foundAt] at visited
              have member := covered child there fresh
              obtain ⟨next, last, ran, tail, ended, empty, ins', outs', grows⟩ :=
                @ih changed (walk.visit node child rest found.children workStack) (unseen.erase child)
                  (good.same same)
                  (by rw [same.idomOf, same.childrenOf]; exact visited) (by rw [ins, ← numIn]; rfl)
                  (numOut.trans outs.symm)
                  (fun block seen => by
                    rw [same.known]
                    rcases seen with rfl | old
                    · exact there
                    · exact onTree block old)
                  (fun block known unvisited => by
                    rw [same.known] at known
                    have differs : block ≠ child := fun equal => unvisited (.inl equal)
                    exact (mem_erase_of_ne differs).mpr
                      (covered block known fun old => unvisited (.inr old)))
                  (by
                    have length := length_erase_of_mem member
                    have some' := length_pos_of_mem member
                    change 2 * (unseen.erase child).length + (workStack.length + 1 + 1) ≤ fuel
                    omega)
              rw [same.idomOf, same.childrenOf] at ended
              refine ⟨next, last, ?_, same.trans tail, ended, empty, ins', outs', fun block seen =>
                grows (Set.mem_insert_of_mem child seen)⟩
              rw [updateDFSNumbersLoop]
              dsimp only [bind, pure]
              rw [foundAt, bind_some, stored, bind_some]
              exact ran

theorem updateDFSNumbers_spec (good : Consistent tree) (here : tree.known block) :
    ∃ next, updateDFSNumbers tree = some next ∧ SameTree tree next ∧ Consistent next ∧
      next.dfsInfoValid = true := by
  unfold updateDFSNumbers
  by_cases valid : tree.dfsInfoValid = true
  · rw [if_pos valid]
    exact ⟨_, rfl, ⟨⟨rfl, rfl, rfl, rfl, rfl⟩, rfl⟩, ⟨good.cached _ 0, good.numbers⟩, valid⟩
  · rw [if_neg valid]
    obtain ⟨root, known, top, named, -⟩ := good.root_above here
    obtain ⟨found, foundAt⟩ := known_iff.mp known
    obtain ⟨started, stored, same, ins, outs, -⟩ := setNumIn_spec known 0
    have begun := Numbered.start top good.listed started.numInOf started.numOutOf (by rw [ins, update_self])
    obtain ⟨next, last, ran, tail, ended, empty, ins', outs', grows⟩ :=
      @updateDFSNumbersLoop_spec _ _ started
        (Walk.start root (tree.childrenOf root) started.numInOf started.numOutOf)
        (tree.blocks.erase root) (2 * tree.size) (good.same same)
        (by rw [same.idomOf, same.childrenOf]; exact begun) rfl rfl
        (fun block seen => by
          rw [same.known, Set.mem_singleton_iff.mp seen]
          exact known)
        (fun block present fresh => by
          rw [same.known] at present
          have differs : block ≠ root := fun equal => fresh (Set.mem_singleton_iff.mpr equal)
          exact (mem_erase_of_ne differs).mpr (mem_blocks.mpr present))
        (by
          have member := mem_blocks.mpr known
          have length := length_erase_of_mem member
          have some' := length_pos_of_mem member
          rw [length_blocks] at length some'
          change 2 * (tree.blocks.erase root).length + 1 ≤ 2 * tree.size
          omega)
    rw [same.idomOf, same.childrenOf] at ended
    have whole := same.trans tail
    rw [named]
    dsimp only [bind, pure]
    rw [foundAt, bind_some, stored, bind_some]
    rw [← childrenOf_found foundAt]
    change ∃ last', (updateDFSNumbersLoop (2 * tree.size) [(root, tree.childrenOf root)] 1 started).bind _
      = some last' ∧ _
    have ran' : updateDFSNumbersLoop (2 * tree.size) [(root, tree.childrenOf root)] 1 started = some next := ran
    rw [ran', bind_some]
    have seen : ∀ block, tree.known block → block ∈ last.seen := by
      intro block present
      obtain ⟨other, -, -, named', above⟩ := good.root_above present
      rw [named] at named'
      cases named'
      exact ended.all_seen good.listed empty (grows (Set.mem_singleton root)) above
    refine ⟨_, rfl, ⟨⟨whole.idomOf, whole.childrenOf, whole.known, whole.rootNode, whole.roots⟩, whole.levelOf⟩,
      ⟨(good.same whole).cached true 0, fun _ one two first second => ?_⟩, rfl⟩
    change Above next.idomOf one two ↔ next.numInOf one ≤ next.numInOf two ∧ next.numOutOf two ≤ next.numOutOf one
    change next.known one at first
    change next.known two at second
    rw [whole.known] at first second
    rw [whole.idomOf, ← ins', ← outs']
    exact ended.above_iff empty (seen one first) (seen two second)

theorem WellFormed.ancestors (good : WellFormed tree) (here : tree.known block) :
    ∃ list : List Block, list.Nodup ∧ list.length = tree.levelOf block + 1 ∧
      ∀ other ∈ list, tree.known other ∧ tree.levelOf other ≤ tree.levelOf block := by
  generalize height : tree.levelOf block = depth
  induction depth generalizing block with
  | zero =>
      refine ⟨[block], nodup_cons.mpr ⟨not_mem_nil, nodup_nil⟩, rfl, fun other member => ?_⟩
      rw [mem_singleton.mp member]
      exact ⟨here, Nat.le_of_eq height⟩
  | succ depth ih =>
      cases step : tree.idomOf block with
      | none =>
          have low := (good.root block here step).2.1
          omega
      | some idom =>
          have more := good.leveled _ _ step
          obtain ⟨list, distinct, length, each⟩ := ih (good.known_idom _ _ step) (by omega)
          refine ⟨block :: list,
            nodup_cons.mpr ⟨fun member => ?_, distinct⟩, by rw [length_cons, length],
            fun other member => ?_⟩
          · have low := (each block member).2
            omega
          · rcases mem_cons.mp member with rfl | deeper
            · exact ⟨here, Nat.le_of_eq height⟩
            · exact ⟨(each other deeper).1, Nat.le_succ_of_le (each other deeper).2⟩

theorem WellFormed.level_lt_size (good : WellFormed tree) (here : tree.known block) :
    tree.levelOf block < tree.size := by
  obtain ⟨list, distinct, length, each⟩ := good.ancestors here
  have inside : list ⊆ tree.blocks := fun other member => mem_blocks.mpr (each other member).1
  have bound := (subperm_of_subset distinct inside).length_le
  rw [length, length_blocks] at bound
  omega

/-! ### Dominance -/

theorem dominatedBy_eq (upper : tree.known above) (lower : tree.known below) :
    dominatedBy above below tree =
      some (decide (tree.numInOf above ≤ tree.numInOf below ∧ tree.numOutOf below ≤ tree.numOutOf above)) := by
  obtain ⟨one, first⟩ := known_iff.mp upper
  obtain ⟨two, second⟩ := known_iff.mp lower
  unfold dominatedBy
  dsimp only [bind, pure]
  rw [first, bind_some, second, bind_some, numInOf_found first, numInOf_found second,
    numOutOf_found first, numOutOf_found second]

theorem slowTreeWalkLoop_spec {level fuel : Nat} (good : WellFormed tree) (here : tree.known block)
    (high : level ≤ tree.levelOf block) (enough : tree.levelOf block < fuel) :
    ∃ found, slowTreeWalkLoop level tree fuel block = some found ∧ Above tree.idomOf found block ∧
      tree.levelOf found = level := by
  induction fuel generalizing block with
  | zero => omega
  | succ fuel ih =>
      obtain ⟨node, stored⟩ := known_iff.mp here
      rw [slowTreeWalkLoop]
      dsimp only [bind, pure]
      rw [stored, bind_some, ← idomOf_found stored]
      cases step : tree.idomOf block with
      | none =>
          have low := (good.root block here step).2.1
          exact ⟨block, rfl, Above.refl block, by omega⟩
      | some idom =>
          have there := good.known_idom _ _ step
          obtain ⟨above, found⟩ := known_iff.mp there
          have more := good.leveled _ _ step
          dsimp only
          rw [found, bind_some, ← levelOf_found found]
          by_cases further : level ≤ tree.levelOf idom
          · rw [if_pos further]
            obtain ⟨last, ran, up, reached⟩ := ih there further (by omega)
            exact ⟨last, ran, up.trans (above_parent step), reached⟩
          · rw [if_neg further]
            exact ⟨block, rfl, Above.refl block, by omega⟩

theorem dominatedBySlowTreeWalk_eq (good : WellFormed tree) (upper : tree.known above) (lower : tree.known below)
    (order : tree.levelOf above ≤ tree.levelOf below) :
    ∃ answer, dominatedBySlowTreeWalk above below tree = some answer ∧
      (answer = true ↔ Above tree.idomOf above below) := by
  obtain ⟨node, found⟩ := known_iff.mp upper
  have bound := good.level_lt_size lower
  obtain ⟨last, ran, up, reached⟩ := slowTreeWalkLoop_spec good lower order (Nat.lt_succ_of_lt bound)
  unfold dominatedBySlowTreeWalk
  dsimp only [bind, pure]
  rw [found, bind_some, ← levelOf_found found, ran, bind_some]
  refine ⟨_, rfl, ?_⟩
  rw [decide_eq_true_iff]
  constructor
  · intro same
    rw [← same]
    exact up
  · intro goes
    exact (up.of_level good.leveled goes (Nat.le_of_eq reached)).eq_of_level good.leveled
      (Nat.le_of_eq reached.symm)

theorem dominatesNodes_spec (good : Consistent tree) (upper : tree.known above) (lower : tree.known below) :
    ∃ answer next, dominatesNodes (some above) (some below) tree = some (answer, next) ∧
      (answer = true ↔ Above tree.idomOf above below) ∧ SameTree tree next ∧ Consistent next := by
  obtain ⟨one, first⟩ := known_iff.mp upper
  obtain ⟨two, second⟩ := known_iff.mp lower
  have strict : ∀ {left right}, tree.idomOf right = some left → tree.levelOf left < tree.levelOf right := by
    intro left right step
    have more := good.leveled _ _ step
    omega
  unfold dominatesNodes
  by_cases same : some below = some above
  · rw [if_pos same]
    cases same
    exact ⟨true, tree, rfl, iff_of_true rfl (Above.refl _), SameTree.refl tree, good⟩
  · rw [if_neg same]
    have differs : above ≠ below := fun equal => same (congrArg some equal.symm)
    dsimp only [bind, pure]
    rw [second, bind_some, first, bind_some, ← idomOf_found second, ← idomOf_found first,
      ← levelOf_found second, ← levelOf_found first]
    by_cases child : tree.idomOf below = some above
    · rw [if_pos child]
      exact ⟨true, tree, rfl, iff_of_true rfl (above_parent child), SameTree.refl tree, good⟩
    rw [if_neg child]
    by_cases parent : tree.idomOf above = some below
    · rw [if_pos parent]
      refine ⟨false, tree, rfl, iff_of_false Bool.false_ne_true fun goes => ?_, SameTree.refl tree, good⟩
      have low := goes.level_le good.leveled
      have high := strict parent
      omega
    rw [if_neg parent]
    by_cases levels : tree.levelOf below ≤ tree.levelOf above
    · rw [if_pos levels]
      exact ⟨false, tree, rfl, iff_of_false Bool.false_ne_true fun goes =>
        differs (goes.eq_of_level good.leveled levels), SameTree.refl tree, good⟩
    rw [if_neg levels]
    by_cases valid : tree.dfsInfoValid = true
    · rw [if_pos valid, dominatedBy_eq upper lower]
      refine ⟨_, tree, rfl, ?_, SameTree.refl tree, good⟩
      rw [decide_eq_true_iff]
      exact (good.numbers valid above below upper lower).symm
    rw [if_neg valid]
    unfold dominatesSlowly
    dsimp only [bind, pure]
    have counted : Consistent { tree with slowQueries := tree.slowQueries + 1 } :=
      ⟨good.cached tree.dfsInfoValid (tree.slowQueries + 1), good.numbers⟩
    by_cases many : 32 < tree.slowQueries + 1
    · rw [if_pos many]
      obtain ⟨numbered, ran, links, still, now⟩ := updateDFSNumbers_spec counted upper
      have up : numbered.known above := by
        rw [links.known]
        exact upper
      have low : numbered.known below := by
        rw [links.known]
        exact lower
      rw [ran, bind_some, dominatedBy_eq up low, bind_some]
      refine ⟨_, numbered, rfl, ?_, ⟨⟨links.idomOf, links.childrenOf, links.known, links.rootNode, links.roots⟩,
        links.levelOf⟩, still⟩
      rw [decide_eq_true_iff, ← still.numbers now above below up low, links.idomOf]
      exact Iff.rfl
    · rw [if_neg many]
      obtain ⟨answer, ran, right⟩ :=
        @dominatedBySlowTreeWalk_eq _ _ { tree with slowQueries := tree.slowQueries + 1 }
        above below counted.toWellFormed upper lower (Nat.le_of_not_le levels)
      rw [ran, bind_some]
      exact ⟨answer, _, rfl, right, ⟨⟨rfl, rfl, rfl, rfl, rfl⟩, rfl⟩, counted⟩

theorem dominates_spec (good : Consistent tree) (above below : Block) :
    ∃ answer next, dominates above below tree = some (answer, next) ∧
      (answer = true ↔ above = below ∨ ¬ tree.known below ∨ tree.known above ∧ Above tree.idomOf above below) ∧
      SameTree tree next ∧ Consistent next := by
  unfold dominates
  by_cases same : above = below
  · rw [if_pos same]
    exact ⟨true, tree, rfl, iff_of_true rfl (.inl same), SameTree.refl tree, good⟩
  rw [if_neg same]
  by_cases lower : tree.known below
  · obtain ⟨two, second⟩ := known_iff.mp lower
    rw [pointer_found second]
    by_cases upper : tree.known above
    · obtain ⟨one, first⟩ := known_iff.mp upper
      rw [pointer_found first]
      obtain ⟨answer, next, ran, right, rest⟩ := dominatesNodes_spec good upper lower
      refine ⟨answer, next, ran, right.trans ⟨fun goes => .inr (.inr ⟨upper, goes⟩), ?_⟩, rest⟩
      rintro (equal | missing | ⟨-, goes⟩)
      · exact absurd equal same
      · exact absurd lower missing
      · exact goes
    · have null : tree.pointer above = none := by
        unfold pointer
        rw [not_not.mp upper, map_none]
      rw [null]
      refine ⟨false, tree, rfl, iff_of_false Bool.false_ne_true ?_, SameTree.refl tree, good⟩
      rintro (equal | missing | ⟨known, -⟩)
      · exact same equal
      · exact missing lower
      · exact upper known
  · have null : tree.pointer below = none := by
      unfold pointer
      rw [not_not.mp lower, map_none]
    rw [null]
    unfold dominatesNodes
    by_cases equal : (none : Option Block) = tree.pointer above
    · rw [if_pos equal]
      exact ⟨true, tree, rfl, iff_of_true rfl (.inr (.inl lower)), SameTree.refl tree, good⟩
    · rw [if_neg equal]
      exact ⟨true, tree, rfl, iff_of_true rfl (.inr (.inl lower)), SameTree.refl tree, good⟩

theorem findNearestCommonDominatorLoop_spec {a b : Block} {fuel : Nat} (good : WellFormed tree)
    (left : tree.known a)
    (right : tree.known b) (enough : tree.levelOf a + tree.levelOf b < fuel) :
    ∃ nearest, findNearestCommonDominatorLoop tree fuel (some a) b = some (some nearest) ∧
      NearestCommon tree.idomOf nearest a b := by
  induction fuel generalizing a b with
  | zero => omega
  | succ fuel ih =>
      obtain ⟨one, first⟩ := known_iff.mp left
      obtain ⟨two, second⟩ := known_iff.mp right
      rw [findNearestCommonDominatorLoop]
      by_cases same : a = b
      · rw [if_pos same, ← same]
        exact ⟨a, rfl, NearestCommon.self a⟩
      rw [if_neg same]
      dsimp only [bind, pure]
      rw [first, bind_some, second, bind_some, ← levelOf_found first, ← levelOf_found second,
        ← idomOf_found first, ← idomOf_found second]
      by_cases lower : tree.levelOf a < tree.levelOf b
      · rw [if_pos lower]
        have apart : ¬ Above tree.idomOf b a := by
          intro above
          have low := above.level_le good.leveled
          omega
        obtain ⟨idom, step⟩ := good.has_idom right left apart
        have more := good.leveled _ _ step
        obtain ⟨nearest, ran, found⟩ := ih (good.known_idom _ _ step) left (by omega)
        rw [step]
        exact ⟨nearest, ran, (found.of_parent step apart).symm⟩
      · rw [if_neg lower]
        have apart : ¬ Above tree.idomOf a b := fun above =>
          same (above.eq_of_level good.leveled (Nat.le_of_not_lt lower))
        obtain ⟨idom, step⟩ := good.has_idom left right apart
        have more := good.leveled _ _ step
        obtain ⟨nearest, ran, found⟩ := ih (good.known_idom _ _ step) right (by omega)
        rw [step]
        exact ⟨nearest, ran, found.of_parent step apart⟩

theorem findNearestCommonDominator_spec {entry a b : Block} (good : WellFormed tree) (left : tree.known a)
    (right : tree.known b) (root : tree.rootNode = some entry) :
    ∃ nearest, findNearestCommonDominator entry a b tree = some (some nearest) ∧
      NearestCommon tree.idomOf nearest a b := by
  have atEntry : ∀ other, tree.known other → Above tree.idomOf entry other ∧ tree.idomOf entry = none := by
    intro other here
    obtain ⟨found, -, top, named, above⟩ := good.root_above here
    rw [root] at named
    cases named
    exact ⟨above, top⟩
  unfold findNearestCommonDominator
  by_cases isEntry : a = entry ∨ b = entry
  · rw [if_pos isEntry]
    refine ⟨entry, rfl, ?_⟩
    rcases isEntry with rfl | rfl
    · exact NearestCommon.of_top (atEntry b right).2 (atEntry b right).1
    · exact (NearestCommon.of_top (atEntry a left).2 (atEntry a left).1).symm
  · rw [if_neg isEntry]
    obtain ⟨one, first⟩ := known_iff.mp left
    obtain ⟨two, second⟩ := known_iff.mp right
    rw [pointer_found first, pointer_found second]
    have lowLeft := good.level_lt_size left
    have lowRight := good.level_lt_size right
    exact findNearestCommonDominatorLoop_spec good left right (by omega)

theorem known_nearest (good : WellFormed tree) {nearest : Block} (above : Above tree.idomOf nearest block)
    (here : tree.known block) : tree.known nearest := by
  by_contra missing
  exact not_above_unknown good missing here above

end EvmBackend.DominatorTree
