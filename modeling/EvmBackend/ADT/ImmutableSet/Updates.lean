/-
What an update does to a tree and to memory.

The heights of the two subtrees of a node differ by at most 2, so an update finds
an excess of at most 3 and one rotation repairs it. In memory an update only
adds: no node of a tree that was there before is at an address it takes.
-/

import EvmBackend.Library.SortedEntries
import EvmBackend.ADT.ImmutableSet

namespace EvmBackend.ImutAVLFactory

open ImutAVLTree List

variable {Value Key Data : Type}

/-! ### Memory -/

/-- What is at each address in use: a node with all that hangs below it. -/
abbrev Memory (Value : Type) := Nat → Option (ImutAVLTree Value)

def Stored (memory : Memory Value) : ImutAVLTree Value → Prop
  | null => True
  | node address left value right height =>
      memory address = some (node address left value right height) ∧
        Stored memory left ∧ Stored memory right

def Placed (factory : ImutAVLFactory) (memory : Memory Value) : Prop :=
  ∀ address, address ∉ factory.live → memory address = none

structure Extends (factory : ImutAVLFactory) (memory : Memory Value) (factory' : ImutAVLFactory)
    (memory' : Memory Value) : Prop where
  kept : ∀ address tree, memory address = some tree → memory' address = some tree
  live : ∀ address, address ∈ factory.live → address ∈ factory'.live
  created : ∀ address, address ∈ factory'.createdNodes →
    address ∈ factory.createdNodes ∨ address ∉ factory.live

structure Builds (factory : ImutAVLFactory) (memory : Memory Value) (tree : ImutAVLTree Value)
    (factory' : ImutAVLFactory) (memory' : Memory Value) : Prop where
  extend : Extends factory memory factory' memory'
  placed : Placed factory' memory'
  stored : Stored memory' tree

section Memory

variable {factory factory' factory'' : ImutAVLFactory} {memory memory' memory'' : Memory Value}
  {tree tree' L R : ImutAVLTree Value} {V : Value}

theorem Extends.refl (factory : ImutAVLFactory) (memory : Memory Value) :
    Extends factory memory factory memory :=
  ⟨fun _ _ found => found, fun _ member => member, fun _ member => Or.inl member⟩

theorem Extends.trans (first : Extends factory memory factory' memory')
    (second : Extends factory' memory' factory'' memory'') :
    Extends factory memory factory'' memory'' where
  kept := fun address tree found => second.kept address tree (first.kept address tree found)
  live := fun address member => second.live address (first.live address member)
  created := by
    intro address member
    rcases second.created address member with earlier | absent
    · exact first.created address earlier
    · exact Or.inr fun live => absent (first.live address live)

theorem Stored.extends (stored : Stored memory tree)
    (extend : Extends factory memory factory' memory') : Stored memory' tree := by
  induction tree with
  | null => trivial
  | node address left value right height leftStored rightStored =>
      obtain ⟨here, left, right⟩ := stored
      exact ⟨extend.kept _ _ here, leftStored left, rightStored right⟩

theorem Stored.mem_live (placed : Placed factory memory) (stored : Stored memory tree) :
    ∀ address ∈ tree.addresses, address ∈ factory.live := by
  induction tree with
  | null =>
      intro address member
      cases member
  | node address left value right height leftLive rightLive =>
      obtain ⟨here, left, right⟩ := stored
      intro other member
      rcases mem_cons.mp member with rfl | below
      · by_contra absent
        rw [placed other absent] at here
        cases here
      · rcases mem_append.mp below with inLeft | inRight
        · exact leftLive left other inLeft
        · exact rightLive right other inRight

variable (allocator : NodeAllocator)

theorem createNode_builds (placed : Placed factory memory) (leftStored : Stored memory L)
    (rightStored : Stored memory R)
    (result : createNode allocator L V R factory = (tree, factory')) :
    ∃ memory', Builds factory memory tree factory' memory' := by
  have fresh := allocator.fresh factory.live
  have free := placed _ fresh
  obtain ⟨rfl, rfl⟩ := Prod.mk.inj result
  have extend : Extends factory memory (createNode allocator L V R factory).2
      (Function.update memory (allocator.place factory.live)
        (some (createNode allocator L V R factory).1)) := by
    refine ⟨?_, ?_, ?_⟩
    · intro address tree found
      rw [Function.update_of_ne]
      · exact found
      · rintro rfl
        rw [free] at found
        cases found
    · intro address member
      exact mem_cons_of_mem _ member
    · intro address member
      rcases mem_cons.mp member with rfl | earlier
      · exact Or.inr fresh
      · exact Or.inl earlier
  refine ⟨_, extend, ?_, ?_, leftStored.extends extend, rightStored.extends extend⟩
  · intro address absent
    have apart : address ≠ allocator.place factory.live := fun same =>
      absent (same ▸ mem_cons_self)
    rw [Function.update_of_ne apart]
    exact placed address fun member => absent (mem_cons_of_mem _ member)
  · exact Function.update_self ..

theorem createBoth_builds {outer : ImutAVLTree Value → ImutAVLFactory →
      ImutAVLTree Value × ImutAVLFactory}
    (placed : Placed factory memory) (leftStored : Stored memory L) (rightStored : Stored memory R)
    (result : createBoth allocator L V R outer factory = (tree, factory'))
    (builds : ∀ {inner between memory'}, Builds factory memory inner between memory' →
      outer inner between = (tree, factory') →
      ∃ memory'', Builds between memory' tree factory' memory'') :
    ∃ memory', Builds factory memory tree factory' memory' := by
  obtain ⟨memory', inner⟩ := createNode_builds allocator placed leftStored rightStored
    (show createNode allocator L V R factory = (_, _) from rfl)
  obtain ⟨memory'', whole⟩ := builds inner result
  exact ⟨memory'', inner.extend.trans whole.extend, whole.placed, whole.stored⟩

end Memory

/-! ### Balance -/

def Balanced : ImutAVLTree Value → Prop
  | null => True
  | node _ left _ right height =>
      height = max left.getHeight right.getHeight + 1 ∧
        left.getHeight ≤ right.getHeight + 2 ∧ right.getHeight ≤ left.getHeight + 2 ∧
        Balanced left ∧ Balanced right

section Balance

variable {L R tree : ImutAVLTree Value} {V : Value} {factory factory' : ImutAVLFactory}
  {memory : Memory Value} (allocator : NodeAllocator)

theorem incrementHeight_eq (L R : ImutAVLTree Value) :
    incrementHeight L R = max L.getHeight R.getHeight + 1 := by
  unfold incrementHeight
  split <;> omega

structure Joins (L : ImutAVLTree Value) (V : Value) (R : ImutAVLTree Value)
    (tree : ImutAVLTree Value) : Prop where
  balanced : Balanced tree
  inOrder : tree.inOrder = L.inOrder ++ V :: R.inOrder
  low : max L.getHeight R.getHeight ≤ tree.getHeight
  high : tree.getHeight ≤ max L.getHeight R.getHeight + 1
  exact : L.getHeight ≤ R.getHeight + 2 → R.getHeight ≤ L.getHeight + 2 →
    tree.getHeight = max L.getHeight R.getHeight + 1

theorem createNode_joins (V : Value) (factory : ImutAVLFactory) (left : Balanced L) (right : Balanced R)
    (above : L.getHeight ≤ R.getHeight + 2) (below : R.getHeight ≤ L.getHeight + 2) :
    Joins L V R (createNode allocator L V R factory).1 := by
  have height : (createNode allocator L V R factory).1.getHeight =
      max L.getHeight R.getHeight + 1 := incrementHeight_eq L R
  exact ⟨⟨height, above, below, left, right⟩, rfl, by omega, by omega, fun _ _ => height⟩

/-- The heights of the parts decide the rest: a tree of two or three new nodes over
balanced parts, with the heights the source computes. -/
theorem joins_of_heights {result : ImutAVLTree Value} (balanced : Balanced result)
    (inOrder : result.inOrder = L.inOrder ++ V :: R.inOrder)
    (low : max L.getHeight R.getHeight ≤ result.getHeight)
    (high : result.getHeight ≤ max L.getHeight R.getHeight + 1)
    (excess : L.getHeight > R.getHeight + 2 ∨ R.getHeight > L.getHeight + 2) :
    Joins L V R result :=
  ⟨balanced, inOrder, low, high, fun above below => by omega⟩

theorem balanceTree_joins (V : Value) (factory : ImutAVLFactory) (left : Balanced L) (right : Balanced R)
    (above : L.getHeight ≤ R.getHeight + 3) (below : R.getHeight ≤ L.getHeight + 3) :
    ∃ tree factory', balanceTree allocator L V R factory = some (tree, factory') ∧
      Joins L V R tree := by
  unfold balanceTree
  by_cases leftHigh : L.getHeight > R.getHeight + 2
  · simp only [if_pos leftHigh]
    cases L with
    | null =>
        simp only [getHeight] at leftHigh
        omega
    | node address LL LV LR height =>
        obtain ⟨heightRight, leftAbove, leftBelow, LLBalanced, LRBalanced⟩ := left
        by_cases outer : LL.getHeight ≥ LR.getHeight
        · simp only [if_pos outer]
          refine ⟨_, _, rfl, joins_of_heights
            ⟨incrementHeight_eq _ _, ?_, ?_, LLBalanced,
              incrementHeight_eq _ _, ?_, ?_, LRBalanced, right⟩ ?_ ?_ ?_ (Or.inl leftHigh)⟩
          all_goals simp only [getHeight, incrementHeight_eq, inOrder,
            List.append_assoc, List.cons_append] at *
          all_goals omega
        · simp only [if_neg outer]
          cases LR with
          | null =>
              simp only [getHeight] at outer
              omega
          | node innerAddress LRL LRV LRR innerHeight =>
              obtain ⟨innerRight, innerAbove, innerBelow, LRLBalanced, LRRBalanced⟩ := LRBalanced
              refine ⟨_, _, rfl, joins_of_heights
                ⟨incrementHeight_eq _ _, ?_, ?_,
                  ⟨incrementHeight_eq _ _, ?_, ?_, LLBalanced, LRLBalanced⟩,
                  incrementHeight_eq _ _, ?_, ?_, LRRBalanced, right⟩ ?_ ?_ ?_ (Or.inl leftHigh)⟩
              all_goals simp only [getHeight, incrementHeight_eq, inOrder,
                List.append_assoc, List.cons_append] at *
              all_goals omega
  simp only [if_neg leftHigh]
  by_cases rightHigh : R.getHeight > L.getHeight + 2
  · simp only [if_pos rightHigh]
    cases R with
    | null =>
        simp only [getHeight] at rightHigh
        omega
    | node address RL RV RR height =>
        obtain ⟨heightRight, rightAbove, rightBelow, RLBalanced, RRBalanced⟩ := right
        by_cases outer : RR.getHeight ≥ RL.getHeight
        · simp only [if_pos outer]
          refine ⟨_, _, rfl, joins_of_heights
            ⟨incrementHeight_eq _ _, ?_, ?_,
              ⟨incrementHeight_eq _ _, ?_, ?_, left, RLBalanced⟩, RRBalanced⟩ ?_ ?_ ?_
            (Or.inr rightHigh)⟩
          all_goals simp only [getHeight, incrementHeight_eq, inOrder,
            List.append_assoc, List.cons_append] at *
          all_goals omega
        · simp only [if_neg outer]
          cases RL with
          | null =>
              simp only [getHeight] at outer
              omega
          | node innerAddress RLL RLV RLR innerHeight =>
              obtain ⟨innerRight, innerAbove, innerBelow, RLLBalanced, RLRBalanced⟩ := RLBalanced
              refine ⟨_, _, rfl, joins_of_heights
                ⟨incrementHeight_eq _ _, ?_, ?_,
                  ⟨incrementHeight_eq _ _, ?_, ?_, left, RLLBalanced⟩,
                  incrementHeight_eq _ _, ?_, ?_, RLRBalanced, RRBalanced⟩ ?_ ?_ ?_
                (Or.inr rightHigh)⟩
              all_goals simp only [getHeight, incrementHeight_eq, inOrder,
                List.append_assoc, List.cons_append] at *
              all_goals omega
  · simp only [if_neg rightHigh]
    exact ⟨_, _, rfl, createNode_joins allocator V factory left right (by omega) (by omega)⟩

theorem balanceTree_builds (placed : Placed factory memory) (leftStored : Stored memory L)
    (rightStored : Stored memory R)
    (result : balanceTree allocator L V R factory = some (tree, factory')) :
    ∃ memory', Builds factory memory tree factory' memory' := by
  unfold balanceTree at result
  simp only at result
  split at result
  · cases L with
    | null => cases result
    | node address LL LV LR height =>
        obtain ⟨_, LLStored, LRStored⟩ := leftStored
        simp only at result
        split at result
        · exact createBoth_builds allocator placed LRStored rightStored (Option.some.inj result)
            fun inner => createNode_builds allocator inner.placed (LLStored.extends inner.extend)
              inner.stored
        · cases LR with
          | null => cases result
          | node _ LRL LRV LRR _ =>
              obtain ⟨_, LRLStored, LRRStored⟩ := LRStored
              refine createBoth_builds allocator placed LLStored LRLStored (Option.some.inj result)
                fun first outer => ?_
              refine createBoth_builds allocator first.placed (LRRStored.extends first.extend)
                (rightStored.extends first.extend) outer fun second => ?_
              exact createNode_builds allocator second.placed (first.stored.extends second.extend)
                second.stored
  split at result
  · cases R with
    | null => cases result
    | node address RL RV RR height =>
        obtain ⟨_, RLStored, RRStored⟩ := rightStored
        simp only at result
        split at result
        · exact createBoth_builds allocator placed leftStored RLStored (Option.some.inj result)
            fun inner => createNode_builds allocator inner.placed inner.stored
              (RRStored.extends inner.extend)
        · cases RL with
          | null => cases result
          | node _ RLL RLV RLR _ =>
              obtain ⟨_, RLLStored, RLRStored⟩ := RLStored
              refine createBoth_builds allocator placed leftStored RLLStored
                (Option.some.inj result) fun first outer => ?_
              refine createBoth_builds allocator first.placed (RLRStored.extends first.extend)
                (RRStored.extends first.extend) outer fun second => ?_
              exact createNode_builds allocator second.placed (first.stored.extends second.extend)
                second.stored
  · exact createNode_builds allocator placed leftStored rightStored (Option.some.inj result)

end Balance

section Updates

variable [LinearOrder Key] {T L R tree : ImutAVLTree Value} {V : Value} {K : Key}
  {factory factory' : ImutAVLFactory} {memory : Memory Value} (allocator : NodeAllocator)
  (info : ImutInfo Value Key Data)

open SortedEntries

structure Valid (tree : ImutAVLTree Value) : Prop where
  balanced : Balanced tree
  increasing : Increasing info.KeyOfValue tree.inOrder

variable {info}

theorem Valid.left {address height : Nat} (valid : Valid info (node address L V R height)) :
    Valid info L :=
  ⟨valid.balanced.2.2.2.1, (increasing_split.mp valid.increasing).1⟩

theorem Valid.right {address height : Nat} (valid : Valid info (node address L V R height)) :
    Valid info R :=
  ⟨valid.balanced.2.2.2.2, (increasing_split.mp valid.increasing).2.1⟩

section Heights

variable {address height : Nat} {left right : ImutAVLTree Value}

section

variable (balanced : Balanced (node address L V R height))

include balanced

theorem Joins.grown_left
    (joins : Joins left V R tree) (low : L.getHeight ≤ left.getHeight)
    (high : left.getHeight ≤ L.getHeight + 1) :
    height ≤ tree.getHeight ∧ tree.getHeight ≤ height + 1 := by
  obtain ⟨heightRight, above, below, _, _⟩ := balanced
  obtain ⟨_, _, least, most, exactly⟩ := joins
  omega

theorem Joins.grown_right
    (joins : Joins L V right tree) (low : R.getHeight ≤ right.getHeight)
    (high : right.getHeight ≤ R.getHeight + 1) :
    height ≤ tree.getHeight ∧ tree.getHeight ≤ height + 1 := by
  obtain ⟨heightRight, above, below, _, _⟩ := balanced
  obtain ⟨_, _, least, most, exactly⟩ := joins
  omega

theorem Joins.shrunk_left
    (joins : Joins left V R tree) (low : L.getHeight ≤ left.getHeight + 1)
    (high : left.getHeight ≤ L.getHeight) :
    height ≤ tree.getHeight + 1 ∧ tree.getHeight ≤ height := by
  obtain ⟨heightRight, above, below, _, _⟩ := balanced
  obtain ⟨_, _, least, most, exactly⟩ := joins
  omega

theorem Joins.shrunk_right
    (joins : Joins L V right tree) (low : R.getHeight ≤ right.getHeight + 1)
    (high : right.getHeight ≤ R.getHeight) :
    height ≤ tree.getHeight + 1 ∧ tree.getHeight ≤ height := by
  obtain ⟨heightRight, above, below, _, _⟩ := balanced
  obtain ⟨_, _, least, most, exactly⟩ := joins
  omega

end

theorem balanceTree_left (factory : ImutAVLFactory)
    (balanced : Balanced (node address L V R height)) (leftBalanced : Balanced left)
    (above : left.getHeight ≤ L.getHeight + 1) (below : L.getHeight ≤ left.getHeight + 1) :
    ∃ tree factory', balanceTree allocator left V R factory = some (tree, factory') ∧
      Joins left V R tree := by
  obtain ⟨_, leftAbove, leftBelow, _, rightBalanced⟩ := balanced
  exact balanceTree_joins allocator V factory leftBalanced rightBalanced (by omega) (by omega)

theorem balanceTree_right (factory : ImutAVLFactory)
    (balanced : Balanced (node address L V R height)) (rightBalanced : Balanced right)
    (above : right.getHeight ≤ R.getHeight + 1) (below : R.getHeight ≤ right.getHeight + 1) :
    ∃ tree factory', balanceTree allocator L V right factory = some (tree, factory') ∧
      Joins L V right tree := by
  obtain ⟨_, leftAbove, leftBelow, leftBalanced, _⟩ := balanced
  exact balanceTree_joins allocator V factory leftBalanced rightBalanced (by omega) (by omega)

end Heights

structure Added (info : ImutInfo Value Key Data) (V : Value) (T tree : ImutAVLTree Value) :
    Prop where
  balanced : Balanced tree
  inOrder : tree.inOrder = insert info.KeyOfValue V T.inOrder
  heights : T.getHeight ≤ tree.getHeight ∧ tree.getHeight ≤ T.getHeight + 1

theorem add_internal_added (valid : Valid info T) (factory : ImutAVLFactory) :
    ∃ tree factory', add_internal allocator info V T factory = some (tree, factory') ∧
      Added info V T tree := by
  induction T generalizing factory with
  | null =>
      refine ⟨_, _, rfl, ?_⟩
      exact ⟨⟨rfl, Nat.zero_le _, Nat.zero_le _, trivial, trivial⟩, rfl, Nat.zero_le _,
        Nat.le_refl _⟩
  | node address left value right height leftAdded rightAdded =>
      have order := insert_split V valid.increasing
      unfold add_internal
      by_cases same : info.KeyOfValue V = info.KeyOfValue value
      · obtain ⟨heightRight, above, below, leftBalanced, rightBalanced⟩ := valid.balanced
        have joins := createNode_joins allocator V factory leftBalanced rightBalanced above below
        have newHeight := joins.exact above below
        rw [if_pos same] at order ⊢
        refine ⟨_, _, rfl, joins.balanced, joins.inOrder.trans order.symm, ?_⟩
        change height ≤ (createNode allocator left V right factory).1.getHeight ∧
          (createNode allocator left V right factory).1.getHeight ≤ height + 1
        omega
      rw [if_neg same] at order ⊢
      by_cases less : info.KeyOfValue V < info.KeyOfValue value
      · obtain ⟨newLeft, between, inner, added⟩ := leftAdded valid.left factory
        obtain ⟨low, high⟩ := added.heights
        obtain ⟨tree, factory', outer, joins⟩ := balanceTree_left allocator between valid.balanced
          added.balanced high (by omega)
        rw [if_pos less] at order ⊢
        rw [inner]
        refine ⟨tree, factory', outer, joins.balanced, ?_, joins.grown_left valid.balanced low high⟩
        rw [joins.inOrder, added.inOrder]
        exact order.symm
      · obtain ⟨newRight, between, inner, added⟩ := rightAdded valid.right factory
        obtain ⟨low, high⟩ := added.heights
        obtain ⟨tree, factory', outer, joins⟩ := balanceTree_right allocator between valid.balanced
          added.balanced high (by omega)
        rw [if_neg less] at order ⊢
        rw [inner]
        refine ⟨tree, factory', outer, joins.balanced, ?_, joins.grown_right valid.balanced low high⟩
        rw [joins.inOrder, added.inOrder]
        exact order.symm

/-- The result of a removal: what is left, not higher and at most one lower. -/
structure Removed (rest : List Value) (T tree : ImutAVLTree Value) : Prop where
  balanced : Balanced tree
  inOrder : tree.inOrder = rest
  heights : T.getHeight ≤ tree.getHeight + 1 ∧ tree.getHeight ≤ T.getHeight

theorem removeMinBinding_removed (balanced : Balanced T) (nonempty : T.isEmpty = false)
    (factory : ImutAVLFactory) :
    ∃ tree least factory' rest,
      removeMinBinding allocator T factory = some (tree, least, factory') ∧
        T.inOrder = least :: rest ∧ Removed rest T tree := by
  induction T generalizing factory with
  | null => cases nonempty
  | node address left value right height leftRemoved _ =>
      have parts := balanced
      obtain ⟨heightRight, above, below, leftBalanced, rightBalanced⟩ := parts
      cases left with
      | null =>
          refine ⟨right, value, factory, right.inOrder, rfl, rfl, rightBalanced, rfl, ?_⟩
          simp only [getHeight] at *
          omega
      | node leftAddress first least second leftHeight =>
          obtain ⟨newLeft, removed, between, rest, inner, order, shrunk⟩ :=
            leftRemoved leftBalanced rfl factory
          obtain ⟨low, high⟩ := shrunk.heights
          obtain ⟨tree, factory', outer, joins⟩ := balanceTree_left allocator between balanced
            shrunk.balanced (by omega) low
          refine ⟨tree, removed, factory', rest ++ value :: right.inOrder, ?_, ?_, joins.balanced, ?_,
            joins.shrunk_left balanced low high⟩
          · rw [removeMinBinding, inner]
            change (balanceTree allocator newLeft value right between).bind _ = _
            rw [outer]
            rfl
          · rw [ImutAVLTree.inOrder, order]
            rfl
          · rw [joins.inOrder, shrunk.inOrder]

theorem combineTrees_removed {address height : Nat}
    (balanced : Balanced (node address L V R height)) (factory : ImutAVLFactory) :
    ∃ tree factory', combineTrees allocator L R factory = some (tree, factory') ∧
      Removed (L.inOrder ++ R.inOrder) (node address L V R height) tree := by
  obtain ⟨heightRight, above, below, leftBalanced, rightBalanced⟩ := balanced
  unfold combineTrees
  by_cases leftEmpty : L.isEmpty = true
  · rw [if_pos leftEmpty]
    cases L with
    | null =>
        refine ⟨R, factory, rfl, rightBalanced, rfl, ?_⟩
        simp only [getHeight] at *
        omega
    | node => cases leftEmpty
  rw [if_neg leftEmpty]
  by_cases rightEmpty : R.isEmpty = true
  · rw [if_pos rightEmpty]
    cases R with
    | null =>
        refine ⟨L, factory, rfl, leftBalanced, (append_nil _).symm, ?_⟩
        simp only [getHeight] at *
        omega
    | node => cases rightEmpty
  rw [if_neg rightEmpty]
  obtain ⟨newRight, removed, between, rest, inner, order, shrunk⟩ :=
    removeMinBinding_removed allocator rightBalanced (Bool.not_eq_true _ ▸ rightEmpty) factory
  obtain ⟨low, high⟩ := shrunk.heights
  obtain ⟨tree, factory', outer, joins⟩ := balanceTree_joins allocator removed between
    leftBalanced shrunk.balanced (by omega) (by omega)
  refine ⟨tree, factory', ?_, joins.balanced, ?_, ?_⟩
  · rw [inner]
    exact outer
  · rw [joins.inOrder, shrunk.inOrder, order]
  · obtain ⟨_, _, least, most, exactly⟩ := joins
    change height ≤ tree.getHeight + 1 ∧ tree.getHeight ≤ height
    omega

theorem remove_internal_removed (valid : Valid info T) (factory : ImutAVLFactory) :
    ∃ tree factory', remove_internal allocator info K T factory = some (tree, factory') ∧
      Removed (SortedEntries.remove info.KeyOfValue K T.inOrder) T tree := by
  induction T generalizing factory with
  | null => exact ⟨null, factory, rfl, trivial, rfl, Nat.zero_le _, Nat.le_refl _⟩
  | node address left value right height leftRemoved rightRemoved =>
      have order := remove_split K valid.increasing
      rw [ImutAVLTree.inOrder, order]
      unfold remove_internal
      by_cases same : K = info.KeyOfValue value
      · rw [if_pos same, if_pos same]
        exact combineTrees_removed allocator valid.balanced factory
      rw [if_neg same, if_neg same]
      by_cases less : K < info.KeyOfValue value
      · obtain ⟨newLeft, between, inner, shrunk⟩ := leftRemoved valid.left factory
        obtain ⟨low, high⟩ := shrunk.heights
        obtain ⟨tree, factory', outer, joins⟩ := balanceTree_left allocator between valid.balanced
          shrunk.balanced (by omega) low
        rw [if_pos less, if_pos less, inner]
        refine ⟨tree, factory', outer, joins.balanced, ?_, joins.shrunk_left valid.balanced low high⟩
        rw [joins.inOrder, shrunk.inOrder]
      · obtain ⟨newRight, between, inner, shrunk⟩ := rightRemoved valid.right factory
        obtain ⟨low, high⟩ := shrunk.heights
        obtain ⟨tree, factory', outer, joins⟩ := balanceTree_right allocator between valid.balanced
          shrunk.balanced (by omega) low
        rw [if_neg less, if_neg less, inner]
        refine ⟨tree, factory', outer, joins.balanced, ?_, joins.shrunk_right valid.balanced low high⟩
        rw [joins.inOrder, shrunk.inOrder]

/-! ### Updates in memory -/

variable (info)

theorem balanceTree_builds_over {inner between : ImutAVLFactory} {memory' : Memory Value}
    (built : Builds inner memory T between memory') (leftStored : Stored memory' L)
    (rightStored : Stored memory' R)
    (result : balanceTree allocator L V R between = some (tree, factory')) :
    ∃ memory'', Builds inner memory tree factory' memory'' := by
  obtain ⟨memory'', whole⟩ := balanceTree_builds allocator built.placed leftStored rightStored result
  exact ⟨memory'', built.extend.trans whole.extend, whole.placed, whole.stored⟩

theorem add_internal_builds (placed : Placed factory memory) (stored : Stored memory T)
    (result : add_internal allocator info V T factory = some (tree, factory')) :
    ∃ memory', Builds factory memory tree factory' memory' := by
  induction T generalizing tree factory' with
  | null => exact createNode_builds allocator placed stored stored (Option.some.inj result)
  | node address left value right height leftBuilds rightBuilds =>
      obtain ⟨_, leftStored, rightStored⟩ := stored
      unfold add_internal at result
      split at result
      · exact createNode_builds allocator placed leftStored rightStored (Option.some.inj result)
      split at result
      · obtain ⟨⟨newLeft, between⟩, inner, outer⟩ := Option.bind_eq_some_iff.mp result
        obtain ⟨memory', built⟩ := leftBuilds leftStored inner
        exact balanceTree_builds_over allocator built built.stored
          (rightStored.extends built.extend) outer
      · obtain ⟨⟨newRight, between⟩, inner, outer⟩ := Option.bind_eq_some_iff.mp result
        obtain ⟨memory', built⟩ := rightBuilds rightStored inner
        exact balanceTree_builds_over allocator built (leftStored.extends built.extend)
          built.stored outer

theorem removeMinBinding_builds {least : Value} (placed : Placed factory memory)
    (stored : Stored memory T)
    (result : removeMinBinding allocator T factory = some (tree, least, factory')) :
    ∃ memory', Builds factory memory tree factory' memory' := by
  induction T generalizing tree least factory' with
  | null => cases result
  | node address left value right height leftBuilds _ =>
      obtain ⟨_, leftStored, rightStored⟩ := stored
      cases left with
      | null =>
          cases result
          exact ⟨memory, Extends.refl _ _, placed, rightStored⟩
      | node leftAddress first next second leftHeight =>
          obtain ⟨⟨newLeft, removed, between⟩, inner, rest⟩ := Option.bind_eq_some_iff.mp result
          obtain ⟨⟨joined, behind⟩, outer, same⟩ := Option.bind_eq_some_iff.mp rest
          cases same
          obtain ⟨memory', built⟩ := leftBuilds leftStored inner
          exact balanceTree_builds_over allocator built built.stored
            (rightStored.extends built.extend) outer

theorem combineTrees_builds (placed : Placed factory memory) (leftStored : Stored memory L)
    (rightStored : Stored memory R)
    (result : combineTrees allocator L R factory = some (tree, factory')) :
    ∃ memory', Builds factory memory tree factory' memory' := by
  unfold combineTrees at result
  split at result
  · cases result
    exact ⟨memory, Extends.refl _ _, placed, rightStored⟩
  split at result
  · cases result
    exact ⟨memory, Extends.refl _ _, placed, leftStored⟩
  · obtain ⟨⟨newRight, removed, between⟩, inner, outer⟩ := Option.bind_eq_some_iff.mp result
    obtain ⟨memory', built⟩ := removeMinBinding_builds allocator placed rightStored inner
    exact balanceTree_builds_over allocator built (leftStored.extends built.extend)
      built.stored outer

theorem remove_internal_builds (placed : Placed factory memory) (stored : Stored memory T)
    (result : remove_internal allocator info K T factory = some (tree, factory')) :
    ∃ memory', Builds factory memory tree factory' memory' := by
  induction T generalizing tree factory' with
  | null =>
      cases result
      exact ⟨memory, Extends.refl _ _, placed, trivial⟩
  | node address left value right height leftBuilds rightBuilds =>
      obtain ⟨_, leftStored, rightStored⟩ := stored
      unfold remove_internal at result
      split at result
      · exact combineTrees_builds allocator placed leftStored rightStored result
      split at result
      · obtain ⟨⟨newLeft, between⟩, inner, outer⟩ := Option.bind_eq_some_iff.mp result
        obtain ⟨memory', built⟩ := leftBuilds leftStored inner
        exact balanceTree_builds_over allocator built built.stored
          (rightStored.extends built.extend) outer
      · obtain ⟨⟨newRight, between⟩, inner, outer⟩ := Option.bind_eq_some_iff.mp result
        obtain ⟨memory', built⟩ := rightBuilds rightStored inner
        exact balanceTree_builds_over allocator built (leftStored.extends built.extend)
          built.stored outer

theorem Stored.restrict {keep : Nat → Prop} [DecidablePred keep] (stored : Stored memory tree)
    (kept : ∀ address ∈ tree.addresses, keep address) :
    Stored (fun address => if keep address then memory address else none) tree := by
  induction tree with
  | null => trivial
  | node address left value right height leftKept rightKept =>
      obtain ⟨here, leftStored, rightStored⟩ := stored
      refine ⟨?_, leftKept leftStored ?_, rightKept rightStored ?_⟩
      · exact (if_pos (kept address mem_cons_self)).trans here
      · intro other member
        exact kept other (mem_cons_of_mem _ (mem_append_left _ member))
      · intro other member
        exact kept other (mem_cons_of_mem _ (mem_append_right _ member))

/-- Destroying the nodes that did not become part of the tree leaves the tree and every
tree from before the call in memory. -/
theorem recoverNodes_stored {memory' : Memory Value} (nothing : factory.createdNodes = [])
    (placed : Placed factory memory) (built : Builds factory memory tree factory' memory') :
    ∃ memory'', Placed (recoverNodes tree factory') memory'' ∧ Stored memory'' tree ∧
      ∀ other, Stored memory other → Stored memory'' other := by
  refine ⟨fun address => if address ∈ (recoverNodes tree factory').live then memory' address
    else none, ?_, ?_, ?_⟩
  · intro address absent
    exact if_neg absent
  · apply built.stored.restrict
    intro address member
    refine mem_filter.mpr ⟨built.stored.mem_live built.placed address member, ?_⟩
    rw [contains_iff_mem.mpr member, Bool.or_true]
  · intro other stored
    apply (stored.extends built.extend).restrict
    intro address member
    have live := stored.mem_live placed address member
    have older : address ∉ factory'.createdNodes := by
      intro created
      rcases built.extend.created address created with before | absent
      · rw [nothing] at before
        cases before
      · exact absent live
    refine mem_filter.mpr ⟨built.extend.live address live, ?_⟩
    simp [older]

end Updates

end EvmBackend.ImutAVLFactory
