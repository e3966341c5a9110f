/-
A factory with all the trees it has returned, against the finite maps that the
same updates give.

An update may start from any tree returned before, so the trees share subtrees in
every way the factory allows.
-/

import Mathlib.Data.List.Forall2
import Mathlib.Order.Nat
import EvmBackend.Library.Runs
import EvmBackend.ADT.ImmutableSet.Iteration

namespace EvmBackend.ImutAVLFactory

open ImutAVLTree ImutAVLTreeIterator SortedEntries

variable {Value Key Data : Type} [LinearOrder Key] [DecidableEq Data]

/-- An update of the tree with the given number; a number not yet in use is the empty
tree. -/
inductive Update (Value Key : Type) where
  | add (tree : Nat) (value : Value)
  | remove (tree : Nat) (key : Key)

structure Trees (Value : Type) where
  factory : ImutAVLFactory
  trees : List (ImutAVLTree Value)

def Trees.start : Trees Value := ⟨⟨[], []⟩, [null]⟩

def Trees.at (state : Trees Value) (index : Nat) : ImutAVLTree Value := state.trees.getD index null

def updateTrees (allocator : NodeAllocator) (info : ImutInfo Value Key Data) :
    Update Value Key → Trees Value → Option (Trees Value)
  | .add index value, state => do
      let (tree, factory) ← add allocator info (state.at index) value state.factory
      some ⟨factory, state.trees ++ [tree]⟩
  | .remove index key, state => do
      let (tree, factory) ← remove allocator info (state.at index) key state.factory
      some ⟨factory, state.trees ++ [tree]⟩

abbrev Maps (Value Key : Type) := List (Key → Option Value)

def emptyMap : Key → Option Value := fun _ => none

def mapAt (maps : Maps Value Key) (index : Nat) : Key → Option Value := maps.getD index emptyMap

def updateMaps (info : ImutInfo Value Key Data) (maps : Maps Value Key) :
    Update Value Key → Maps Value Key
  | .add index value =>
      maps ++ [Function.update (mapAt maps index) (info.KeyOfValue value) (some value)]
  | .remove index key => maps ++ [Function.update (mapAt maps index) key none]

def mapsAfter (info : ImutInfo Value Key Data) (updates : List (Update Value Key)) :
    Maps Value Key :=
  updates.foldl (updateMaps info) [emptyMap]

/-! ### Agreement -/

variable (allocator : NodeAllocator) (info : ImutInfo Value Key Data)

/-- A valid tree in memory that holds the entries of a map. -/
structure Holds (memory : Memory Value) (tree : ImutAVLTree Value) (map : Key → Option Value) :
    Prop where
  valid : Valid info tree
  stored : Stored memory tree
  entries : ∀ key, lookup info.KeyOfValue key tree.inOrder = map key

structure Agrees (state : Trees Value) (maps : Maps Value Key) (memory : Memory Value) : Prop where
  placed : Placed state.factory memory
  nothingCreated : state.factory.createdNodes = []
  holds : List.Forall₂ (Holds info memory) state.trees maps

variable {info} {state : Trees Value} {maps : Maps Value Key} {memory : Memory Value}

omit [DecidableEq Data] in
theorem holds_null : Holds info memory null (emptyMap : Key → Option Value) :=
  ⟨⟨trivial, List.Pairwise.nil⟩, trivial, fun _ => rfl⟩

omit [DecidableEq Data] in
theorem Agrees.at (agrees : Agrees info state maps memory) (index : Nat) :
    Holds info memory (state.at index) (mapAt maps index) := by
  have each := agrees.holds
  clear agrees
  unfold Trees.at mapAt
  generalize state.trees = trees at each
  induction each generalizing index with
  | nil => exact holds_null
  | cons first _ ih =>
      cases index with
      | zero => exact first
      | succ index => exact ih index

omit [DecidableEq Data] in
theorem Agrees.append {tree : ImutAVLTree Value} {map : Key → Option Value}
    {factory' : ImutAVLFactory} {memory' : Memory Value} (agrees : Agrees info state maps memory)
    (built : Builds state.factory memory tree factory' memory') (valid : Valid info tree)
    (entries : ∀ key, lookup info.KeyOfValue key tree.inOrder = map key) :
    ∃ memory'', Agrees info ⟨recoverNodes tree factory', state.trees ++ [tree]⟩ (maps ++ [map])
      memory'' := by
  obtain ⟨memory'', placed, stored, kept⟩ :=
    recoverNodes_stored agrees.nothingCreated agrees.placed built
  refine ⟨memory'', placed, rfl, ?_⟩
  apply List.rel_append
  · exact agrees.holds.imp fun _ _ holds => ⟨holds.valid, kept _ holds.stored, holds.entries⟩
  · exact List.Forall₂.cons ⟨valid, stored, entries⟩ List.Forall₂.nil

omit [DecidableEq Data] in
theorem updateTrees_agrees (agrees : Agrees info state maps memory) (update : Update Value Key) :
    ∃ state' memory', updateTrees allocator info update state = some state' ∧
      Agrees info state' (updateMaps info maps update) memory' := by
  cases update with
  | add index value =>
      have holds := agrees.at index
      obtain ⟨tree, factory', result, added⟩ :=
        add_internal_added (V := value) allocator holds.valid state.factory
      obtain ⟨memory', built⟩ := add_internal_builds allocator info agrees.placed holds.stored result
      have valid : Valid info tree := by
        refine ⟨added.balanced, ?_⟩
        rw [added.inOrder]
        exact increasing_insert holds.valid.increasing
      have entries : ∀ key, lookup info.KeyOfValue key tree.inOrder =
          Function.update (mapAt maps index) (info.KeyOfValue value) (some value) key := by
        intro key
        rw [added.inOrder, lookup_insert holds.valid.increasing, holds.entries,
          Function.update_apply]
      obtain ⟨memory'', whole⟩ := agrees.append built valid entries
      refine ⟨_, memory'', ?_, whole⟩
      rw [updateTrees, add, result]
      rfl
  | remove index key =>
      have holds := agrees.at index
      obtain ⟨tree, factory', result, removed⟩ :=
        remove_internal_removed (K := key) allocator holds.valid state.factory
      obtain ⟨memory', built⟩ :=
        remove_internal_builds allocator info agrees.placed holds.stored result
      have valid : Valid info tree := by
        refine ⟨removed.balanced, ?_⟩
        rw [removed.inOrder]
        exact increasing_remove holds.valid.increasing
      have entries : ∀ other, lookup info.KeyOfValue other tree.inOrder =
          Function.update (mapAt maps index) key none other := by
        intro other
        rw [removed.inOrder, lookup_remove, holds.entries, Function.update_apply]
      obtain ⟨memory'', whole⟩ := agrees.append built valid entries
      refine ⟨_, memory'', ?_, whole⟩
      rw [updateTrees, remove, result]
      rfl

omit [DecidableEq Data] in
theorem run_agrees (info : ImutInfo Value Key Data) (updates : List (Update Value Key)) :
    ∃ state memory, Runs.run (updateTrees allocator info) updates Trees.start = some state ∧
      Agrees info state (mapsAfter info updates) memory := by
  have start : Agrees info Trees.start [emptyMap] (fun _ => (none : Option (ImutAVLTree Value))) :=
    ⟨fun _ _ => rfl, rfl, List.Forall₂.cons holds_null List.Forall₂.nil⟩
  unfold mapsAfter
  generalize (Trees.start : Trees Value) = state at start ⊢
  generalize ([emptyMap] : Maps Value Key) = maps at start ⊢
  generalize (fun _ => (none : Option (ImutAVLTree Value))) = memory at start
  induction updates generalizing state maps memory with
  | nil => exact ⟨state, memory, rfl, start⟩
  | cons update updates ih =>
      obtain ⟨next, memory', stepped, agrees⟩ := updateTrees_agrees allocator start update
      obtain ⟨last, memory'', finished, whole⟩ := ih next _ _ agrees
      refine ⟨last, memory'', ?_, whole⟩
      rw [Runs.run_cons, stepped]
      exact finished

/-! ### Reading -/

omit [DecidableEq Data] in
theorem find_getValue {tree : ImutAVLTree Value}
    (increasing : Increasing info.KeyOfValue tree.inOrder) (key : Key) :
    (tree.find info key).getValue? = lookup info.KeyOfValue key tree.inOrder := by
  induction tree with
  | null => rfl
  | node address left value right height leftFound rightFound =>
      obtain ⟨leftIncreasing, rightIncreasing, _, _⟩ := increasing_split.mp increasing
      rw [inOrder, lookup_split key increasing, find]
      split
      · rfl
      split
      · exact leftFound leftIncreasing
      · exact rightFound rightIncreasing

theorem isSome_getValue (tree : ImutAVLTree Value) :
    tree.getValue?.isSome = !tree.isEmpty := by
  cases tree <;> rfl

omit [DecidableEq Data] in
theorem mem_inOrder_iff {tree : ImutAVLTree Value}
    (increasing : Increasing info.KeyOfValue tree.inOrder) (value : Value) :
    value ∈ tree.inOrder ↔
      lookup info.KeyOfValue (info.KeyOfValue value) tree.inOrder = some value := by
  constructor
  · intro member
    obtain ⟨before, behind, split⟩ := List.append_of_mem member
    rw [split] at increasing ⊢
    rw [lookup_split _ increasing, if_pos rfl]
  · exact List.mem_of_find?_eq_some

/-- Every tree that updates give is balanced and sorted and holds the entries that the same
updates give in a finite map; two of them compare equal exactly when they hold the same
entries. No assertion fails on the way. -/
theorem trees_hold_maps (info : ImutInfo Value Key Data) (updates : List (Update Value Key)) :
    ∃ state, Runs.run (updateTrees allocator info) updates Trees.start = some state ∧
      ∀ index,
        Balanced (state.at index) ∧
        Increasing info.KeyOfValue (state.at index).inOrder ∧
        (∀ key,
          ((state.at index).find info key).getValue? = mapAt (mapsAfter info updates) index key ∧
          (state.at index).contains info key =
            (mapAt (mapsAfter info updates) index key).isSome) ∧
        (∃ first, begin (state.at index) = some first ∧
          values (state.at index).inOrder.length first = some (state.at index).inOrder ∧
          ∀ value, value ∈ (state.at index).inOrder ↔
            mapAt (mapsAfter info updates) index (info.KeyOfValue value) = some value) ∧
        ∀ other, ∃ equal, isEqual info (state.at index) (state.at other) = some equal ∧
          rootsEqual info (state.at index) (state.at other) = some equal ∧
          (equal = true ↔ ∀ key,
            (mapAt (mapsAfter info updates) index key).map (shown info) =
              (mapAt (mapsAfter info updates) other key).map (shown info)) := by
  obtain ⟨state, memory, finished, agrees⟩ := run_agrees allocator info updates
  refine ⟨state, finished, ?_⟩
  intro index
  have holds := agrees.at index
  refine ⟨holds.valid.balanced, holds.valid.increasing, ?_, ?_, ?_⟩
  · intro key
    have found := find_getValue holds.valid.increasing key
    rw [holds.entries] at found
    refine ⟨found, ?_⟩
    rw [contains, ← isSome_getValue, found]
  · obtain ⟨first, started, read⟩ := values_begin (state.at index)
    refine ⟨first, started, read, ?_⟩
    intro value
    rw [mem_inOrder_iff holds.valid.increasing, holds.entries]
  · intro other
    have otherHolds := agrees.at other
    have determines : ∀ {left right : Value}, shown info left = shown info right →
        info.KeyOfValue left = info.KeyOfValue right := fun same => congrArg Prod.fst same
    have compared := isEqual_eq info holds.stored otherHolds.stored
    refine ⟨_, compared, (rootsEqual_eq info holds.stored otherHolds.stored).trans compared, ?_⟩
    rw [decide_eq_true_eq, map_eq_iff_lookup determines holds.valid.increasing
      otherHolds.valid.increasing]
    simp only [holds.entries, otherHolds.entries]

/-- Addresses counted upwards, as from memory that is never used again. -/
def countedAddresses : NodeAllocator where
  place := fun live => live.foldr max 0 + 1
  fresh := by
    intro live member
    have bounded : ∀ (live : List Nat) (address : Nat), address ∈ live →
        address ≤ live.foldr max 0 := by
      intro live address member
      induction live with
      | nil => cases member
      | cons first rest ih =>
          rw [List.foldr_cons]
          rcases List.mem_cons.mp member with rfl | later
          · exact Nat.le_max_left _ _
          · exact (ih later).trans (Nat.le_max_right _ _)
    exact Nat.not_succ_le_self _ (bounded live _ member)

/-- The same set by two orders of insertion and by a removal, with shared subtrees. -/
example :
    (Runs.run (updateTrees countedAddresses (⟨id, fun _ => ()⟩ : ImutInfo Nat Nat Unit))
      [.add 0 1, .add 1 2, .add 2 3, .add 3 4, .remove 4 1, .add 5 1]
      Trees.start).bind (fun state =>
        (isEqual ⟨id, fun _ => ()⟩ (state.at 4) (state.at 6)).bind fun same =>
          (isEqual ⟨id, fun _ => ()⟩ (state.at 5) (state.at 6)).map fun different =>
            (same, different)) = some (true, false) := by
  decide +kernel

end EvmBackend.ImutAVLFactory
