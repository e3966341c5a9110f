/-
Memory for globals: the slots that instruction selection hands out to address
nodes as it meets them, and the two reserved cells behind the slots.

The map from nodes to slots and the slot count live as long as the module is
compiled. Slots are keyed by the node, not by the global, and one slot is 32
bytes whatever the size of the global. The cells are behind the slots handed
out so far, so their addresses depend on when a function reads them.
-/

import EvmBackend.FrameLayout

namespace EvmBackend

open List

open ByteMemory (Apart)

structure GlobalValue where
  name : Nat
  size : Nat
  isFunctionTy : Bool
  deriving DecidableEq, Repr

structure GlobalAddressSDNode where
  node : Nat
  global : GlobalValue
  deriving DecidableEq, Repr

structure EVMDAGToDAGISel where
  GlobalSlots : List (Nat × Nat)
  AllocatedGlobalSlots : Nat
  deriving DecidableEq, Repr

namespace EVMDAGToDAGISel

def fresh : EVMDAGToDAGISel := ⟨[], 0⟩

/-- The address pushed in place of the node; a function is left alone. -/
def SelectTargetGlobalAddress (reference : GlobalAddressSDNode) (pass : EVMDAGToDAGISel) :
    EVMDAGToDAGISel × Option Nat :=
  if reference.global.isFunctionTy then (pass, none)
  else
    match pass.GlobalSlots.lookup reference.node with
    | some offset => (pass, some offset)
    | none =>
        let offset := unsigned (pass.GlobalSlots.length * 32)
        let slots := pass.GlobalSlots ++ [(reference.node, offset)]
        (⟨slots, slots.length⟩, some offset)

def selectAll : List GlobalAddressSDNode → EVMDAGToDAGISel → EVMDAGToDAGISel × List (Option Nat)
  | [], pass => (pass, [])
  | first :: rest, pass =>
      let (next, address) := SelectTargetGlobalAddress first pass
      let (last, addresses) := selectAll rest next
      (last, address :: addresses)

def getFramePointer (pass : EVMDAGToDAGISel) : Nat := unsigned (pass.AllocatedGlobalSlots * 32)

def getStackPointer (pass : EVMDAGToDAGISel) : Nat := unsigned (pass.getFramePointer + 32)

end EVMDAGToDAGISel

def meet (seen : List Nat) (reference : GlobalAddressSDNode) : List Nat :=
  if reference.global.isFunctionTy ∨ reference.node ∈ seen then seen
  else seen ++ [reference.node]

def nodesMet (references : List GlobalAddressSDNode) : List Nat := references.foldl meet []

def metBefore (references : List GlobalAddressSDNode) (node : Nat) : Nat :=
  (nodesMet references).idxOf node

theorem meet_extends (seen : List Nat) (reference : GlobalAddressSDNode) :
    seen <+: meet seen reference := by
  unfold meet
  split
  · exact prefix_refl seen
  · exact prefix_append seen _

theorem foldl_meet_extends (references : List GlobalAddressSDNode) (seen : List Nat) :
    seen <+: references.foldl meet seen := by
  induction references generalizing seen with
  | nil => exact prefix_refl seen
  | cons first rest ih => exact (meet_extends seen first).trans (ih _)

variable {seen : List Nat} {reference : GlobalAddressSDNode} {pass : EVMDAGToDAGISel}

theorem meet_nodup (nodup : seen.Nodup) (reference : GlobalAddressSDNode) :
    (meet seen reference).Nodup := by
  unfold meet
  by_cases old : reference.global.isFunctionTy = true ∨ reference.node ∈ seen
  · rw [if_pos old]
    exact nodup
  · rw [if_neg old, nodup_append]
    refine ⟨nodup, by simp, fun left atLeft right atRight same => old (Or.inr ?_)⟩
    rw [← mem_singleton.mp atRight, ← same]
    exact atLeft

theorem foldl_meet_nodup (references : List GlobalAddressSDNode) (nodup : seen.Nodup) :
    (references.foldl meet seen).Nodup := by
  induction references generalizing seen with
  | nil => exact nodup
  | cons first rest ih => exact ih (meet_nodup nodup first)

theorem mem_meet {node : Nat} :
    node ∈ meet seen reference ↔
      node ∈ seen ∨ (reference.global.isFunctionTy = false ∧ node = reference.node) := by
  unfold meet
  cases reference.global.isFunctionTy with
  | true => simp
  | false =>
      by_cases old : reference.node ∈ seen
      · simp only [Bool.false_eq_true, false_or, old, if_true, true_and]
        exact ⟨Or.inl, fun either => either.elim id fun same => same ▸ old⟩
      · simp [old]

theorem mem_foldl_meet {references : List GlobalAddressSDNode} {node : Nat} :
    node ∈ references.foldl meet seen ↔
      node ∈ seen ∨ ∃ reference ∈ references,
        reference.global.isFunctionTy = false ∧ node = reference.node := by
  induction references generalizing seen with
  | nil => simp
  | cons first rest ih =>
      rw [foldl_cons, ih, mem_meet]
      simp only [mem_cons, exists_eq_or_imp, or_assoc]

namespace EVMDAGToDAGISel

/-- The pass has handed out the slots to the nodes in their order. -/
structure Holds (pass : EVMDAGToDAGISel) (seen : List Nat) : Prop where
  slots : pass.GlobalSlots = seen.zipIdx.map fun entry => (entry.1, unsigned (entry.2 * 32))
  count : pass.AllocatedGlobalSlots = seen.length

theorem Holds.lookup (holds : pass.Holds seen) (node : Nat) :
    pass.GlobalSlots.lookup node =
      if node ∈ seen then some (unsigned (seen.idxOf node * 32)) else none := by
  have from_ : ∀ (nodes : List Nat) (start : Nat),
      ((nodes.zipIdx start).map fun entry => (entry.1, unsigned (entry.2 * 32))).lookup node =
        if node ∈ nodes then some (unsigned ((start + nodes.idxOf node) * 32)) else none := by
    intro nodes
    induction nodes with
    | nil => intro start; rfl
    | cons first rest ih =>
        intro start
        rw [zipIdx_cons, map_cons, List.lookup_cons]
        by_cases same : node = first
        · simp [same]
        · have apart : (node == first) = false := beq_false_of_ne same
          have later : first ≠ node := fun equal => same equal.symm
          simp only [apart, ih, mem_cons, same, false_or, idxOf_cons_ne rest later]
          split
          · congr 3
            omega
          · rfl
  rw [holds.slots, from_ seen 0, Nat.zero_add]

theorem SelectTargetGlobalAddress_holds (holds : pass.Holds seen)
    (reference : GlobalAddressSDNode) :
    (SelectTargetGlobalAddress reference pass).1.Holds (meet seen reference) ∧
      (SelectTargetGlobalAddress reference pass).2 =
        if reference.global.isFunctionTy then none
        else some (unsigned ((meet seen reference).idxOf reference.node * 32)) := by
  unfold SelectTargetGlobalAddress meet
  cases typed : reference.global.isFunctionTy with
  | true =>
      simp only [if_true, true_or]
      exact ⟨holds, trivial⟩
  | false =>
      simp only [Bool.false_eq_true, false_or, if_false, holds.lookup reference.node]
      by_cases old : reference.node ∈ seen
      · simp only [old, if_true]
        exact ⟨holds, trivial⟩
      · simp only [old, if_false]
        have length : pass.GlobalSlots.length = seen.length := by
          rw [holds.slots]
          simp
        refine ⟨⟨?_, ?_⟩, ?_⟩
        · rw [length, holds.slots, zipIdx_append]
          simp
        · simp [length]
        · rw [length, idxOf_append_of_notMem old]
          simp

theorem selectAll_holds (holds : pass.Holds seen) (references : List GlobalAddressSDNode) :
    (selectAll references pass).1.Holds (references.foldl meet seen) ∧
      (selectAll references pass).2 = references.map fun reference =>
        if reference.global.isFunctionTy then none
        else some (unsigned ((references.foldl meet seen).idxOf reference.node * 32)) := by
  induction references generalizing pass seen with
  | nil => exact ⟨holds, rfl⟩
  | cons first rest ih =>
      obtain ⟨held, address⟩ := SelectTargetGlobalAddress_holds holds first
      obtain ⟨last, addresses⟩ := ih held
      refine ⟨last, ?_⟩
      rw [selectAll]
      simp only [map_cons, foldl_cons, addresses, address]
      congr 1
      cases typed : first.global.isFunctionTy with
      | true => rfl
      | false =>
          have met : first.node ∈ meet seen first := mem_meet.mpr (Or.inr ⟨typed, rfl⟩)
          obtain ⟨tail, extended⟩ := foldl_meet_extends rest (meet seen first)
          rw [← extended, idxOf_append_of_mem met]

theorem fresh_holds : fresh.Holds [] := ⟨rfl, rfl⟩

theorem selectAll_fresh (references : List GlobalAddressSDNode) :
    (selectAll references fresh).2 = references.map fun reference =>
      if reference.global.isFunctionTy then none
      else some (unsigned (metBefore references reference.node * 32)) :=
  (selectAll_holds fresh_holds references).2

end EVMDAGToDAGISel

/-! ### Storage of globals -/

def stored (references : List GlobalAddressSDNode) : List GlobalAddressSDNode :=
  references.filter fun reference => !reference.global.isFunctionTy

def handed (references : List GlobalAddressSDNode) : List (GlobalAddressSDNode × Nat) :=
  (references.zip (EVMDAGToDAGISel.selectAll references EVMDAGToDAGISel.fresh).2).filterMap
    fun pair => pair.2.map (pair.1, ·)

theorem mem_handed {references : List GlobalAddressSDNode} {address : Nat} :
    (reference, address) ∈ handed references ↔
      reference ∈ stored references ∧
        address = unsigned (metBefore references reference.node * 32) := by
  rw [handed, EVMDAGToDAGISel.selectAll_fresh, ← map_prod_left_eq_zip, filterMap_map,
    mem_filterMap, stored, mem_filter]
  constructor
  · rintro ⟨other, member, given⟩
    cases typed : other.global.isFunctionTy with
    | true => simp [typed] at given
    | false =>
        simp only [Function.comp_apply, typed, Bool.false_eq_true, if_false, Option.map_some,
          Option.some.injEq, Prod.mk.injEq] at given
        obtain ⟨rfl, rfl⟩ := given
        exact ⟨⟨member, by simp [typed]⟩, rfl⟩
  · rintro ⟨⟨member, typed⟩, rfl⟩
    refine ⟨reference, member, ?_⟩
    simp only [Bool.not_eq_true'] at typed
    simp [typed]

theorem mem_nodesMet {references : List GlobalAddressSDNode}
    (member : reference ∈ stored references) : reference.node ∈ nodesMet references := by
  obtain ⟨listed, typed⟩ := mem_filter.mp member
  apply mem_foldl_meet.mpr
  exact Or.inr ⟨reference, listed, by simpa using typed, rfl⟩

theorem metBefore_lt {references : List GlobalAddressSDNode}
    (member : reference ∈ stored references) :
    metBefore references reference.node < (nodesMet references).length :=
  idxOf_lt_length_of_mem (mem_nodesMet member)

/-- Two references to one global have one address, and references to two globals
have addresses whose full sizes do not overlap. -/
def StorageKept (references : List GlobalAddressSDNode) : Prop :=
  ∀ left ∈ handed references, ∀ right ∈ handed references,
    (left.1.global = right.1.global → left.2 = right.2) ∧
    (left.1.global ≠ right.1.global →
      Apart left.2 left.1.global.size right.2 right.1.global.size)

/-- References to one global are one node; references to two globals that are
not empty are two nodes, and the one met first fits into the slots up to the
other. -/
structure NodesFollowGlobals (references : List GlobalAddressSDNode) : Prop where
  oneNode : ∀ left ∈ stored references, ∀ right ∈ stored references,
    left.global = right.global → left.node = right.node
  otherNode : ∀ left ∈ stored references, ∀ right ∈ stored references,
    left.global ≠ right.global → left.global.size ≠ 0 → right.global.size ≠ 0 →
      left.node ≠ right.node
  fitsBetween : ∀ left ∈ stored references, ∀ right ∈ stored references,
    left.global ≠ right.global → left.global.size ≠ 0 → right.global.size ≠ 0 →
      metBefore references left.node < metBefore references right.node →
        left.global.size ≤ 32 * (metBefore references right.node - metBefore references left.node)

section Storage

variable {references : List GlobalAddressSDNode}

theorem address_eq (fits : (nodesMet references).length ≤ 2 ^ 27)
    (member : reference ∈ stored references) :
    unsigned (metBefore references reference.node * 32) =
      metBefore references reference.node * 32 := by
  have below := metBefore_lt member
  exact Nat.mod_eq_of_lt (by omega)

theorem node_eq_of_metBefore_eq {left right : GlobalAddressSDNode}
    (member : left ∈ stored references)
    (same : metBefore references left.node = metBefore references right.node) :
    left.node = right.node :=
  (idxOf_inj (mem_nodesMet member)).mp same

theorem StorageKept.nodesFollowGlobals (fits : (nodesMet references).length ≤ 2 ^ 27)
    (kept : StorageKept references) : NodesFollowGlobals references := by
  have given : ∀ reference ∈ stored references,
      (reference, metBefore references reference.node * 32) ∈ handed references :=
    fun reference member => mem_handed.mpr ⟨member, (address_eq fits member).symm⟩
  have pair := fun left atLeft right atRight =>
    kept (left, _) (given left atLeft) (right, _) (given right atRight)
  constructor
  · intro left atLeft right atRight same
    have equal := (pair left atLeft right atRight).1 same
    exact node_eq_of_metBefore_eq atLeft (by omega)
  · intro left atLeft right atRight different leftSize rightSize same
    have apart := (pair left atLeft right atRight).2 different
    simp only [Apart, same] at apart
    omega
  · intro left atLeft right atRight different leftSize rightSize before
    have apart := (pair left atLeft right atRight).2 different
    simp only [Apart] at apart
    omega

theorem NodesFollowGlobals.apart (follows : NodesFollowGlobals references)
    {left right : GlobalAddressSDNode} (atLeft : left ∈ stored references)
    (atRight : right ∈ stored references) (different : left.global ≠ right.global) :
    Apart (metBefore references left.node * 32) left.global.size
      (metBefore references right.node * 32) right.global.size := by
  by_cases leftSize : left.global.size = 0
  · exact Or.inl leftSize
  · by_cases rightSize : right.global.size = 0
    · exact Or.inr (Or.inl rightSize)
    · have distinct : metBefore references left.node ≠ metBefore references right.node :=
        fun equal => follows.otherNode left atLeft right atRight different leftSize rightSize
          (node_eq_of_metBefore_eq atLeft equal)
      have ahead := follows.fitsBetween left atLeft right atRight different leftSize rightSize
      have behind := follows.fitsBetween right atRight left atLeft different.symm rightSize leftSize
      unfold Apart
      omega

theorem NodesFollowGlobals.storageKept (fits : (nodesMet references).length ≤ 2 ^ 27)
    (follows : NodesFollowGlobals references) : StorageKept references := by
  rintro ⟨left, _⟩ atLeft ⟨right, _⟩ atRight
  obtain ⟨leftStored, rfl⟩ := mem_handed.mp atLeft
  obtain ⟨rightStored, rfl⟩ := mem_handed.mp atRight
  simp only [address_eq fits leftStored, address_eq fits rightStored]
  constructor
  · intro same
    rw [follows.oneNode left leftStored right rightStored same]
  · intro different
    exact follows.apart leftStored rightStored different

end Storage

/-- With addresses that fit 32 bits, storage is a function of the global exactly
when the nodes follow the globals. -/
theorem storageKept_iff_nodesFollowGlobals (references : List GlobalAddressSDNode)
    (fits : (nodesMet references).length ≤ 2 ^ 27) :
    StorageKept references ↔ NodesFollowGlobals references :=
  ⟨fun kept => kept.nodesFollowGlobals fits, fun follows => follows.storageKept fits⟩

def twoGlobals (size other : Nat) : List GlobalAddressSDNode :=
  [⟨1, ⟨1, size, false⟩⟩, ⟨2, ⟨2, other, false⟩⟩]

/-- Two globals of one word each have storage of their own. -/
theorem storageKept_twoGlobals : StorageKept (twoGlobals 32 32) := by
  apply (storageKept_iff_nodesFollowGlobals (twoGlobals 32 32) (by decide)).mpr
  constructor <;> decide

/-- A global of two words reaches into the slot of the next one. -/
theorem twoGlobals_overlap : ¬ StorageKept (twoGlobals 64 32) := by
  intro kept
  have apart := (kept (⟨1, ⟨1, 64, false⟩⟩, 0) (by decide) (⟨2, ⟨2, 32, false⟩⟩, 32)
    (by decide)).2 (by decide)
  revert apart
  decide

/-! ### The reserved cells -/

/-- A function with its references in the order of selection, and whether its
code accesses the reserved cells. -/
structure ModuleFunction where
  references : List GlobalAddressSDNode
  usesCells : Bool
  deriving DecidableEq, Repr

structure CompiledCells where
  usesCells : Bool
  framePointer : Nat
  stackPointer : Nat
  addresses : List (Option Nat)
  deriving DecidableEq, Repr

/-- Functions go through the pipeline one after the other; the passes that read
the cell addresses run behind the selection of the same function. -/
def compile : List ModuleFunction → EVMDAGToDAGISel → List CompiledCells
  | [], _ => []
  | function :: rest, pass =>
      let (selected, addresses) := EVMDAGToDAGISel.selectAll function.references pass
      ⟨function.usesCells, selected.getFramePointer, selected.getStackPointer, addresses⟩ ::
        compile rest selected

/-- The functions that access the cells agree on where they are, and no slot
handed out anywhere in the module covers them. -/
structure CellsReserved (compiled : List CompiledCells) : Prop where
  agree : ∀ left ∈ compiled, ∀ right ∈ compiled, left.usesCells = true → right.usesCells = true →
    left.framePointer = right.framePointer ∧ left.stackPointer = right.stackPointer
  free : ∀ user ∈ compiled, user.usesCells = true →
    ∀ other ∈ compiled, ∀ address, some address ∈ other.addresses →
      ¬ (address ≤ user.framePointer ∧ user.framePointer < address + 32) ∧
      ¬ (address ≤ user.stackPointer ∧ user.stackPointer < address + 32)

def allReferences (functions : List ModuleFunction) : List GlobalAddressSDNode :=
  functions.flatMap ModuleFunction.references

def slotCount (functions : List ModuleFunction) : Nat :=
  (nodesMet (allReferences functions)).length

def cellsOf (before : List ModuleFunction) (function : ModuleFunction) : CompiledCells where
  usesCells := function.usesCells
  framePointer := unsigned (slotCount (before ++ [function]) * 32)
  stackPointer := unsigned (unsigned (slotCount (before ++ [function]) * 32) + 32)
  addresses := function.references.map fun reference =>
    if reference.global.isFunctionTy then none
    else some (unsigned (metBefore (allReferences (before ++ [function])) reference.node * 32))

theorem nodesMet_append (left right : List GlobalAddressSDNode) :
    nodesMet (left ++ right) = right.foldl meet (nodesMet left) :=
  foldl_append

theorem mem_compile {functions earlier : List ModuleFunction}
    (holds : pass.Holds (nodesMet (allReferences earlier))) {entry : CompiledCells} :
    entry ∈ compile functions pass ↔
      ∃ before function after, functions = before ++ function :: after ∧
        entry = cellsOf (earlier ++ before) function := by
  induction functions generalizing earlier pass with
  | nil => simp [compile]
  | cons first rest ih =>
      have references : allReferences (earlier ++ [first]) =
          allReferences earlier ++ first.references := by
        simp [allReferences]
      have met : nodesMet (allReferences (earlier ++ [first])) =
          first.references.foldl meet (nodesMet (allReferences earlier)) := by
        rw [references, nodesMet_append]
      obtain ⟨selected, addresses⟩ := EVMDAGToDAGISel.selectAll_holds holds first.references
      rw [← met] at selected
      have here : CompiledCells.mk first.usesCells
          (EVMDAGToDAGISel.selectAll first.references pass).1.getFramePointer
          (EVMDAGToDAGISel.selectAll first.references pass).1.getStackPointer
          (EVMDAGToDAGISel.selectAll first.references pass).2 = cellsOf earlier first := by
        rw [cellsOf, EVMDAGToDAGISel.getStackPointer, EVMDAGToDAGISel.getFramePointer,
          selected.count, addresses, ← met]
        rfl
      rw [compile]
      simp only [mem_cons, here, ih selected]
      constructor
      · rintro (rfl | ⟨before, function, after, rfl, rfl⟩)
        · exact ⟨[], first, rest, rfl, by rw [append_nil]⟩
        · exact ⟨first :: before, function, after, rfl, by simp⟩
      · rintro ⟨before, function, after, split, rfl⟩
        cases before with
        | nil =>
            cases split
            exact Or.inl (by rw [append_nil])
        | cons head tail =>
            cases split
            exact Or.inr ⟨tail, function, after, rfl, by simp⟩

theorem mem_compile_fresh {functions : List ModuleFunction} {entry : CompiledCells} :
    entry ∈ compile functions EVMDAGToDAGISel.fresh ↔
      ∃ before function after, functions = before ++ function :: after ∧
        entry = cellsOf before function := by
  have start : EVMDAGToDAGISel.fresh.Holds (nodesMet (allReferences [])) :=
    EVMDAGToDAGISel.fresh_holds
  exact mem_compile start

theorem nodesMet_extends (before : List ModuleFunction) (after : List ModuleFunction) :
    nodesMet (allReferences before) <+: nodesMet (allReferences (before ++ after)) := by
  rw [allReferences, allReferences, flatMap_append, nodesMet_append]
  exact foldl_meet_extends _ _

theorem nodesMet_of_references {before : List ModuleFunction} {function : ModuleFunction}
    (refers : reference ∈ function.references) (typed : reference.global.isFunctionTy = false) :
    reference.node ∈ nodesMet (allReferences (before ++ [function])) := by
  apply mem_foldl_meet.mpr
  refine Or.inr ⟨reference, ?_, typed, rfl⟩
  simp [allReferences, refers]

theorem address_iff_lt_slotCount {functions : List ModuleFunction} {address : Nat} :
    (∃ other ∈ compile functions EVMDAGToDAGISel.fresh, some address ∈ other.addresses) ↔
      ∃ slot < slotCount functions, address = unsigned (slot * 32) := by
  constructor
  · rintro ⟨other, compiled, given⟩
    obtain ⟨before, function, after, rfl, rfl⟩ := mem_compile_fresh.mp compiled
    obtain ⟨reference, member, same⟩ := List.mem_map.mp given
    cases typed : reference.global.isFunctionTy with
    | true => simp [typed] at same
    | false =>
        simp only [typed, Bool.false_eq_true, if_false, Option.some.injEq] at same
        have met : reference.node ∈ nodesMet (allReferences (before ++ [function])) :=
          nodesMet_of_references member typed
        have extended := nodesMet_extends (before ++ [function]) after
        rw [List.append_assoc, singleton_append] at extended
        refine ⟨_, ?_, same.symm⟩
        exact Nat.lt_of_lt_of_le (idxOf_lt_length_of_mem met) extended.length_le
  · rintro ⟨slot, below, rfl⟩
    have nodup : (nodesMet (allReferences functions)).Nodup :=
      foldl_meet_nodup _ nodup_nil
    have member := getElem_mem below
    have index := nodup.idxOf_getElem slot below
    rcases mem_foldl_meet.mp member with absent | ⟨reference, referred, typed, node⟩
    · cases absent
    · obtain ⟨function, among, refers⟩ := mem_flatMap.mp referred
      obtain ⟨before, after, rfl⟩ := append_of_mem among
      refine ⟨cellsOf before function, mem_compile_fresh.mpr ⟨before, function, after, rfl, rfl⟩, ?_⟩
      apply List.mem_map.mpr
      refine ⟨reference, refers, ?_⟩
      have met : reference.node ∈ nodesMet (allReferences (before ++ [function])) :=
        nodesMet_of_references refers typed
      obtain ⟨tail, extended⟩ := nodesMet_extends (before ++ [function]) after
      rw [List.append_assoc, singleton_append] at extended
      have place : metBefore (allReferences (before ++ [function])) reference.node = slot := by
        rw [metBefore, ← idxOf_append_of_mem met, extended, ← node]
        exact index
      simp [typed, place]

theorem foldl_meet_of_met {references : List GlobalAddressSDNode}
    (known : ∀ reference ∈ stored references, reference.node ∈ seen) :
    references.foldl meet seen = seen := by
  induction references with
  | nil => rfl
  | cons first rest ih =>
      have still : meet seen first = seen := by
        apply if_pos
        cases typed : first.global.isFunctionTy with
        | true => exact Or.inl rfl
        | false => exact Or.inr (known first (by simp [stored, typed]))
      rw [foldl_cons, still]
      apply ih
      intro reference member
      apply known
      obtain ⟨listed, typed⟩ := mem_filter.mp member
      exact mem_filter.mpr ⟨mem_cons_of_mem first listed, typed⟩

theorem slotCount_eq_iff (before after : List ModuleFunction) :
    slotCount (before ++ after) = slotCount before ↔
      ∀ reference ∈ stored (allReferences after),
        reference.node ∈ nodesMet (allReferences before) := by
  have extended := nodesMet_extends before after
  constructor
  · intro same reference member
    have all : nodesMet (allReferences before) = nodesMet (allReferences (before ++ after)) :=
      extended.eq_of_length same.symm
    obtain ⟨listed, typed⟩ := mem_filter.mp member
    rw [all]
    apply mem_foldl_meet.mpr
    refine Or.inr ⟨reference, ?_, by simpa using typed, rfl⟩
    rw [allReferences, flatMap_append]
    exact mem_append_right _ listed
  · intro old
    unfold slotCount
    rw [allReferences, flatMap_append, nodesMet_append]
    exact congrArg List.length (foldl_meet_of_met old)

theorem last_of_uncovered {count total : Nat} (most : count ≤ total)
    (free : ∀ slot < total,
      ¬ (unsigned (slot * 32) ≤ unsigned (count * 32) ∧
        unsigned (count * 32) < unsigned (slot * 32) + 32) ∧
      ¬ (unsigned (slot * 32) ≤ unsigned (unsigned (count * 32) + 32) ∧
        unsigned (unsigned (count * 32) + 32) < unsigned (slot * 32) + 32)) :
    count = total ∧ total + 1 < 2 ^ 27 := by
  have last : count = total := by
    by_contra more
    have covered := (free count (by omega)).1
    omega
  rw [last] at free
  refine ⟨last, ?_⟩
  by_contra large
  by_cases wraps : 2 ^ 27 ≤ total
  · -- the slot with the same address modulo 2^32 has been handed out
    have covered := (free (total % 2 ^ 27) (by omega)).1
    unfold unsigned at covered
    omega
  · -- the stack-pointer cell wraps to address 0
    have covered := (free 0 (by omega)).2
    unfold unsigned at covered
    omega

section Cells

variable {functions before after : List ModuleFunction} {function : ModuleFunction}

private theorem regroup (before after : List ModuleFunction) (function : ModuleFunction) :
    before ++ function :: after = before ++ [function] ++ after := by
  simp

theorem CellsReserved.no_later_slot
    (reserved : CellsReserved (compile functions EVMDAGToDAGISel.fresh))
    (split : functions = before ++ function :: after) (uses : function.usesCells = true) :
    (∀ reference ∈ stored (allReferences after),
      reference.node ∈ nodesMet (allReferences (before ++ [function]))) ∧
    slotCount functions + 1 < 2 ^ 27 := by
  have most : slotCount (before ++ [function]) ≤ slotCount functions := by
    rw [split, regroup before after function]
    exact (nodesMet_extends _ after).length_le
  obtain ⟨last, small⟩ := last_of_uncovered most (fun slot below => by
    obtain ⟨other, compiled, given⟩ := address_iff_lt_slotCount.mpr ⟨slot, below, rfl⟩
    exact reserved.free (cellsOf before function)
      (mem_compile_fresh.mpr ⟨before, function, after, split, rfl⟩) uses other compiled _ given)
  refine ⟨(slotCount_eq_iff (before ++ [function]) after).mp ?_, small⟩
  rw [← regroup before after function, ← split, last]

theorem cellsOf_eq (split : functions = before ++ function :: after)
    (old : ∀ reference ∈ stored (allReferences after),
      reference.node ∈ nodesMet (allReferences (before ++ [function])))
    (small : slotCount functions + 1 < 2 ^ 27) :
    (cellsOf before function).framePointer = slotCount functions * 32 ∧
      (cellsOf before function).stackPointer = slotCount functions * 32 + 32 := by
  have last : slotCount functions = slotCount (before ++ [function]) := by
    rw [split, regroup before after function]
    exact (slotCount_eq_iff _ _).mpr old
  simp only [cellsOf, ← last, unsigned]
  omega

end Cells

/-- Functions agree on cells that no global covers exactly when no slot is
handed out behind the first function that accesses the cells, and the cells lie
within 32-bit addresses. -/
theorem cellsReserved_iff_no_later_slot (functions : List ModuleFunction) :
    CellsReserved (compile functions EVMDAGToDAGISel.fresh) ↔
      ∀ before function after, functions = before ++ function :: after →
        function.usesCells = true →
          (∀ reference ∈ stored (allReferences after),
            reference.node ∈ nodesMet (allReferences (before ++ [function]))) ∧
          slotCount functions + 1 < 2 ^ 27 := by
  constructor
  · intro reserved before function after split uses
    exact reserved.no_later_slot split uses
  · intro condition
    have cells : ∀ user ∈ compile functions EVMDAGToDAGISel.fresh, user.usesCells = true →
        (user.framePointer = slotCount functions * 32 ∧
          user.stackPointer = slotCount functions * 32 + 32) ∧ slotCount functions + 1 < 2 ^ 27 := by
      intro user compiled uses
      obtain ⟨before, function, after, split, rfl⟩ := mem_compile_fresh.mp compiled
      obtain ⟨old, small⟩ := condition before function after split uses
      exact ⟨cellsOf_eq split old small, small⟩
    constructor
    · intro left atLeft right atRight leftUses rightUses
      have leftCells := cells left atLeft leftUses
      have rightCells := cells right atRight rightUses
      omega
    · intro user compiled uses other also address given
      obtain ⟨slot, below, rfl⟩ := address_iff_lt_slotCount.mp ⟨other, also, given⟩
      have placed := cells user compiled uses
      unfold unsigned
      omega

/-- A function without globals, then one that refers to a global. -/
def lateGlobal : List ModuleFunction :=
  [⟨[], true⟩, ⟨[⟨1, ⟨1, 32, false⟩⟩], true⟩]

/-- The first function has its frame-pointer cell at 0, where the global is; the
second one has it at 32. -/
theorem lateGlobal_cells_disagree :
    compile lateGlobal EVMDAGToDAGISel.fresh = [⟨true, 0, 32, []⟩, ⟨true, 32, 64, [some 0]⟩] ∧
      ¬ CellsReserved (compile lateGlobal EVMDAGToDAGISel.fresh) := by
  have compiled : compile lateGlobal EVMDAGToDAGISel.fresh =
      [⟨true, 0, 32, []⟩, ⟨true, 32, 64, [some 0]⟩] := by decide
  refine ⟨compiled, fun reserved => ?_⟩
  have same := (reserved.agree ⟨true, 0, 32, []⟩ (by rw [compiled]; simp)
    ⟨true, 32, 64, [some 0]⟩ (by rw [compiled]; simp) rfl rfl).1
  cases same

end EvmBackend
