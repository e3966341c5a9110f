/-
Machine functions as the stack allocator of the -O2 pipeline receives them:
blocks in layout order, instructions with at most one definition, slot indexes,
use and definition lists, and the live intervals computed before the pass.

Slot indexes follow the layout. Live intervals are data of the function: the
allocator reads only their number of segments and their two end points.
-/

import EvmBackend.Library.Liveness

namespace EvmBackend

abbrev Register := Nat

inductive MachineOperand
  | reg (register : Register)
  | imm (value : Int)
  | cimm (value : Nat)
  | mbb (block : Nat)
  | global (symbol : Nat)
  deriving DecidableEq, Repr

/-- The allocator singles out one opcode; every other instruction is handled by
its operands alone. -/
inductive Opcode
  | pSTACKARG_r
  | inst (code : Nat)
  deriving DecidableEq, Repr

structure MachineInstr where
  opcode : Opcode
  defRegister : Option Register
  explicitUses : List MachineOperand
  deriving DecidableEq, Repr

def MachineOperand.register? : MachineOperand → Option Register
  | .reg register => some register
  | _ => none

def MachineInstr.useRegisters (instr : MachineInstr) : List Register :=
  instr.explicitUses.filterMap MachineOperand.register?

/-- A position in the slot index list: the list entry (block and entry within
it) and one of the four slots of that entry. -/
structure SlotIndex where
  block : Nat
  entry : Nat
  slot : Nat
  deriving DecidableEq, Repr

def SlotIndex.isEarlierInstr (left right : SlotIndex) : Bool :=
  left.block < right.block || (left.block == right.block && left.entry < right.entry)

def SlotIndex.lt (left right : SlotIndex) : Bool :=
  left.isEarlierInstr right ||
    (left.block == right.block && left.entry == right.entry && left.slot < right.slot)

def SlotIndex.getRegSlot (index : SlotIndex) : SlotIndex := { index with slot := 2 }

def SlotIndex.getBaseIndex (index : SlotIndex) : SlotIndex := { index with slot := 0 }

def SlotIndex.getBoundaryIndex (index : SlotIndex) : SlotIndex := { index with slot := 3 }

theorem SlotIndex.isEarlierInstr_iff {left right : SlotIndex} :
    left.isEarlierInstr right = true ↔
      left.block < right.block ∨ (left.block = right.block ∧ left.entry < right.entry) := by
  simp [SlotIndex.isEarlierInstr]

/-- A live interval is never without a segment: a definition nobody reads still
has its dead segment. -/
structure LiveInterval where
  segments : List (SlotIndex × SlotIndex)
  nonempty : segments ≠ []

def LiveInterval.beginIndex (interval : LiveInterval) : SlotIndex :=
  (interval.segments.head interval.nonempty).1

def LiveInterval.endIndex (interval : LiveInterval) : SlotIndex :=
  (interval.segments.getLast interval.nonempty).2

def LiveInterval.isLocal (interval : LiveInterval) (start finish : SlotIndex) : Bool :=
  start.getBaseIndex.lt interval.beginIndex && interval.endIndex.lt finish.getBoundaryIndex

structure MachineBasicBlock where
  instrs : List MachineInstr
  successors : List Nat
  predecessors : List Nat
  deriving DecidableEq, Repr

def blockInstrs (blocks : List MachineBasicBlock) (block : Nat) : List MachineInstr :=
  (blocks[block]?.map MachineBasicBlock.instrs).getD []

def blockSuccessors (blocks : List MachineBasicBlock) (block : Nat) : List Nat :=
  (blocks[block]?.map MachineBasicBlock.successors).getD []

def blockPredecessors (blocks : List MachineBasicBlock) (block : Nat) : List Nat :=
  (blocks[block]?.map MachineBasicBlock.predecessors).getD []

/-- Successor and predecessor lists describe the same edges between blocks of
the function. -/
def edgesAgree (blocks : List MachineBasicBlock) : Bool :=
  (List.range blocks.length).all fun block =>
    ((blockSuccessors blocks block).all fun later =>
      (blockPredecessors blocks later).contains block) &&
    ((blockPredecessors blocks block).all fun earlier =>
      (blockSuccessors blocks earlier).contains block)

/-- Virtual registers have nonzero numbers, so no definition writes register 0,
and a stack argument always has a definition. -/
def MachineInstr.definesProperly (instr : MachineInstr) : Bool :=
  instr.defRegister != some 0 && (instr.opcode != .pSTACKARG_r || instr.defRegister.isSome)

def definitionsNonzero (blocks : List MachineBasicBlock) : Bool :=
  blocks.all fun block => block.instrs.all MachineInstr.definesProperly

structure MachineFunction where
  blocks : List MachineBasicBlock
  getInterval : Register → LiveInterval
  hasEntry : blocks ≠ []
  edges : edgesAgree blocks = true
  nonzero : definitionsNonzero blocks = true

namespace MachineFunction

variable (F : MachineFunction)

def instrs (block : Nat) : List MachineInstr := blockInstrs F.blocks block

def successors (block : Nat) : List Nat := blockSuccessors F.blocks block

def predecessors (block : Nat) : List Nat := blockPredecessors F.blocks block

def getMBBStartIdx (block : Nat) : SlotIndex := ⟨block, 0, 0⟩

def getMBBEndIdx (block : Nat) : SlotIndex := ⟨block + 1, 0, 0⟩

end MachineFunction

structure InstrRef where
  block : Nat
  index : Nat
  instr : MachineInstr
  deriving DecidableEq, Repr

/-- Between an instruction and its neighbours there is an entry for what is
inserted before it and one for what is inserted after it. -/
def InstrRef.slotIndex (ref : InstrRef) : SlotIndex := ⟨ref.block, 3 * ref.index + 2, 0⟩

def InstrRef.slotBefore (ref : InstrRef) : SlotIndex := ⟨ref.block, 3 * ref.index + 1, 0⟩

def InstrRef.slotAfter (ref : InstrRef) : SlotIndex := ⟨ref.block, 3 * ref.index + 3, 0⟩

def MachineFunction.instrRefs (F : MachineFunction) (block : Nat) : List InstrRef :=
  (F.instrs block).zipIdx.map fun pair => ⟨block, pair.2, pair.1⟩

def MachineFunction.allRefs (F : MachineFunction) : List InstrRef :=
  (List.range F.blocks.length).flatMap F.instrRefs

/-- Use and definition operands of every register, with the position of the
instruction that holds them. -/
structure MachineRegisterInfo where
  uses : List (Register × SlotIndex)
  defs : List (Register × SlotIndex)
  deriving DecidableEq, Repr

namespace MachineRegisterInfo

variable (MRI : MachineRegisterInfo)

def useOperands (register : Register) : List SlotIndex :=
  (MRI.uses.filter fun operand => operand.1 = register).map Prod.snd

def defOperands (register : Register) : List SlotIndex :=
  (MRI.defs.filter fun operand => operand.1 = register).map Prod.snd

def hasOneUse (register : Register) : Bool := (MRI.useOperands register).length == 1

def hasOneDef (register : Register) : Bool := (MRI.defOperands register).length == 1

def useEmpty (register : Register) : Bool := (MRI.useOperands register).isEmpty

end MachineRegisterInfo

def MachineFunction.regInfo (F : MachineFunction) : MachineRegisterInfo where
  uses := F.allRefs.flatMap fun ref =>
    ref.instr.useRegisters.map fun register => (register, ref.slotIndex.getRegSlot)
  defs := F.allRefs.flatMap fun ref =>
    ref.instr.defRegister.toList.map fun register => (register, ref.slotIndex.getRegSlot)

/-- Liveness at the start of a block, by paths through the whole function. -/
abbrev MachineFunction.LiveIn (F : MachineFunction) (register : Register) (block : Nat) : Prop :=
  Liveness.LiveIn MachineInstr.useRegisters MachineInstr.defRegister F.instrs F.successors
    register block

/-- Liveness before the instructions of a block that remain to be executed. -/
abbrev MachineFunction.LiveBefore (F : MachineFunction) (register : Register) (block : Nat)
    (rest : List MachineInstr) : Prop :=
  Liveness.LiveBefore MachineInstr.useRegisters MachineInstr.defRegister F.instrs F.successors
    register block rest

variable {block : Nat} {ref : InstrRef}

namespace MachineFunction

variable {F : MachineFunction}

private theorem blockSuccessors_eq_nil {blocks : List MachineBasicBlock}
    (outside : blocks.length ≤ block) : blockSuccessors blocks block = [] := by
  simp [blockSuccessors, List.getElem?_eq_none outside]

private theorem blockPredecessors_eq_nil {blocks : List MachineBasicBlock}
    (outside : blocks.length ≤ block) : blockPredecessors blocks block = [] := by
  simp [blockPredecessors, List.getElem?_eq_none outside]

theorem mem_successors_iff {later : Nat} :
    later ∈ F.successors block ↔ block ∈ F.predecessors later := by
  have checked := F.edges
  simp only [edgesAgree, List.all_eq_true, List.mem_range, Bool.and_eq_true,
    List.contains_iff_mem] at checked
  constructor
  · intro edge
    by_cases inside : block < F.blocks.length
    · exact (checked block inside).1 later edge
    · unfold successors at edge
      rw [blockSuccessors_eq_nil (by omega)] at edge
      cases edge
  · intro edge
    by_cases inside : later < F.blocks.length
    · exact (checked later inside).2 block edge
    · unfold predecessors at edge
      rw [blockPredecessors_eq_nil (by omega)] at edge
      cases edge

theorem lt_of_mem_successors {later : Nat} (edge : later ∈ F.successors block) :
    block < F.blocks.length := by
  by_contra outside
  unfold successors at edge
  rw [blockSuccessors_eq_nil (by omega)] at edge
  cases edge

theorem mem_instrRefs :
    ref ∈ F.instrRefs block ↔
      ref.block = block ∧ (F.instrs block)[ref.index]? = some ref.instr := by
  unfold instrRefs
  rw [List.mem_map]
  constructor
  · rintro ⟨⟨instr, index⟩, member, rfl⟩
    exact ⟨rfl, List.mem_zipIdx_iff_getElem?.mp member⟩
  · rintro ⟨rfl, found⟩
    exact ⟨(ref.instr, ref.index), List.mem_zipIdx_iff_getElem?.mpr found, rfl⟩

theorem lt_of_mem_instrRefs (member : ref ∈ F.instrRefs block) : block < F.blocks.length := by
  by_contra outside
  have found := (mem_instrRefs.mp member).2
  have missing : F.blocks[block]? = none := List.getElem?_eq_none (by omega)
  simp [instrs, blockInstrs, missing] at found

theorem mem_allRefs : ref ∈ F.allRefs ↔ (F.instrs ref.block)[ref.index]? = some ref.instr := by
  unfold allRefs
  rw [List.mem_flatMap]
  constructor
  · rintro ⟨block, _, member⟩
    obtain ⟨rfl, found⟩ := mem_instrRefs.mp member
    exact found
  · intro found
    have member : ref ∈ F.instrRefs ref.block := mem_instrRefs.mpr ⟨rfl, found⟩
    exact ⟨ref.block, List.mem_range.mpr (lt_of_mem_instrRefs member), member⟩

theorem definesProperly_of_mem (member : ref ∈ F.allRefs) : ref.instr.definesProperly = true := by
  have found := mem_allRefs.mp member
  unfold instrs blockInstrs at found
  cases atBlock : F.blocks[ref.block]? with
  | none => simp [atBlock] at found
  | some block =>
      have checked := F.nonzero
      simp only [definitionsNonzero, List.all_eq_true] at checked
      have inBlock : block.instrs[ref.index]? = some ref.instr := by
        simpa [atBlock] using found
      exact checked block (List.mem_of_getElem? atBlock) ref.instr (List.mem_of_getElem? inBlock)

theorem mem_allRefs_of_mem_instrRefs (member : ref ∈ F.instrRefs block) : ref ∈ F.allRefs := by
  obtain ⟨rfl, found⟩ := mem_instrRefs.mp member
  exact mem_allRefs.mpr found

end MachineFunction

end EvmBackend
