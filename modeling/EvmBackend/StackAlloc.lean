/-
The stack allocator of the -O2 pipeline: it walks the blocks in layout order,
keeps a symbolic operand stack and a map from local slots to registers, and
inserts stack manipulation and local accesses around each instruction.

Assertions are compiled out, as in a release build. A result is missing where
the source reaches unreachable code or reads outside a vector. The set of
transferred registers is left out: its only readers are assertions and code
nothing calls, since no definition is ever sent to the transfer region.
-/

import EvmBackend.EdgeSets
import EvmBackend.Library.Stacks
import Mathlib.Data.List.DropRight
import Mathlib.Logic.Function.Basic

namespace EvmBackend

inductive StackRegion
  | NONSTACK
  | X_STACK
  | L_STACK
  | NO_ALLOCATION
  deriving DecidableEq, Repr

structure StackAssignment where
  region : StackRegion
  slot : Nat
  deriving DecidableEq, Repr

/-- What the allocator leaves in a block: the instructions it found there and
the ones it inserted. -/
inductive OutInstr
  | original (ref : InstrRef)
  | pGETLOCAL_r (register : Register) (slot : Nat)
  | pPUTLOCAL_r (register : Register) (slot : Nat)
  | DUP_r (index : Nat)
  | SWAP_r (index : Nat)
  | POP_r
  deriving DecidableEq, Repr

/-- A register use: whether it is the last one, whether it is in memory, and
its depth on the stack or its slot. -/
structure RegUseType where
  isLastUse : Bool
  isMemUse : Bool
  stackDepth : Nat
  reg : Register
  deriving DecidableEq, Repr

/-- The pass object together with the function info and operand lists it
updates. The code of the block being analysed is split at the current
instruction: `before` it, `between` it and what was inserted right after it,
and `after` it. Entry 0 of `memoryAssignment` is slot 0; register 0 is a free
slot. -/
structure EVMStackAlloc where
  edgeSets : EdgeSets
  regAssignments : Register → Option StackAssignment
  stack : List Register
  memoryAssignment : List Register
  edgeset2assignment : Nat → Option (List Register × List Register)
  memoryFrameSize : Nat
  MRI : MachineRegisterInfo
  before : List OutInstr
  between : List OutInstr
  after : List OutInstr
  emitted : List (List OutInstr)

namespace EVMStackAlloc

def lookup (st : EVMStackAlloc) (reg : Register) : StackAssignment :=
  (st.regAssignments reg).getD ⟨.NONSTACK, 0⟩

/-- Insertion into the map keeps an entry that is already there. -/
def insertAssignment (reg : Register) (assignment : StackAssignment) (st : EVMStackAlloc) :
    EVMStackAlloc :=
  match st.regAssignments reg with
  | some _ => st
  | none => { st with regAssignments := Function.update st.regAssignments reg (some assignment) }

def updateMemoryFrameSize (size : Nat) (st : EVMStackAlloc) : EVMStackAlloc :=
  { st with memoryFrameSize := if st.memoryFrameSize > size then st.memoryFrameSize else size }

/-- The scan stops at the first empty entry. Index 0 also means that none was
found, so an empty entry 0 is filled and the register is appended as well. -/
def allocateMemorySlot (reg : Register) (st : EVMStackAlloc) : EVMStackAlloc × Nat :=
  let found := st.memoryAssignment.findIdx? (· == 0)
  let slot := found.getD 0
  let filled := match found with
    | some index => st.memoryAssignment.set index reg
    | none => st.memoryAssignment
  if slot = 0 then
    let pushed := filled ++ [reg]
    (updateMemoryFrameSize pushed.length { st with memoryAssignment := pushed }, pushed.length - 1)
  else
    ({ st with memoryAssignment := filled }, slot)

/-- Free the first entry of the register and drop the empty entries at the end. -/
def deallocateMemorySlot (reg : Register) (slots : List Register) : Option (List Register) :=
  (slots.findIdx? (· == reg)).map fun index => (slots.set index 0).rdropWhile (· == 0)

def rangeContainsRegUses (MRI : MachineRegisterInfo) (reg : Register)
    (beginSlot endSlot : SlotIndex) : Bool :=
  (MRI.useOperands reg).any fun useSlot =>
    beginSlot.isEarlierInstr useSlot && useSlot.isEarlierInstr endSlot

def sucessorsContainRegUses (F : MachineFunction) (MRI : MachineRegisterInfo) (reg : Register)
    (block : Nat) : Bool :=
  (MRI.useOperands reg).any fun useSlot =>
    (F.successors block).any fun later =>
      (MachineFunction.getMBBStartIdx later).isEarlierInstr useSlot

def regIsDeadAtBeginningOfMBB (F : MachineFunction) (MRI : MachineRegisterInfo) (reg : Register)
    (block : Nat) : Bool :=
  if rangeContainsRegUses MRI reg (MachineFunction.getMBBStartIdx block)
      (MachineFunction.getMBBEndIdx block) then false
  else if sucessorsContainRegUses F MRI reg block then false
  else true

def regIsLastUse (F : MachineFunction) (MRI : MachineRegisterInfo) (ref : InstrRef)
    (reg : Register) : Bool :=
  if MRI.hasOneUse reg then true
  else if rangeContainsRegUses MRI reg ref.slotIndex.getRegSlot
      (MachineFunction.getMBBEndIdx (F.blocks.length - 1)) then false
  else true

def defIsLocal (F : MachineFunction) (ref : InstrRef) (defReg : Register) : Bool :=
  let interval := F.getInterval defReg
  if interval.segments.length > 1 then false
  else interval.isLocal (MachineFunction.getMBBStartIdx ref.block)
    (MachineFunction.getMBBEndIdx ref.block)

def findRegDepth (reg : Register) (st : EVMStackAlloc) : Option Nat :=
  Stacks.depthOf reg st.stack

def pop (st : EVMStackAlloc) : Option EVMStackAlloc :=
  match st.stack with
  | [] => none
  | _ :: rest => some { st with stack := rest }

def insertLoadFromMemoryBefore (reg : Register) (ref : InstrRef) (memSlot : Nat)
    (st : EVMStackAlloc) : EVMStackAlloc :=
  { st with
    before := st.before ++ [.pGETLOCAL_r reg memSlot]
    MRI := { st.MRI with defs := st.MRI.defs ++ [(reg, ref.slotBefore.getRegSlot)] }
    stack := reg :: st.stack }

def insertDupBefore (index : Nat) (st : EVMStackAlloc) : Option EVMStackAlloc :=
  (Stacks.dupTop (index - 1) st.stack).map fun stack =>
    { st with before := st.before ++ [.DUP_r index], stack := stack }

def insertStoreToMemoryAfter (reg : Register) (ref : InstrRef) (memSlot : Nat)
    (st : EVMStackAlloc) : EVMStackAlloc :=
  { st with
    after := .pPUTLOCAL_r reg memSlot :: st.after
    MRI := { st.MRI with uses := st.MRI.uses ++ [(reg, ref.slotAfter.getRegSlot)] } }

def insertStoreToMemoryBefore (reg : Register) (ref : InstrRef) (memSlot : Nat)
    (st : EVMStackAlloc) : EVMStackAlloc :=
  { st with
    before := st.before ++ [.pPUTLOCAL_r reg memSlot]
    MRI := { st.MRI with uses := st.MRI.uses ++ [(reg, ref.slotBefore.getRegSlot)] } }

def insertPopAfter (st : EVMStackAlloc) : Option EVMStackAlloc :=
  pop { st with after := .POP_r :: st.after }

def insertPopBefore (st : EVMStackAlloc) : Option EVMStackAlloc :=
  pop { st with before := st.before ++ [.POP_r] }

def insertSwapAfter (index : Nat) (st : EVMStackAlloc) : Option EVMStackAlloc :=
  (Stacks.swapTop index st.stack).map fun stack =>
    { st with after := .SWAP_r index :: st.after, stack := stack }

def insertSwapBefore (index : Nat) (st : EVMStackAlloc) : Option EVMStackAlloc :=
  (Stacks.swapTop index st.stack).map fun stack =>
    { st with before := st.before ++ [.SWAP_r index], stack := stack }

/-- Insertion before the instruction that followed the current one: after the
current instruction, ahead of what was already inserted there. -/
def insertPopPoint (st : EVMStackAlloc) : Option EVMStackAlloc :=
  pop { st with between := st.between ++ [.POP_r] }

def insertSwapPoint (index : Nat) (st : EVMStackAlloc) : Option EVMStackAlloc :=
  (Stacks.swapTop index st.stack).map fun stack =>
    { st with between := st.between ++ [.SWAP_r index], stack := stack }

def SwapRegToTop (reg : Register) (st : EVMStackAlloc) : Option EVMStackAlloc := do
  let depth ← st.findRegDepth reg
  if depth ≠ 0 then insertSwapBefore depth st else some st

def DupRegToTop (reg : Register) (st : EVMStackAlloc) : Option EVMStackAlloc := do
  let depth ← st.findRegDepth reg
  insertDupBefore (depth + 1) st

/-! ### Uses -/

def calculateUse (F : MachineFunction) (ref : InstrRef) (st : EVMStackAlloc) (useReg : Register) :
    Option RegUseType :=
  let SA := st.lookup useReg
  let isLastUse := regIsLastUse F st.MRI ref useReg
  if SA.region = .NONSTACK then
    some ⟨isLastUse, true, SA.slot, useReg⟩
  else
    (st.findRegDepth useReg).map fun depth => ⟨isLastUse, false, depth, useReg⟩

def calculateUseRegs (F : MachineFunction) (ref : InstrRef) (st : EVMStackAlloc) :
    Option (List RegUseType) :=
  ref.instr.useRegisters.mapM (calculateUse F ref st)

def handleUnaryOpcode (F : MachineFunction) (ref : InstrRef) (reg : Register)
    (st : EVMStackAlloc) : Option EVMStackAlloc :=
  let SA := st.lookup reg
  if SA.region = .NONSTACK then
    some (insertLoadFromMemoryBefore reg ref SA.slot st)
  else do
    let depth ← st.findRegDepth reg
    if regIsLastUse F st.MRI ref reg then
      if depth ≠ 0 then insertSwapBefore depth st else some st
    else
      insertDupBefore (depth + 1) st

def handleStackOperands (reg1 reg2 : Register) (lastUse1 lastUse2 : Bool)
    (st : EVMStackAlloc) : Option EVMStackAlloc := do
  let depth1 ← st.findRegDepth reg1
  let depth2 ← st.findRegDepth reg2
  match lastUse1, lastUse2 with
  | true, true =>
      if depth1 = 0 ∧ depth2 = 1 then
        some st
      else if depth1 = 0 ∧ depth2 ≠ 1 then do
        let st ← insertSwapBefore 1 st
        let st ← SwapRegToTop reg2 st
        SwapRegToTop reg1 st
      else if depth1 ≠ 0 ∧ depth2 = 1 then
        SwapRegToTop reg1 st
      else if depth1 = 1 ∧ depth2 = 0 then
        insertSwapBefore 1 st
      else do
        let st ← SwapRegToTop reg2 st
        let st ← insertSwapBefore 1 st
        SwapRegToTop reg1 st
  | true, false =>
      if depth1 = 0 then do
        let st ← DupRegToTop reg2 st
        SwapRegToTop reg1 st
      else if depth2 = 1 then
        -- the copy of reg2 that later uses need is not made here
        SwapRegToTop reg1 st
      else do
        let st ← DupRegToTop reg2 st
        let st ← insertSwapBefore 1 st
        SwapRegToTop reg1 st
  | false, true => do
      let st ← SwapRegToTop reg2 st
      DupRegToTop reg1 st
  | false, false => do
      let st ← DupRegToTop reg2 st
      DupRegToTop reg1 st

def handleBinaryOpcode (F : MachineFunction) (ref : InstrRef) (reg1 reg2 : Register)
    (st : EVMStackAlloc) : Option EVMStackAlloc :=
  let SA1 := st.lookup reg1
  let SA2 := st.lookup reg2
  let lastUse1 := regIsLastUse F st.MRI ref reg1
  let lastUse2 := regIsLastUse F st.MRI ref reg2
  if SA1.region = .NONSTACK ∧ SA2.region = .NONSTACK then
    some (insertLoadFromMemoryBefore reg1 ref SA1.slot
      (insertLoadFromMemoryBefore reg2 ref SA2.slot st))
  else if SA1.region = .NONSTACK then do
    let st ← if lastUse2 then SwapRegToTop reg2 st else DupRegToTop reg2 st
    some (insertLoadFromMemoryBefore reg1 ref SA1.slot st)
  else if SA2.region = .NONSTACK then
    if lastUse1 then do
      let st ← SwapRegToTop reg1 st
      SwapRegToTop reg1 (insertLoadFromMemoryBefore reg2 ref SA2.slot st)
    else
      DupRegToTop reg1 (insertLoadFromMemoryBefore reg2 ref SA2.slot st)
  else
    handleStackOperands reg1 reg2 lastUse1 lastUse2 st

def handleArbitraryUse (ref : InstrRef) (use : RegUseType) (st : EVMStackAlloc) :
    Option EVMStackAlloc :=
  if use.isMemUse then
    some (insertLoadFromMemoryBefore use.reg ref (st.lookup use.reg).slot st)
  else do
    let depth ← st.findRegDepth use.reg
    insertDupBefore (depth + 1) st

def handleArbitraryOpcode (ref : InstrRef) (uses : List RegUseType) (st : EVMStackAlloc) :
    Option EVMStackAlloc :=
  Runs.run (handleArbitraryUse ref) uses.reverse st

def popUses : Nat → EVMStackAlloc → Option EVMStackAlloc
  | 0, st => some st
  | count + 1, st => st.pop.bind (popUses count)

def handleUses (F : MachineFunction) (ref : InstrRef) (st : EVMStackAlloc) :
    Option EVMStackAlloc := do
  let useTypes ← calculateUseRegs F ref st
  let st ← match useTypes with
    | [] => some st
    | [use] => handleUnaryOpcode F ref use.reg st
    | [use1, use2] => handleBinaryOpcode F ref use1.reg use2.reg st
    | uses => handleArbitraryOpcode ref uses st
  popUses useTypes.length st

def storeDef (ref : InstrRef) (defReg : Register) (st : EVMStackAlloc) : EVMStackAlloc :=
  let (st, slot) := allocateMemorySlot defReg st
  insertStoreToMemoryAfter defReg ref slot (insertAssignment defReg ⟨.NONSTACK, slot⟩ st)

def handleDef (F : MachineFunction) (ref : InstrRef) (st : EVMStackAlloc) :
    Option EVMStackAlloc :=
  match ref.instr.defRegister with
  | none => some st
  | some defReg =>
      if st.MRI.hasOneDef defReg then
        if st.MRI.useEmpty defReg then
          insertPopAfter (insertAssignment defReg ⟨.NO_ALLOCATION, 0⟩ st)
        else if defIsLocal F ref defReg then
          let st := insertAssignment defReg ⟨.L_STACK, 0⟩ st
          some { st with stack := defReg :: st.stack }
        else
          some (storeDef ref defReg st)
      else
        some (storeDef ref defReg st)

def cleanUpUse (atEnd : Bool) (use : RegUseType) (st : EVMStackAlloc) : Option EVMStackAlloc :=
  if use.isLastUse then do
    let depth ← st.findRegDepth use.reg
    let st ← if depth ≠ 0 then
        if atEnd then insertSwapAfter depth st else insertSwapPoint depth st
      else some st
    if atEnd then insertPopAfter st else insertPopPoint st
  else some st

/-- The insertion point is the instruction right after the current one, which
is what the definition inserted there if it inserted anything. -/
def cleanUpDeadRegisters (F : MachineFunction) (ref : InstrRef) (st : EVMStackAlloc) :
    Option EVMStackAlloc :=
  if ref.instr.explicitUses.length ≤ 2 then some st
  else do
    let useTypes ← calculateUseRegs F ref st
    let atEnd := st.after.isEmpty && ref.index + 1 == (F.instrs ref.block).length
    Runs.run (cleanUpUse atEnd) useTypes st

def passInstr (ref : InstrRef) (st : EVMStackAlloc) : EVMStackAlloc :=
  { st with
    before := st.before ++ [.original ref] ++ st.between ++ st.after
    between := []
    after := [] }

def analyzeInstr (F : MachineFunction) (ref : InstrRef) (st : EVMStackAlloc) :
    Option EVMStackAlloc := do
  let st ← handleUses F ref st
  let st ← handleDef F ref st
  let st ← cleanUpDeadRegisters F ref st
  some (passInstr ref st)

/-! ### Blocks -/

def popIfDead (F : MachineFunction) (block : Nat) (xreg : Register) (st : EVMStackAlloc) :
    Option EVMStackAlloc :=
  if regIsDeadAtBeginningOfMBB F st.MRI xreg block then do
    let st ← SwapRegToTop xreg st
    insertPopBefore st
  else some st

/-- The loop over the slots; the vector may shrink while the index advances. -/
def freeDeadSlots (dead : Register → Bool) : Nat → Nat → List Register → Option (List Register)
  | 0, _, slots => some slots
  | fuel + 1, index, slots =>
      match slots[index]? with
      | none => some slots
      | some reg =>
          if reg = 0 then freeDeadSlots dead fuel (index + 1) slots
          else if dead reg then
            (deallocateMemorySlot reg slots).bind (freeDeadSlots dead fuel (index + 1))
          else freeDeadSlots dead fuel (index + 1) slots

def takenOver (F : MachineFunction) (block : Nat) (st : EVMStackAlloc) :
    Option (List Register × List Register) :=
  match F.predecessors block with
  | [] => none
  | pred :: _ =>
      (st.edgeSets.getEdgeSetIndex (realEdge pred block)).map fun setIndex =>
        (st.edgeset2assignment setIndex).getD ([], [])

/-- Code for dead transferred registers goes to the very start of the block. -/
def beginOfBlockUpdates (F : MachineFunction) (block : Nat) (st : EVMStackAlloc) :
    Option EVMStackAlloc :=
  if F.predecessors block = [] then some st
  else do
    let (xStack, memslots) ← takenOver F block st
    let started := st.before
    let st ← Runs.run (popIfDead F block) xStack.reverse
      { st with stack := xStack ++ st.stack, memoryAssignment := memslots, before := [] }
    let slots ← freeDeadSlots (fun reg => regIsDeadAtBeginningOfMBB F st.MRI reg block)
      st.memoryAssignment.length 0 st.memoryAssignment
    some { st with memoryAssignment := slots, before := st.before ++ started }

/-- Only the edge set of the first successor is written, over what was there. -/
def endOfBlockUpdates (F : MachineFunction) (block : Nat) (st : EVMStackAlloc) :
    Option EVMStackAlloc :=
  match F.successors block with
  | [] => some st
  | later :: _ => do
      let edgeSetIndex ← st.edgeSets.getEdgeSetIndex (realEdge block later)
      some { st with edgeset2assignment :=
        Function.update st.edgeset2assignment edgeSetIndex (some (st.stack, st.memoryAssignment)) }

def isStackArg (ref : InstrRef) : Bool := ref.instr.opcode == .pSTACKARG_r

def stackArgs (F : MachineFunction) (block : Nat) : List InstrRef :=
  if block = 0 then (F.instrRefs block).takeWhile isStackArg else []

def bodyRefs (F : MachineFunction) (block : Nat) : List InstrRef :=
  if block = 0 then (F.instrRefs block).dropWhile isStackArg else F.instrRefs block

def argRegister (ref : InstrRef) : Register := ref.instr.defRegister.getD 0

/-- Stores and swaps for an argument go before the first other instruction,
the pop of an unused one before the argument itself. -/
def analyzeStackArg (F : MachineFunction) (first : InstrRef) (arg : InstrRef)
    (st : EVMStackAlloc) : Option EVMStackAlloc :=
  let reg := argRegister arg
  if st.MRI.useEmpty reg then
    let st := insertAssignment reg ⟨.NO_ALLOCATION, 0⟩ st
    pop { st with before := st.before.insertIdx arg.index .POP_r }
  else if defIsLocal F arg reg then
    some (insertAssignment reg ⟨.L_STACK, 0⟩ st)
  else do
    let (st, slot) := allocateMemorySlot reg st
    let st := insertAssignment reg ⟨.NONSTACK, slot⟩ st
    let depth ← st.findRegDepth reg
    let st ← if depth ≠ 0 then insertSwapBefore depth st else some st
    pop (insertStoreToMemoryBefore reg first slot st)

/-- Symbolically push the arguments; without any other instruction in the
entry block the place to insert code is undefined. -/
def openBlock (F : MachineFunction) (block : Nat) (st : EVMStackAlloc) : EVMStackAlloc :=
  { st with
    stack := ((stackArgs F block).map argRegister).reverse
    before := st.before ++ (stackArgs F block).map .original }

def tryToAnalyzeStackArgs (F : MachineFunction) (block : Nat) (st : EVMStackAlloc) :
    Option EVMStackAlloc :=
  match bodyRefs F block with
  | [] => none
  | first :: _ =>
      Runs.run (analyzeStackArg F first) (stackArgs F block).reverse (openBlock F block st)

def closeBlock (st : EVMStackAlloc) : EVMStackAlloc :=
  { st with emitted := st.emitted ++ [st.before], before := [] }

def analyzeBasicBlock (F : MachineFunction) (block : Nat) (st : EVMStackAlloc) :
    Option EVMStackAlloc :=
  if F.instrs block = [] then some (closeBlock st)
  else do
    let st ← tryToAnalyzeStackArgs F block st
    let st ← beginOfBlockUpdates F block st
    let st ← Runs.run (analyzeInstr F) (bodyRefs F block) st
    let st ← endOfBlockUpdates F block st
    some (closeBlock st)

/-- The slot map is not among what is reset for a new function. -/
def initializePass (st : EVMStackAlloc) : EVMStackAlloc :=
  { st with
    edgeSets := ⟨[], []⟩
    regAssignments := fun _ => none
    edgeset2assignment := fun _ => none
    before := []
    between := []
    after := []
    emitted := [] }

def allocateRegistersToStack (F : MachineFunction) (st : EVMStackAlloc) :
    Option EVMStackAlloc := do
  let edgeSets ← EdgeSets.computeEdgeSets F
  Runs.run (analyzeBasicBlock F) (List.range F.blocks.length)
    { initializePass st with edgeSets := edgeSets }

/-- Each function comes with fresh operand lists and function info. -/
def runOnMachineFunction (F : MachineFunction) (st : EVMStackAlloc) : Option EVMStackAlloc :=
  allocateRegistersToStack F { st with MRI := F.regInfo, memoryFrameSize := 0 }

def fresh : EVMStackAlloc where
  edgeSets := ⟨[], []⟩
  regAssignments := fun _ => none
  stack := []
  memoryAssignment := []
  edgeset2assignment := fun _ => none
  memoryFrameSize := 0
  MRI := ⟨[], []⟩
  before := []
  between := []
  after := []
  emitted := []

end EVMStackAlloc

end EvmBackend
