/-
The -O0 replacement of virtual registers by local slots: every definition that
is read somewhere is stored to the slot of its register, every use is loaded
from there.

Slots are numbered in the order in which registers are first defined. The frame
size kept for the function is the largest number given out, not their count.
-/

import EvmBackend.Library.Runs
import EvmBackend.MachineFunction

namespace EvmBackend

/-- The slot numbers of registers, and the frame size in slots. -/
structure EVMMachineFunctionInfo where
  reg2index : List (Register × Nat)
  memoryFrameSize : Nat
  deriving DecidableEq, Repr

namespace EVMMachineFunctionInfo

def updateMemoryFrameSize (size : Nat) (MFI : EVMMachineFunctionInfo) : EVMMachineFunctionInfo :=
  { MFI with memoryFrameSize := if MFI.memoryFrameSize > size then MFI.memoryFrameSize else size }

def getMemoryIndex (reg : Register) (MFI : EVMMachineFunctionInfo) : Option Nat :=
  MFI.reg2index.lookup reg

def allocateMemoryIndex (reg : Register) (MFI : EVMMachineFunctionInfo) :
    EVMMachineFunctionInfo × Nat :=
  match MFI.getMemoryIndex reg with
  | some index => (MFI, index)
  | none =>
      let index := MFI.reg2index.length
      (updateMemoryFrameSize index { MFI with reg2index := MFI.reg2index ++ [(reg, index)] }, index)

/-- Indexes are numbers below the count, and the frame size is the last of them. -/
structure Indexed (MFI : EVMMachineFunctionInfo) : Prop where
  below : ∀ reg index, MFI.getMemoryIndex reg = some index → index < MFI.reg2index.length
  size : MFI.memoryFrameSize = MFI.reg2index.length - 1

theorem allocateMemoryIndex_indexed {MFI : EVMMachineFunctionInfo} (indexed : MFI.Indexed)
    (reg : Register) :
    (MFI.allocateMemoryIndex reg).1.Indexed ∧
      (MFI.allocateMemoryIndex reg).2 < (MFI.allocateMemoryIndex reg).1.reg2index.length ∧
      MFI.reg2index.length ≤ (MFI.allocateMemoryIndex reg).1.reg2index.length := by
  unfold allocateMemoryIndex
  cases known : MFI.getMemoryIndex reg with
  | some index => exact ⟨indexed, indexed.below reg index known, Nat.le_refl _⟩
  | none =>
      have size := indexed.size
      refine ⟨⟨fun other index found => ?_, ?_⟩, by simp [updateMemoryFrameSize],
        by simp [updateMemoryFrameSize]⟩
      · simp only [getMemoryIndex, updateMemoryFrameSize, List.lookup_append,
          Option.or_eq_some_iff] at found
        simp only [updateMemoryFrameSize, List.length_append, List.length_singleton]
        rcases found with earlier | ⟨_, new⟩
        · have old := indexed.below other index earlier
          omega
        · simp only [List.lookup_cons, List.lookup_nil] at new
          split at new
          · cases new
            exact Nat.lt_succ_self _
          · cases new
      · simp only [updateMemoryFrameSize, List.length_append, List.length_singleton]
        split <;> omega

end EVMMachineFunctionInfo

/-- The pass in the middle of a function: the function info, and the slots
named so far by the inserted pPUTLOCAL_r and pGETLOCAL_r. -/
structure EVMVRegToMem where
  MFI : EVMMachineFunctionInfo
  locals : List Nat
  deriving DecidableEq, Repr

namespace EVMVRegToMem

/-- A definition nobody reads is dropped from the stack, any other is stored. -/
def visitDef (MRI : MachineRegisterInfo) (instr : MachineInstr) (st : EVMVRegToMem) :
    EVMVRegToMem :=
  match instr.defRegister with
  | none => st
  | some OldReg =>
      if MRI.useEmpty OldReg then st
      else
        let (MFI, LocalId) := st.MFI.allocateMemoryIndex OldReg
        ⟨MFI, st.locals ++ [LocalId]⟩

def visitUse (OldReg : Register) (st : EVMVRegToMem) : Option EVMVRegToMem :=
  (st.MFI.getMemoryIndex OldReg).map fun LocalId => { st with locals := st.locals ++ [LocalId] }

def visitInstr (MRI : MachineRegisterInfo) (instr : MachineInstr) (st : EVMVRegToMem) :
    Option EVMVRegToMem :=
  Runs.run visitUse instr.useRegisters.reverse (visitDef MRI instr st)

def runOnMachineFunction (F : MachineFunction) : Option EVMVRegToMem :=
  Runs.run (visitInstr F.regInfo) (F.allRefs.map InstrRef.instr) ⟨⟨[], 0⟩, []⟩

structure Numbered (st : EVMVRegToMem) : Prop where
  indexed : st.MFI.Indexed
  named : ∀ slot ∈ st.locals, slot < st.MFI.reg2index.length

variable {MRI : MachineRegisterInfo} {st next : EVMVRegToMem}

theorem visitDef_numbered (numbered : Numbered st) (instr : MachineInstr) :
    Numbered (visitDef MRI instr st) := by
  unfold visitDef
  cases instr.defRegister with
  | none => exact numbered
  | some reg =>
      simp only
      by_cases unused : MRI.useEmpty reg = true
      · rw [if_pos unused]
        exact numbered
      · rw [if_neg unused]
        obtain ⟨indexed, below, grown⟩ :=
          EVMMachineFunctionInfo.allocateMemoryIndex_indexed numbered.indexed reg
        refine ⟨indexed, fun slot member => ?_⟩
        rcases List.mem_append.mp member with earlier | new
        · exact Nat.lt_of_lt_of_le (numbered.named slot earlier) grown
        · rw [List.mem_singleton.mp new]
          exact below

theorem visitUse_numbered {reg : Register} (numbered : Numbered st)
    (done : visitUse reg st = some next) : Numbered next := by
  obtain ⟨index, known, rfl⟩ := Option.map_eq_some_iff.mp done
  refine ⟨numbered.indexed, fun slot member => ?_⟩
  rcases List.mem_append.mp member with earlier | new
  · exact numbered.named slot earlier
  · rw [List.mem_singleton.mp new]
    exact numbered.indexed.below reg index known

theorem runOnMachineFunction_numbered {F : MachineFunction} {last : EVMVRegToMem}
    (finished : runOnMachineFunction F = some last) : Numbered last := by
  apply Runs.run_keeps Numbered _ _ finished
  · intro instr state after numbered visited
    apply Runs.run_keeps Numbered _ _ visited
    · intro reg before following holds stepped
      exact visitUse_numbered holds stepped
    · exact visitDef_numbered numbered instr
  · refine ⟨⟨fun reg index absent => ?_, rfl⟩, fun slot absent => ?_⟩
    · cases absent
    · cases absent

theorem locals_le {F : MachineFunction} {last : EVMVRegToMem}
    (finished : runOnMachineFunction F = some last) :
    ∀ slot ∈ last.locals, slot ≤ last.MFI.memoryFrameSize := by
  intro slot member
  have numbered := runOnMachineFunction_numbered finished
  have below := numbered.named slot member
  rw [numbered.indexed.size]
  omega

end EVMVRegToMem

end EvmBackend
