/-
An instruction with three or more register operands, taken apart: every operand
is loaded or copied, so the instruction consumes copies only; its definition is
pushed, stored or popped; and the operands at their last use are taken out of
the stack afterwards. Each part is an equation, the last one in terms of taking
entries out of a stack.
-/

import EvmBackend.Library.Discards
import EvmBackend.StackAlloc.Operands

namespace EvmBackend.EVMStackAlloc

open List Option

variable {F : MachineFunction} {ref : InstrRef} {st next : EVMStackAlloc}

open Stacks (Shuffle discardCode)

def lastUses (F : MachineFunction) (MRI : MachineRegisterInfo) (ref : InstrRef) : List Register :=
  ref.instr.useRegisters.filter fun reg => regIsLastUse F MRI ref reg

def loadedInfo (ref : InstrRef) (st : EVMStackAlloc) : MachineRegisterInfo :=
  { st.MRI with
    defs := st.MRI.defs ++ (ref.instr.useRegisters.reverse.filter fun reg =>
      decide ((st.lookup reg).region = .NONSTACK)).map fun reg => (reg, ref.slotBefore.getRegSlot) }

def definitionRegion (F : MachineFunction) (MRI : MachineRegisterInfo) (ref : InstrRef)
    (defReg : Register) : StackRegion :=
  if MRI.hasOneDef defReg then
    if MRI.useEmpty defReg then .NO_ALLOCATION
    else if defIsLocal F ref defReg then .L_STACK
    else .NONSTACK
  else .NONSTACK

variable {uses : List RegUseType}

/-! ### Operands -/

theorem handleArbitraryUses_MRI (done : Runs.run (handleArbitraryUse ref) uses st = some next) :
    next.MRI = { st.MRI with
      defs := st.MRI.defs ++ (uses.filter RegUseType.isMemUse).map fun use =>
        (use.reg, ref.slotBefore.getRegSlot) } := by
  induction uses generalizing st with
  | nil =>
      cases done
      simp
  | cons first rest ih =>
      obtain ⟨middle, begun, later⟩ := Runs.run_cons_eq_some _ done
      rw [ih later]
      cases inMemory : first.isMemUse with
      | true =>
          simp only [handleArbitraryUse, inMemory, if_true] at begun
          cases begun
          simp [insertLoadFromMemoryBefore, inMemory]
      | false =>
          simp only [handleArbitraryUse, inMemory, Bool.false_eq_true, if_false] at begun
          obtain ⟨depth, _, copied⟩ := bind_eq_some_iff.mp begun
          obtain ⟨stack, _, rfl⟩ := map_eq_some_iff.mp copied
          simp [inMemory]

/-- The registers of the uses that are flagged are the operands that meet the
condition the flag stands for. -/
private theorem filter_uses {flag : RegUseType → Bool} {condition : Register → Bool}
    (agree : ∀ use ∈ uses, flag use = condition use.reg) :
    (uses.filter flag).map RegUseType.reg = (uses.map RegUseType.reg).filter condition := by
  rw [List.filter_map]
  congr 1
  exact filter_congr agree

theorem calculateUseRegs_lastUses (known : calculateUseRegs F ref st = some uses) :
    (uses.filter RegUseType.isLastUse).map RegUseType.reg = lastUses F st.MRI ref := by
  obtain ⟨names, each⟩ := calculateUseRegs_eq_some known
  unfold lastUses
  rw [← names]
  apply filter_uses
  intro use member
  exact (calculateUse_eq_some (each use member)).2.1

theorem calculateUseRegs_memUses (known : calculateUseRegs F ref st = some uses) :
    (uses.reverse.filter RegUseType.isMemUse).map RegUseType.reg =
      ref.instr.useRegisters.reverse.filter fun reg =>
        decide ((st.lookup reg).region = .NONSTACK) := by
  obtain ⟨names, each⟩ := calculateUseRegs_eq_some known
  rw [← names, ← map_reverse]
  apply filter_uses
  intro use member
  have agrees := (calculateUse_eq_some (each use (mem_reverse.mp member))).2.2
  rw [Bool.eq_iff_iff, decide_eq_true_eq]
  exact agrees

theorem handleUses_many (many : 3 ≤ ref.instr.useRegisters.length)
    (present : ∀ reg ∈ ref.instr.useRegisters, (st.lookup reg).region ≠ .NONSTACK →
      reg ∈ st.stack) :
    ∃ ready, Prepares ref st ready ∧ ready.stack = ref.instr.useRegisters ++ st.stack ∧
      ready.MRI = loadedInfo ref st ∧
      handleUses F ref st = some { ready with stack := st.stack } := by
  obtain ⟨uses, known⟩ := calculateUseRegs_total (F := F) present
  obtain ⟨names, each⟩ := calculateUseRegs_eq_some known
  have memory := calculateUseRegs_memUses known
  have onStack : ∀ use ∈ uses.reverse, use.isMemUse = false → use.reg ∈ st.stack := by
    intro use member elsewhere
    have listed := mem_reverse.mp member
    apply present use.reg (calculateUseRegs_operands known use listed)
    intro inMemory
    rw [(calculateUse_eq_some (each use listed)).2.2.mpr inMemory] at elsewhere
    cases elsewhere
  obtain ⟨ready, begun, entries⟩ := handleArbitraryUses_total ref onStack
  rw [map_reverse, reverse_reverse, names] at entries
  have prepared : Prepares ref st ready := by
    apply handleArbitraryUses_prepares ?_ ?_ begun
    · intro use member
      exact calculateUseRegs_operands known use (mem_reverse.mp member)
    · intro use member
      exact calculateUseRegs_agree known use (mem_reverse.mp member)
  have info : ready.MRI = loadedInfo ref st := by
    rw [handleArbitraryUses_MRI begun, loadedInfo, ← memory, List.map_map]
    rfl
  refine ⟨ready, prepared, entries, info, ?_⟩
  have count : uses.length = ref.instr.useRegisters.length := by rw [← names, length_map]
  have popped : popUses uses.length ready = some { ready with stack := st.stack } := by
    rw [popUses_total (by rw [entries, length_append]; omega), entries, count, drop_left]
  simp only [handleUses, known, bind_eq_bind, bind_some]
  rcases uses with _ | ⟨first, _ | ⟨second, _ | ⟨third, rest⟩⟩⟩
  · simp at count
    omega
  · simp at count
    omega
  · simp at count
    omega
  · simp only [handleArbitraryOpcode, begun, bind_some]
    exact popped

theorem handleDef_none (noDef : ref.instr.defRegister = none) : handleDef F ref st = some st := by
  simp only [handleDef, noDef]

section Region

variable {defReg : Register} (isDef : ref.instr.defRegister = some defReg)

include isDef

theorem handleDef_pushed (region : definitionRegion F st.MRI ref defReg = .L_STACK) :
    handleDef F ref st = some { st with
      regAssignments := recorded defReg ⟨.L_STACK, 0⟩ st.regAssignments
      stack := defReg :: st.stack } := by
  unfold definitionRegion at region
  split at region
  · rename_i oneDef
    split at region
    · cases region
    · rename_i used
      split at region
      · rename_i isLocal
        simp only [handleDef, isDef, oneDef, used, isLocal, if_true, Bool.false_eq_true, if_false,
          insertAssignment_eq]
      · cases region
  · cases region

theorem handleDef_stored (region : definitionRegion F st.MRI ref defReg = .NONSTACK) :
    handleDef F ref st = some (storeDef ref defReg st) := by
  unfold definitionRegion at region
  split at region
  · rename_i oneDef
    split at region
    · cases region
    · rename_i used
      split at region
      · cases region
      · rename_i notLocal
        simp only [handleDef, isDef, oneDef, used, notLocal, if_true, Bool.false_eq_true, if_false]
  · rename_i several
    simp only [handleDef, isDef, several, Bool.false_eq_true, if_false]

theorem handleDef_unused (region : definitionRegion F st.MRI ref defReg = .NO_ALLOCATION) :
    handleDef F ref st = pop { st with
      regAssignments := recorded defReg ⟨.NO_ALLOCATION, 0⟩ st.regAssignments
      after := .POP_r :: st.after } := by
  unfold definitionRegion at region
  split at region
  · rename_i oneDef
    split at region
    · rename_i unused
      simp only [handleDef, isDef, oneDef, unused, if_true, insertAssignment_eq, insertPopAfter]
    · split at region <;> cases region
  · cases region

end Region

theorem definitionRegion_cases (F : MachineFunction) (MRI : MachineRegisterInfo) (ref : InstrRef)
    (defReg : Register) :
    definitionRegion F MRI ref defReg = .NO_ALLOCATION ∨
      definitionRegion F MRI ref defReg = .L_STACK ∨
        definitionRegion F MRI ref defReg = .NONSTACK := by
  unfold definitionRegion
  split
  · split
    · exact Or.inl rfl
    · split
      · exact Or.inr (Or.inl rfl)
      · exact Or.inr (Or.inr rfl)
  · exact Or.inr (Or.inr rfl)

def codeOf : Shuffle → OutInstr
  | .swap depth => .SWAP_r depth
  | .pop => .POP_r

/-- The code that takes entries out goes before the next instruction in its
order, or behind the last one of a block, each piece in front of the one before. -/
def cleaned (atEnd : Bool) (depths : List Nat) (rest : List Register) (st : EVMStackAlloc) :
    EVMStackAlloc :=
  let code := (depths.flatMap discardCode).map codeOf
  if atEnd then { st with stack := rest, after := code.reverse ++ st.after }
  else { st with stack := rest, between := st.between ++ code }

theorem cleaned_cleaned (atEnd : Bool) (depth : Nat) (depths : List Nat)
    (middle rest : List Register) (st : EVMStackAlloc) :
    cleaned atEnd depths rest (cleaned atEnd [depth] middle st) =
      cleaned atEnd (depth :: depths) rest st := by
  cases atEnd <;> simp [cleaned]

theorem cleaned_stack (atEnd : Bool) (depths : List Nat) (rest : List Register)
    (st : EVMStackAlloc) : (cleaned atEnd depths rest st).stack = rest := by
  cases atEnd <;> rfl

theorem cleanUpUse_dead {atEnd : Bool} {use : RegUseType} (last : use.isLastUse = true) :
    cleanUpUse atEnd use st = (Stacks.depthOf use.reg st.stack).bind fun depth =>
      (Stacks.swapTop depth st.stack).map fun swapped =>
        cleaned atEnd [depth] swapped.tail st := by
  simp only [cleanUpUse, last, if_true, findRegDepth]
  cases found : Stacks.depthOf use.reg st.stack with
  | none => rfl
  | some depth =>
      obtain ⟨swapped, exchanged⟩ := Stacks.swapTop_isSome (Stacks.depthOf_lt found)
      have nonempty : swapped ≠ [] := by
        intro empty
        have same := (Stacks.swapTop_perm exchanged).length_eq
        have within := Stacks.depthOf_lt found
        rw [empty, length_nil] at same
        omega
      obtain ⟨top, below, rfl⟩ := exists_cons_of_ne_nil nonempty
      simp only [bind_eq_bind, bind_some, exchanged, map_some, tail_cons]
      by_cases isTop : depth = 0
      · subst depth
        have entries : st.stack = top :: below := Option.some.inj exchanged
        cases atEnd <;>
          simp [entries, cleaned, discardCode, codeOf, insertPopAfter, insertPopPoint, pop]
      · cases atEnd <;>
          simp [isTop, exchanged, cleaned, discardCode, codeOf, insertSwapAfter, insertSwapPoint,
            insertPopAfter, insertPopPoint, pop]

theorem run_cleanUpUse (atEnd : Bool) (uses : List RegUseType) (st : EVMStackAlloc) :
    Runs.run (cleanUpUse atEnd) uses st =
      (Stacks.discard ((uses.filter RegUseType.isLastUse).map RegUseType.reg) st.stack).map fun found =>
        cleaned atEnd found.1 found.2 st := by
  induction uses generalizing st with
  | nil => cases atEnd <;> simp [cleaned, Stacks.discard]
  | cons first rest ih =>
      rw [Runs.run_cons]
      cases last : first.isLastUse with
      | false =>
          simp only [cleanUpUse, last, Bool.false_eq_true, if_false, bind_some]
          rw [ih, filter_cons_of_neg (by simp [last])]
      | true =>
          rw [cleanUpUse_dead last, filter_cons_of_pos last, map_cons, Stacks.discard]
          cases Stacks.depthOf first.reg st.stack with
          | none => rfl
          | some depth =>
              simp only [bind_some]
              cases Stacks.swapTop depth st.stack with
              | none => rfl
              | some swapped =>
                  simp only [map_some, bind_some, Option.map_map]
                  rw [ih, cleaned_stack]
                  congr 1
                  funext found
                  exact cleaned_cleaned atEnd depth found.1 swapped.tail found.2 st

def endsBlock (F : MachineFunction) (ref : InstrRef) : Bool :=
  ref.index + 1 == (F.instrs ref.block).length

theorem explicitUses_not_few (many : 3 ≤ ref.instr.useRegisters.length) :
    ¬ ref.instr.explicitUses.length ≤ 2 := by
  have fewer : ref.instr.useRegisters.length ≤ ref.instr.explicitUses.length :=
    length_filterMap_le _ _
  omega

theorem cleanUpDeadRegisters_eq (many : 3 ≤ ref.instr.useRegisters.length)
    (known : calculateUseRegs F ref st = some uses) :
    cleanUpDeadRegisters F ref st =
      (Stacks.discard (lastUses F st.MRI ref) st.stack).map fun found =>
        cleaned (st.after.isEmpty && endsBlock F ref) found.1 found.2 st := by
  simp only [cleanUpDeadRegisters, if_neg (explicitUses_not_few many), known, bind_eq_bind,
    bind_some]
  rw [run_cleanUpUse, calculateUseRegs_lastUses known]
  rfl

end EvmBackend.EVMStackAlloc
