/-
Whether a register has been assigned when it is read: entries follow the layout,
so a read in a block laid out before its definition finds none and falls back
to slot 0.

The second part shows that the allocator gets through the whole function, with
every stack operand found on the symbolic stack, unless one of the arrangements
it mishandles comes up. It relies on live intervals in one respect: an interval
local to a block covers every use of its register.
-/

import EvmBackend.StackAlloc.EdgeMaps
import EvmBackend.StackAlloc.Operands

namespace EvmBackend.EVMStackAlloc

open List Option

instance (earlier later : InstrRef) : Decidable (Precedes earlier later) :=
  inferInstanceAs (Decidable (earlier.block < later.block ∨
    (earlier.block = later.block ∧ earlier.index < later.index)))

instance (F : MachineFunction) (ref : InstrRef) (reg : Register) :
    Decidable (DefinedBefore F ref reg) :=
  inferInstanceAs (Decidable (∃ earlier ∈ F.allRefs,
    earlier.instr.defRegister = some reg ∧ Precedes earlier ref))

def handledRefs (F : MachineFunction) : List InstrRef :=
  (List.range F.blocks.length).flatMap (bodyRefs F)

def LayoutDefinesFirst (F : MachineFunction) : Prop :=
  ∀ ref ∈ handledRefs F, ∀ reg ∈ ref.instr.useRegisters, DefinedBefore F ref reg

def UsesAssigned (step : AllocStep) (st : EVMStackAlloc) : Prop :=
  ∀ ref, (step = .uses ref ∨ step = .cleanUp ref) →
    ∀ reg ∈ ref.instr.useRegisters, (st.regAssignments reg).isSome = true

variable {F : MachineFunction}

theorem usesAssigned_of_layout (layout : LayoutDefinesFirst F) (st : EVMStackAlloc) :
    Runs.EveryStep (allocStep F) UsesAssigned (functionSteps F) (startState F st) := by
  rw [Runs.everyStep_iff_reached]
  intro done step rest middle split reached ref here reg reads
  have present : step ∈ functionSteps F := by
    rw [split]
    exact mem_append_right _ mem_cons_self
  have inBody : ∃ rank, bodyRef step = some (ref, rank) := by
    rcases here with rfl | rfl
    · exact ⟨0, rfl⟩
    · exact ⟨2, rfl⟩
  obtain ⟨rank, known⟩ := inBody
  have member := bodyRef_of_mem_functionSteps present known
  have bound := MachineFunction.lt_of_mem_instrRefs (mem_instrRefs_of_bodyRefs member)
  have handled : ref ∈ handledRefs F :=
    mem_flatMap.mpr ⟨ref.block, mem_range.mpr bound, member⟩
  exact assigned_of_definedBefore split known reached (layout ref handled reg reads)

/-- In a run that gets to the end, uses have entries exactly when the layout
defines every register before it reads it. -/
theorem usesAssigned_iff_layout {st final : EVMStackAlloc}
    (finished : runOnMachineFunction F st = some final) :
    Runs.EveryStep (allocStep F) UsesAssigned (functionSteps F) (startState F st) ↔
      LayoutDefinesFirst F := by
  refine ⟨fun every ref handled reg reads => ?_, fun layout => usesAssigned_of_layout layout st⟩
  rw [runOnMachineFunction_eq_run] at finished
  obtain ⟨block, inside, member⟩ := mem_flatMap.mp handled
  have present : AllocStep.uses ref ∈ functionSteps F :=
    mem_functionSteps.mpr ⟨block, mem_range.mp inside,
      mem_blockSteps_of_bodyRefs member (by simp [instrSteps])⟩
  obtain ⟨done, rest, split⟩ := append_of_mem present
  rw [split, Runs.run_append] at finished
  obtain ⟨middle, reached, _⟩ := bind_eq_some_iff.mp finished
  have assigned := Runs.everyStep_iff_reached.mp every done (.uses ref) rest middle split reached
    ref (Or.inl rfl) reg reads
  exact definedBefore_of_assigned split rfl (Nat.zero_le 1) reached assigned

/-- What is known of live intervals: one that is local to the block of a
definition covers every use of the register, behind the definition. -/
def LocalIntervals (F : MachineFunction) : Prop :=
  ∀ ref ∈ F.allRefs, ∀ reg ∈ ref.instr.defRegister, defIsLocal F ref reg = true →
    ∀ other ∈ F.allRefs, reg ∈ other.instr.useRegisters →
      other.block = ref.block ∧ Precedes ref other

/-- Registers consumed by an instruction with many operands are on the stack,
each once. -/
structure CleanUpSound (F : MachineFunction) (ref : InstrRef) (st : EVMStackAlloc) : Prop where
  operands : 3 ≤ ref.instr.useRegisters.length
  onStack : ∀ reg ∈ ref.instr.useRegisters, regIsLastUse F st.MRI ref reg = true →
    (st.lookup reg).region ≠ .NONSTACK
  once : (ref.instr.useRegisters.filter (regIsLastUse F st.MRI ref)).Nodup

def StepCompletes (F : MachineFunction) : AllocStep → EVMStackAlloc → Prop
  | .noInsertionPoint, _ => False
  | .stackArg _ arg, st =>
      st.MRI.useEmpty (argRegister arg) = true → st.stack.head? = some (argRegister arg)
  | .uses ref, st => OperandsMovable F ref st
  | .define ref, st => ∀ defReg ∈ ref.instr.defRegister,
      ¬ (st.MRI.hasOneDef defReg = true ∧ st.MRI.useEmpty defReg = true)
  | .cleanUp ref, st => 2 < ref.instr.explicitUses.length → CleanUpSound F ref st
  | _, _ => True

instance (F : MachineFunction) (ref : InstrRef) (st : EVMStackAlloc) :
    Decidable (CleanUpSound F ref st) :=
  decidable_of_iff (3 ≤ ref.instr.useRegisters.length ∧
      (∀ reg ∈ ref.instr.useRegisters, regIsLastUse F st.MRI ref reg = true →
        (st.lookup reg).region ≠ .NONSTACK) ∧
      (ref.instr.useRegisters.filter (regIsLastUse F st.MRI ref)).Nodup)
    ⟨fun ⟨operands, onStack, once⟩ => ⟨operands, onStack, once⟩,
      fun ⟨operands, onStack, once⟩ => ⟨operands, onStack, once⟩⟩

instance (F : MachineFunction) :
    ∀ (step : AllocStep) (st : EVMStackAlloc), Decidable (StepCompletes F step st)
  | .noInsertionPoint, _ => isFalse id
  | .stackArg _ arg, st => inferInstanceAs (Decidable (
      st.MRI.useEmpty (argRegister arg) = true → st.stack.head? = some (argRegister arg)))
  | .uses ref, st => inferInstanceAs (Decidable (OperandsMovable F ref st))
  | .define ref, st => inferInstanceAs (Decidable (∀ defReg ∈ ref.instr.defRegister,
      ¬ (st.MRI.hasOneDef defReg = true ∧ st.MRI.useEmpty defReg = true)))
  | .cleanUp ref, st => inferInstanceAs (Decidable (
      2 < ref.instr.explicitUses.length → CleanUpSound F ref st))
  | .emptyBlock, _ => isTrue trivial
  | .openBlock _, _ => isTrue trivial
  | .beginBlock _, _ => isTrue trivial
  | .endBlock _, _ => isTrue trivial

def UsesListed (F : MachineFunction) (MRI : MachineRegisterInfo) : Prop :=
  ∀ operand ∈ F.regInfo.uses, operand ∈ MRI.uses

variable {reg : Register} {first : InstrRef} {MRI : MachineRegisterInfo}

theorem mem_useOperands {ref : InstrRef} (listed : UsesListed F MRI) (member : ref ∈ F.allRefs)
    (reads : reg ∈ ref.instr.useRegisters) : ref.slotIndex.getRegSlot ∈ MRI.useOperands reg := by
  refine List.mem_map.mpr ⟨(reg, ref.slotIndex.getRegSlot), mem_filter.mpr ⟨?_, ?_⟩, rfl⟩
  · exact listed _ (mem_flatMap.mpr ⟨ref, member, List.mem_map.mpr ⟨reg, reads, rfl⟩⟩)
  · exact decide_eq_true rfl

theorem not_read_of_useEmpty {ref : InstrRef} (listed : UsesListed F MRI)
    (empty : MRI.useEmpty reg = true) (member : ref ∈ F.allRefs) :
    reg ∉ ref.instr.useRegisters := by
  intro reads
  have operand := mem_useOperands listed member reads
  rw [List.isEmpty_iff.mp empty] at operand
  cases operand

theorem regIsLastUse_eq_false {ref later : InstrRef} (listed : UsesListed F MRI)
    (member : ref ∈ F.allRefs) (laterMember : later ∈ F.allRefs)
    (reads : reg ∈ ref.instr.useRegisters) (readsLater : reg ∈ later.instr.useRegisters)
    (order : Precedes ref later) : regIsLastUse F MRI ref reg = false := by
  have first := mem_useOperands listed member reads
  have second := mem_useOperands listed laterMember readsLater
  have bound := MachineFunction.lt_of_mem_instrRefs
    (MachineFunction.mem_instrRefs.mpr ⟨rfl, MachineFunction.mem_allRefs.mp laterMember⟩)
  have several : MRI.hasOneUse reg = false := by
    unfold MachineRegisterInfo.hasOneUse
    rw [beq_eq_false_iff_ne]
    intro single
    obtain ⟨only, alone⟩ := length_eq_one_iff.mp single
    rw [alone, mem_singleton] at first second
    rw [← second] at first
    simp only [InstrRef.slotIndex, SlotIndex.getRegSlot, SlotIndex.mk.injEq] at first
    unfold Precedes at order
    omega
  have inRange : rangeContainsRegUses MRI reg ref.slotIndex.getRegSlot
      (MachineFunction.getMBBEndIdx (F.blocks.length - 1)) = true := by
    refine List.any_eq_true.mpr ⟨_, second, Bool.and_eq_true_iff.mpr ⟨?_, ?_⟩⟩
    · rw [SlotIndex.isEarlierInstr_iff]
      simp only [InstrRef.slotIndex, SlotIndex.getRegSlot]
      unfold Precedes at order
      omega
    · rw [SlotIndex.isEarlierInstr_iff]
      simp only [InstrRef.slotIndex, SlotIndex.getRegSlot, MachineFunction.getMBBEndIdx]
      omega
  simp [regIsLastUse, several, inRange]

/-! ### Stack registers are on the stack -/

def OnStack (st : EVMStackAlloc) (regs : Register → Prop) : Prop :=
  ∀ reg, regs reg → (st.lookup reg).region ≠ .NONSTACK → reg ∈ st.stack

theorem lookup_region_of_entry {st : EVMStackAlloc}
    (elsewhere : (st.lookup reg).region ≠ .NONSTACK) :
    ∃ assignment, st.regAssignments reg = some assignment ∧ assignment.region ≠ .NONSTACK := by
  unfold EVMStackAlloc.lookup at elsewhere
  cases known : st.regAssignments reg with
  | none =>
      rw [known] at elsewhere
      exact absurd rfl elsewhere
  | some assignment =>
      rw [known] at elsewhere
      exact ⟨assignment, rfl, elsewhere⟩

section Instructions

variable {st next : EVMStackAlloc} {ref : InstrRef} {regs : Register → Prop}

theorem handleDef_total
    (used : ∀ defReg ∈ ref.instr.defRegister,
      ¬ (st.MRI.hasOneDef defReg = true ∧ st.MRI.useEmpty defReg = true)) :
    ∃ next, handleDef F ref st = some next := by
  unfold handleDef
  cases isDef : ref.instr.defRegister with
  | none => exact ⟨st, rfl⟩
  | some defReg =>
      have readSomewhere := used defReg isDef
      dsimp only
      split
      · rename_i oneDef
        split
        · rename_i unused
          exact absurd ⟨oneDef, unused⟩ readSomewhere
        · split
          · exact ⟨_, rfl⟩
          · exact ⟨_, rfl⟩
      · exact ⟨_, rfl⟩

theorem handleDef_onStack (done : handleDef F ref st = some next)
    (used : ∀ defReg ∈ ref.instr.defRegister,
      ¬ (st.MRI.hasOneDef defReg = true ∧ st.MRI.useEmpty defReg = true))
    (present : OnStack st regs) : OnStack next regs := by
  intro reg isOne elsewhere
  rcases handleDef_eq_some done with ⟨_, rfl⟩ | ⟨defReg, isDef, unused | onStack | inMemory⟩
  · exact present reg isOne elsewhere
  · obtain ⟨oneDef, empty, _⟩ := unused
    exact absurd ⟨oneDef, empty⟩ (used defReg isDef)
  · obtain ⟨_, _, _, rfl⟩ := onStack
    by_cases self : reg = defReg
    · subst reg
      exact mem_cons_self
    · rw [lookup_of_recorded_ne rfl self] at elsewhere
      exact mem_cons_of_mem _ (present reg isOne elsewhere)
  · obtain ⟨_, rfl⟩ := inMemory
    obtain ⟨slot, taken, size, _, result⟩ := storeDef_eq ref defReg st
    rw [result] at elsewhere ⊢
    by_cases self : reg = defReg
    · subst reg
      cases known : st.regAssignments defReg with
      | none =>
          rw [lookup_of_recorded_self rfl known] at elsewhere
          exact absurd rfl elsewhere
      | some held =>
          rw [lookup_of_recorded_some rfl (by rw [known]; rfl)] at elsewhere
          exact present defReg isOne elsewhere
    · rw [lookup_of_recorded_ne rfl self] at elsewhere
      exact present reg isOne elsewhere

private theorem swapTop_of_mem {entries : List Register} (member : reg ∈ entries) :
    ∃ depth rest, Stacks.depthOf reg entries = some depth ∧
      Stacks.swapTop depth entries = some (reg :: rest) ∧ (reg :: rest).Perm entries := by
  obtain ⟨depth, found⟩ := Stacks.depthOf_isSome member
  obtain ⟨swapped, exchanged⟩ := Stacks.swapTop_isSome (Stacks.depthOf_lt found)
  have top := Stacks.swapTop_getElem? exchanged 0
  rw [if_pos rfl, (Stacks.depthOf_eq_some found).1] at top
  match swapped, exchanged, top with
  | [], _, top => cases top
  | first :: rest, exchanged, top =>
      cases top
      exact ⟨depth, rest, found, exchanged, Stacks.swapTop_perm exchanged⟩

theorem cleanUpUse_total (atEnd : Bool) {use : RegUseType} (last : use.isLastUse = true)
    (member : use.reg ∈ st.stack) :
    ∃ next, cleanUpUse atEnd use st = some next ∧ (use.reg :: next.stack).Perm st.stack := by
  obtain ⟨depth, rest, found, exchanged, same⟩ := swapTop_of_mem member
  have pops : ∀ state : EVMStackAlloc, state.stack = use.reg :: rest →
      ∃ next, (if atEnd = true then insertPopAfter state else insertPopPoint state) = some next ∧
        next.stack = rest := by
    intro state entries
    cases atEnd with
    | true => exact ⟨{ state with after := .POP_r :: state.after, stack := rest },
        by simp [insertPopAfter, pop, entries], rfl⟩
    | false => exact ⟨{ state with between := state.between ++ [.POP_r], stack := rest },
        by simp [insertPopPoint, pop, entries], rfl⟩
  simp only [cleanUpUse, last, if_true, findRegDepth, found, bind_eq_bind, bind_some]
  by_cases top : depth ≠ 0
  · rw [if_pos top]
    cases atEnd with
    | true =>
        have moved : insertSwapAfter depth st =
            some { st with after := .SWAP_r depth :: st.after, stack := use.reg :: rest } := by
          rw [insertSwapAfter, exchanged]
          rfl
        obtain ⟨next, popped, stack⟩ :=
          pops { st with after := .SWAP_r depth :: st.after, stack := use.reg :: rest } rfl
        refine ⟨next, ?_, by rw [stack]; exact same⟩
        rw [if_pos rfl, moved, bind_some]
        exact popped
    | false =>
        have moved : insertSwapPoint depth st =
            some { st with between := st.between ++ [.SWAP_r depth], stack := use.reg :: rest } := by
          rw [insertSwapPoint, exchanged]
          rfl
        obtain ⟨next, popped, stack⟩ :=
          pops { st with between := st.between ++ [.SWAP_r depth], stack := use.reg :: rest } rfl
        refine ⟨next, ?_, by rw [stack]; exact same⟩
        rw [if_neg Bool.false_ne_true, moved, bind_some]
        exact popped
  · have zero : depth = 0 := by omega
    subst depth
    have entries : st.stack = use.reg :: rest := Option.some.inj exchanged
    obtain ⟨next, popped, stack⟩ := pops st entries
    refine ⟨next, ?_, by rw [stack]; exact same⟩
    rw [if_neg top]
    exact popped

theorem cleanUpUses_total (atEnd : Bool) {uses : List RegUseType}
    (present : ∀ use ∈ uses, use.isLastUse = true → use.reg ∈ st.stack)
    (once : ((uses.filter RegUseType.isLastUse).map RegUseType.reg).Nodup) :
    ∃ next, Runs.run (cleanUpUse atEnd) uses st = some next ∧
      ∀ reg ∈ st.stack, (∀ use ∈ uses, use.isLastUse = true → use.reg ≠ reg) →
        reg ∈ next.stack := by
  induction uses generalizing st with
  | nil => exact ⟨st, rfl, fun _ member _ => member⟩
  | cons first rest ih =>
      cases last : first.isLastUse with
      | false =>
          have skipped : cleanUpUse atEnd first st = some st := by
            simp [cleanUpUse, last]
          rw [filter_cons_of_neg (by simp [last])] at once
          obtain ⟨next, done, kept⟩ :=
            ih (fun use member => present use (mem_cons_of_mem first member)) once
          refine ⟨next, by rw [Runs.run_cons, skipped]; exact done, fun reg member apart => ?_⟩
          exact kept reg member fun use inside => apart use (mem_cons_of_mem first inside)
      | true =>
          rw [filter_cons_of_pos last, map_cons, nodup_cons] at once
          obtain ⟨middle, stepped, same⟩ :=
            cleanUpUse_total atEnd last (present first mem_cons_self last)
          have still : ∀ reg, reg ∈ st.stack → first.reg ≠ reg → reg ∈ middle.stack := by
            intro reg member apart
            exact (mem_cons.mp (same.mem_iff.mpr member)).resolve_left (Ne.symm apart)
          have stillPresent : ∀ use ∈ rest, use.isLastUse = true → use.reg ∈ middle.stack := by
            intro use member isLast
            refine still use.reg (present use (mem_cons_of_mem first member) isLast) ?_
            intro repeated
            refine once.1 (List.mem_map.mpr ⟨use, mem_filter.mpr ⟨member, isLast⟩, ?_⟩)
            exact repeated.symm
          obtain ⟨next, done, kept⟩ := ih stillPresent once.2
          refine ⟨next, by rw [Runs.run_cons, stepped]; exact done, fun reg member apart => ?_⟩
          exact kept reg (still reg member (apart first mem_cons_self last))
            fun use inside => apart use (mem_cons_of_mem first inside)

theorem cleanUpDeadRegisters_total
    (sound : 2 < ref.instr.explicitUses.length → CleanUpSound F ref st)
    (present : 2 < ref.instr.explicitUses.length →
      OnStack st fun reg => reg ∈ ref.instr.useRegisters) :
    ∃ next, cleanUpDeadRegisters F ref st = some next ∧
      ∀ reg ∈ st.stack,
        (reg ∈ ref.instr.useRegisters → regIsLastUse F st.MRI ref reg = false) →
          reg ∈ next.stack := by
  unfold cleanUpDeadRegisters
  by_cases few : ref.instr.explicitUses.length ≤ 2
  · exact ⟨st, if_pos few, fun _ member _ => member⟩
  · have many : 2 < ref.instr.explicitUses.length := by omega
    rw [if_neg few]
    obtain ⟨uses, known⟩ := calculateUseRegs_total (F := F) (present many)
    obtain ⟨names, each⟩ := calculateUseRegs_eq_some known
    have facts : ∀ use ∈ uses, use.isLastUse = regIsLastUse F st.MRI ref use.reg := by
      intro use member
      exact (calculateUse_eq_some (each use member)).2.1
    have onStack : ∀ use ∈ uses, use.isLastUse = true → use.reg ∈ st.stack := by
      intro use member isLast
      have operand := calculateUseRegs_operands known use member
      refine present many use.reg operand ((sound many).onStack use.reg operand ?_)
      rw [← facts use member]
      exact isLast
    have once : ((uses.filter RegUseType.isLastUse).map RegUseType.reg).Nodup := by
      have same : (uses.filter RegUseType.isLastUse).map RegUseType.reg =
          (uses.map RegUseType.reg).filter (regIsLastUse F st.MRI ref) := by
        rw [List.filter_map, filter_congr facts]
        rfl
      rw [same, names]
      exact (sound many).once
    obtain ⟨next, done, kept⟩ := cleanUpUses_total
      (st.after.isEmpty && ref.index + 1 == (F.instrs ref.block).length) onStack once
    refine ⟨next, by simp only [known, bind_eq_bind, bind_some]; exact done, ?_⟩
    intro reg member again
    refine kept reg member fun use inside isLast same => ?_
    subst same
    have notLast := again (calculateUseRegs_operands known use inside)
    rw [← facts use inside, isLast] at notLast
    cases notLast

end Instructions

/-! ### Blocks -/

/-- What holds between two steps of a block: registers kept on the stack are
read in blocks up to this one only, the uses are listed, and the edge sets are
those of the function. -/
structure LocalUses (F : MachineFunction) (bound : Nat) (st : EVMStackAlloc) : Prop where
  entries : ∀ reg assignment, st.regAssignments reg = some assignment →
    assignment.region ≠ .NONSTACK → ∀ other ∈ F.allRefs, reg ∈ other.instr.useRegisters →
      other.block < bound
  listed : UsesListed F st.MRI
  sets : st.edgeSets = functionEdgeSets F

theorem LocalUses.mono {bound later : Nat} {st : EVMStackAlloc} (holds : LocalUses F bound st)
    (less : bound ≤ later) : LocalUses F later st where
  entries := fun reg assignment known elsewhere other member reads =>
    (holds.entries reg assignment known elsewhere other member reads).trans_le less
  listed := holds.listed
  sets := holds.sets

/-- A step keeps this when its new entry, if any, is for a register read within
the bound or is in memory. -/
theorem LocalUses.recorded {bound : Nat} {st next : EVMStackAlloc} {assignment : StackAssignment}
    (holds : LocalUses F bound st)
    (entry : next.regAssignments = recorded reg assignment st.regAssignments)
    (operands : ∃ uses defs, next.MRI = ⟨st.MRI.uses ++ uses, st.MRI.defs ++ defs⟩)
    (sets : next.edgeSets = st.edgeSets)
    (within : assignment.region ≠ .NONSTACK → ∀ other ∈ F.allRefs, reg ∈ other.instr.useRegisters →
      other.block < bound) : LocalUses F bound next where
  entries := by
    intro name held known elsewhere other member reads
    rw [entry] at known
    rcases recorded_cases reg assignment st.regAssignments name with same | ⟨rfl, _, new⟩
    · rw [same] at known
      exact holds.entries name held known elsewhere other member reads
    · rw [new] at known
      cases known
      exact within elsewhere other member reads
  listed := by
    obtain ⟨uses, defs, all⟩ := operands
    intro operand present
    rw [all]
    exact mem_append_left _ (holds.listed operand present)
  sets := sets.trans holds.sets

section Body

variable {block : Nat} {skipped rest : List InstrRef} {ref : InstrRef} {st : EVMStackAlloc}

def ReadIn (refs : List InstrRef) (reg : Register) : Prop :=
  ∃ ref ∈ refs, reg ∈ ref.instr.useRegisters

theorem handleDef_localUses {used defined : EVMStackAlloc} (intervals : LocalIntervals F)
    (member : ref ∈ F.allRefs) (done : handleDef F ref used = some defined)
    (readSomewhere : ∀ defReg ∈ ref.instr.defRegister,
      ¬ (used.MRI.hasOneDef defReg = true ∧ used.MRI.useEmpty defReg = true))
    (holds : LocalUses F (ref.block + 1) used) : LocalUses F (ref.block + 1) defined := by
  rcases handleDef_eq_some done with ⟨_, rfl⟩ | ⟨defReg, isDef, unused | onStack | inMemory⟩
  · exact holds
  · obtain ⟨oneDef, empty, _⟩ := unused
    exact absurd ⟨oneDef, empty⟩ (readSomewhere defReg isDef)
  · obtain ⟨_, _, localDef, rfl⟩ := onStack
    refine holds.recorded rfl ⟨[], [], by simp⟩ rfl fun _ other otherMember reads => ?_
    have sameBlock := (intervals ref member defReg isDef localDef other otherMember reads).1
    omega
  · obtain ⟨_, rfl⟩ := inMemory
    obtain ⟨slot, taken, size, _, result⟩ := storeDef_eq ref defReg used
    rw [result]
    exact holds.recorded rfl ⟨[(defReg, ref.slotAfter.getRegSlot)], [], by simp⟩ rfl
      fun elsewhere => absurd rfl elsewhere

theorem instr_completes (intervals : LocalIntervals F)
    (split : F.instrRefs block = skipped ++ ref :: rest)
    (every : Runs.EveryStep (allocStep F) (StepCompletes F) (instrSteps ref) st)
    (holds : LocalUses F (block + 1) st) (present : OnStack st (ReadIn (ref :: rest))) :
    ∃ next, Runs.run (allocStep F) (instrSteps ref) st = some next ∧
      LocalUses F (block + 1) next ∧ OnStack next (ReadIn rest) := by
  have here : ref ∈ F.instrRefs block := by
    rw [split]
    exact mem_append_right _ mem_cons_self
  have behind : ∀ later ∈ rest, later ∈ F.allRefs ∧ Precedes ref later := by
    intro later member
    have layout := instrRefs_pairwise F block
    rw [split] at layout
    have listed : later ∈ F.instrRefs block := by
      rw [split]
      exact mem_append_right _ (mem_cons_of_mem ref member)
    refine ⟨MachineFunction.mem_allRefs_of_mem_instrRefs listed, ?_⟩
    exact (pairwise_cons.mp (pairwise_append.mp layout).2.1).1 later member
  have member := MachineFunction.mem_allRefs_of_mem_instrRefs here
  have inBlock := (MachineFunction.mem_instrRefs.mp here).1
  have again : ∀ MRI, UsesListed F MRI → ∀ reg, ReadIn rest reg →
      reg ∈ ref.instr.useRegisters → regIsLastUse F MRI ref reg = false := by
    rintro MRI listed reg ⟨later, inside, readsLater⟩ reads
    obtain ⟨laterMember, order⟩ := behind later inside
    exact regIsLastUse_eq_false listed member laterMember reads readsLater order
  have operandsPresent : ∀ reg ∈ ref.instr.useRegisters, (st.lookup reg).region ≠ .NONSTACK →
      reg ∈ st.stack :=
    fun reg reads => present reg ⟨ref, mem_cons_self, reads⟩
  obtain ⟨movable, afterUses⟩ := every
  obtain ⟨used, usesDone, keptByUses, sameStack⟩ := handleUses_total operandsPresent movable
  obtain ⟨readSomewhere, afterDefine⟩ := afterUses used usesDone
  obtain ⟨inserted, defs, stack, rfl, _⟩ := handleUses_frame usesDone
  obtain ⟨defined, defineDone⟩ := handleDef_total readSomewhere
  obtain ⟨cleanUpSound, _⟩ := afterDefine defined defineDone
  have definedHolds : LocalUses F (ref.block + 1) defined :=
    handleDef_localUses intervals member defineDone readSomewhere
      (by rw [inBlock]; exact ⟨holds.entries, holds.listed, holds.sets⟩)
  have definedOnStack : OnStack defined (ReadIn rest) := by
    refine handleDef_onStack defineDone readSomewhere fun reg reads elsewhere => ?_
    obtain ⟨later, inside, readsLater⟩ := reads
    refine keptByUses reg (present reg ⟨later, mem_cons_of_mem ref inside, readsLater⟩ elsewhere)
      fun readsHere => again st.MRI holds.listed reg ⟨later, inside, readsLater⟩ readsHere
  have definedOperands : 2 < ref.instr.explicitUses.length →
      OnStack defined fun reg => reg ∈ ref.instr.useRegisters := by
    intro many
    refine handleDef_onStack defineDone readSomewhere fun reg reads elsewhere => ?_
    have same : stack = st.stack := sameStack (cleanUpSound many).operands
    change reg ∈ stack
    rw [same]
    exact operandsPresent reg reads elsewhere
  obtain ⟨cleaned, cleanDone, keptByClean⟩ :=
    cleanUpDeadRegisters_total cleanUpSound definedOperands
  obtain ⟨between, after, finalStack, rfl, _⟩ := cleanUpDeadRegisters_frame cleanDone
  rw [inBlock] at definedHolds
  refine ⟨passInstr ref { defined with between := between, after := after, stack := finalStack },
    ?_, ⟨definedHolds.entries, definedHolds.listed, definedHolds.sets⟩, ?_⟩
  · simp only [instrSteps, Runs.run_cons, allocStep, usesDone, defineDone, cleanDone,
      bind_some, map_some, Runs.run_nil]
  · intro reg reads elsewhere
    refine keptByClean reg (definedOnStack reg reads elsewhere) fun readsHere => ?_
    exact again defined.MRI definedHolds.listed reg reads readsHere

theorem body_completes (intervals : LocalIntervals F)
    (split : F.instrRefs block = skipped ++ rest)
    (every : Runs.EveryStep (allocStep F) (StepCompletes F) (rest.flatMap instrSteps) st)
    (holds : LocalUses F (block + 1) st) (present : OnStack st (ReadIn rest)) :
    ∃ next, Runs.run (allocStep F) (rest.flatMap instrSteps) st = some next ∧
      LocalUses F (block + 1) next := by
  induction rest generalizing skipped st with
  | nil => exact ⟨st, rfl, holds⟩
  | cons ref others ih =>
      rw [flatMap_cons, Runs.everyStep_append] at every
      obtain ⟨middle, stepped, kept, stillPresent⟩ :=
        instr_completes intervals split every.1 holds present
      have shifted : F.instrRefs block = (skipped ++ [ref]) ++ others := by
        rw [split]
        simp
      obtain ⟨next, finished, final⟩ := ih shifted (every.2 middle stepped) kept stillPresent
      refine ⟨next, ?_, final⟩
      rw [flatMap_cons, Runs.run_append, stepped]
      exact finished

end Body

section Boundaries

variable {block : Nat} {st : EVMStackAlloc}

private theorem popDead_total {xStack : List Register}
    (enough : ∀ reg, xStack.count reg ≤ st.stack.count reg) :
    ∃ next, Runs.run (popIfDead F block) xStack st = some next := by
  induction xStack generalizing st with
  | nil => exact ⟨st, rfl⟩
  | cons xreg rest ih =>
      have onStack : xreg ∈ st.stack := by
        have counted := enough xreg
        rw [count_cons_self] at counted
        exact count_pos_iff.mp (by omega)
      have steps : ∃ middle, popIfDead F block xreg st = some middle ∧
          ∀ reg, rest.count reg ≤ middle.stack.count reg := by
        unfold popIfDead
        by_cases dead : regIsDeadAtBeginningOfMBB F st.MRI xreg block = true
        · rw [if_pos dead]
          obtain ⟨raised, raising, same⟩ := SwapRegToTop_total onStack
          obtain ⟨others, entries⟩ : ∃ others, raised.stack = xreg :: others := by
            have top := SwapRegToTop_top raising
            match stack : raised.stack with
            | [] => simp [stack] at top
            | first :: others =>
                rw [stack] at top
                cases top
                exact ⟨others, rfl⟩
          refine ⟨{ raised with before := raised.before ++ [.POP_r], stack := others }, ?_, ?_⟩
          · simp [raising, insertPopBefore, pop, entries]
          · intro reg
            have counted := enough reg
            rw [entries] at same
            rw [← same.count_eq reg, count_cons, count_cons] at counted
            change rest.count reg ≤ others.count reg
            omega
        · rw [if_neg dead]
          refine ⟨st, rfl, fun reg => ?_⟩
          have counted := enough reg
          rw [count_cons] at counted
          omega
      obtain ⟨middle, stepped, still⟩ := steps
      obtain ⟨next, done⟩ := ih still
      exact ⟨next, by rw [Runs.run_cons, stepped]; exact done⟩

theorem takenOver_total (sets : st.edgeSets = functionEdgeSets F)
    (hasPred : F.predecessors block ≠ []) :
    ∃ xStack memslots, takenOver F block st = some (xStack, memslots) := by
  obtain ⟨pred, others, preds⟩ := exists_cons_of_ne_nil hasPred
  obtain ⟨edgeSets, computed⟩ := EdgeSets.computeEdgeSets_isSome F
  have edge : block ∈ F.successors pred :=
    MachineFunction.mem_successors_iff.mpr (by rw [preds]; exact mem_cons_self)
  obtain ⟨edgeSet, index⟩ := EdgeSets.getEdgeSetIndex_of_edge computed edge
  have same : st.edgeSets = edgeSets := by
    rw [sets, functionEdgeSets, computed]
    rfl
  refine ⟨((st.edgeset2assignment edgeSet).getD ([], [])).1,
    ((st.edgeset2assignment edgeSet).getD ([], [])).2, ?_⟩
  simp only [takenOver, preds, same, index, map_some]

theorem beginOfBlockUpdates_total (block : Nat) (sets : st.edgeSets = functionEdgeSets F) :
    ∃ next, beginOfBlockUpdates F block st = some next := by
  unfold beginOfBlockUpdates
  by_cases noPred : F.predecessors block = []
  · exact ⟨st, if_pos noPred⟩
  · rw [if_neg noPred]
    obtain ⟨xStack, memslots, handed⟩ := takenOver_total sets noPred
    have enough : ∀ reg, xStack.reverse.count reg ≤ (xStack ++ st.stack).count reg := by
      intro reg
      rw [count_append, count_reverse]
      omega
    obtain ⟨popped, popping⟩ : ∃ popped, Runs.run (popIfDead F block) xStack.reverse
        { st with stack := xStack ++ st.stack, memoryAssignment := memslots, before := [] } =
          some popped := popDead_total enough
    obtain ⟨freed, freeing, _⟩ := freeDeadSlots_spec
      (fun reg => regIsDeadAtBeginningOfMBB F popped.MRI reg block) popped.memoryAssignment
    refine ⟨{ popped with memoryAssignment := freed, before := popped.before ++ st.before }, ?_⟩
    simp only [handed, bind_eq_bind, bind_some, popping, freeing]

theorem beginOfBlockUpdates_stack {next : EVMStackAlloc}
    (noEntries : st.edgeset2assignment = fun _ => none)
    (done : beginOfBlockUpdates F block st = some next) : next.stack = st.stack := by
  unfold beginOfBlockUpdates at done
  by_cases noPred : F.predecessors block = []
  · rw [if_pos noPred] at done
    cases done
    rfl
  · rw [if_neg noPred] at done
    obtain ⟨⟨xStack, memslots⟩, handed, done⟩ := bind_eq_some_iff.mp done
    have nothing : xStack = [] := by
      obtain ⟨pred, others, preds⟩ := exists_cons_of_ne_nil noPred
      simp only [takenOver, preds, noEntries, getD_none] at handed
      obtain ⟨_, _, same⟩ := map_eq_some_iff.mp handed
      cases same
      rfl
    subst nothing
    obtain ⟨popped, popping, done⟩ := bind_eq_some_iff.mp done
    cases popping
    obtain ⟨slots, _, done⟩ := bind_eq_some_iff.mp done
    cases done
    rfl

theorem endOfBlockUpdates_total (block : Nat) (sets : st.edgeSets = functionEdgeSets F) :
    ∃ next, endOfBlockUpdates F block st = some next := by
  unfold endOfBlockUpdates
  cases edges : F.successors block with
  | nil => exact ⟨st, rfl⟩
  | cons later rest =>
      obtain ⟨edgeSets, computed⟩ := EdgeSets.computeEdgeSets_isSome F
      have edge : later ∈ F.successors block := by
        rw [edges]
        exact mem_cons_self
      obtain ⟨edgeSet, index⟩ := EdgeSets.getEdgeSetIndex_of_edge computed edge
      have same : st.edgeSets = edgeSets := by
        rw [sets, functionEdgeSets, computed]
        rfl
      simp only [same, index, bind_eq_bind, bind_some]
      exact ⟨_, rfl⟩

theorem analyzeStackArg_total {arg : InstrRef} (member : argRegister arg ∈ st.stack) :
    ∃ next, analyzeStackArg F first arg st = some next := by
  obtain ⟨slot, taken, size, _, result⟩ := allocateMemorySlot_taken (argRegister arg) st
  obtain ⟨depth, rest, found, exchanged, _⟩ := swapTop_of_mem member
  unfold analyzeStackArg
  simp only [result, insertAssignment_eq]
  split
  · obtain ⟨top, others, entries⟩ := exists_cons_of_ne_nil (ne_nil_of_mem member)
    simp only [pop, entries]
    exact ⟨_, rfl⟩
  · split
    · exact ⟨_, rfl⟩
    · simp only [findRegDepth, found, bind_eq_bind, bind_some]
      split
      · simp only [insertSwapBefore, exchanged, map_some, bind_some,
          insertStoreToMemoryBefore, pop]
        exact ⟨_, rfl⟩
      · obtain ⟨top, others, entries⟩ := exists_cons_of_ne_nil (ne_nil_of_mem member)
        simp only [insertStoreToMemoryBefore, pop, entries]
        exact ⟨_, rfl⟩

/-- While stack arguments are handled: those to come are on the stack, and so is
every register that was left there and is read. -/
def ArgsOnStack (F : MachineFunction) (todo : List InstrRef) (st : EVMStackAlloc) : Prop :=
  ∃ kept, st.stack.Perm (todo.map argRegister ++ kept) ∧
    ∀ reg, (st.lookup reg).region ≠ .NONSTACK → ReadIn F.allRefs reg → reg ∈ kept

theorem arg_completes {arg : InstrRef} {todo : List InstrRef} (intervals : LocalIntervals F)
    (isArg : arg ∈ stackArgs F 0) (met : StepCompletes F (.stackArg first arg) st)
    (holds : LocalUses F 1 st) (present : ArgsOnStack F (arg :: todo) st) :
    ∃ next, analyzeStackArg F first arg st = some next ∧ LocalUses F 1 next ∧
      ArgsOnStack F todo next := by
  obtain ⟨kept, same, resident⟩ := present
  have member : arg ∈ F.allRefs :=
    MachineFunction.mem_allRefs_of_mem_instrRefs (mem_instrRefs_of_stackArgs isArg)
  have inEntry : arg.block = 0 :=
    (MachineFunction.mem_instrRefs.mp (mem_instrRefs_of_stackArgs isArg)).1
  have defines := defRegister_of_stackArgs isArg
  have onStack : argRegister arg ∈ st.stack := same.mem_iff.mpr (by simp)
  obtain ⟨next, done⟩ := analyzeStackArg_total onStack
  refine ⟨next, done, ?_⟩
  rw [map_cons, List.cons_append] at same
  rcases analyzeStackArg_eq_some done with ⟨unused, top, rest, entries, rfl⟩ |
    ⟨_, localArg, rfl⟩ | ⟨_, _, slot, taken, size, exchange, depth, swapped, top, rest, _, found,
      exchanged, entries, _, rfl⟩
  · have neverRead : ∀ other ∈ F.allRefs, argRegister arg ∉ other.instr.useRegisters :=
      fun other otherMember => not_read_of_useEmpty holds.listed unused otherMember
    have isTop := met unused
    rw [entries, head?_cons, Option.some.injEq] at isTop
    rw [entries, isTop] at same
    refine ⟨holds.recorded rfl ⟨[], [], by simp⟩ rfl fun _ other otherMember reads => ?_,
      kept, same.cons_inv, fun reg elsewhere reads => ?_⟩
    · exact absurd reads (neverRead other otherMember)
    · have apart : reg ≠ argRegister arg := by
        rintro rfl
        obtain ⟨other, otherMember, readsIt⟩ := reads
        exact neverRead other otherMember readsIt
      rw [lookup_of_recorded_ne rfl apart] at elsewhere
      exact resident reg elsewhere reads
  · refine ⟨holds.recorded rfl ⟨[], [], by simp⟩ rfl fun _ other otherMember reads => ?_,
      argRegister arg :: kept, same.trans perm_middle.symm, fun reg elsewhere reads => ?_⟩
    · have sameBlock := (intervals arg member _ defines localArg other otherMember reads).1
      omega
    · by_cases self : reg = argRegister arg
      · rw [self]
        exact mem_cons_self
      · rw [lookup_of_recorded_ne rfl self] at elsewhere
        exact mem_cons_of_mem _ (resident reg elsewhere reads)
  · have isTop : top = argRegister arg := by
      have place := Stacks.swapTop_getElem? exchanged 0
      rw [if_pos rfl, (Stacks.depthOf_eq_some found).1, entries] at place
      exact Option.some.inj place
    have moved := Stacks.swapTop_perm exchanged
    rw [entries, isTop] at moved
    refine ⟨holds.recorded rfl ⟨[(argRegister arg, first.slotBefore.getRegSlot)], [], by simp⟩ rfl
      (fun elsewhere => absurd rfl elsewhere), kept, (moved.trans same).cons_inv,
      fun reg elsewhere reads => ?_⟩
    by_cases self : reg = argRegister arg
    · subst self
      cases known : st.regAssignments (argRegister arg) with
      | none =>
          rw [lookup_of_recorded_self rfl known] at elsewhere
          exact absurd rfl elsewhere
      | some held =>
          rw [lookup_of_recorded_some rfl (by rw [known]; rfl)] at elsewhere
          exact resident _ elsewhere reads
    · rw [lookup_of_recorded_ne rfl self] at elsewhere
      exact resident reg elsewhere reads

theorem args_complete {args : List InstrRef} (intervals : LocalIntervals F)
    (areArgs : ∀ arg ∈ args, arg ∈ stackArgs F 0)
    (every : Runs.EveryStep (allocStep F) (StepCompletes F) (args.map (.stackArg first)) st)
    (holds : LocalUses F 1 st) (present : ArgsOnStack F args st) :
    ∃ next, Runs.run (allocStep F) (args.map (.stackArg first)) st = some next ∧
      LocalUses F 1 next ∧ ArgsOnStack F [] next := by
  induction args generalizing st with
  | nil => exact ⟨st, rfl, holds, present⟩
  | cons arg todo ih =>
      obtain ⟨middle, stepped, kept, still⟩ :=
        arg_completes intervals (areArgs arg mem_cons_self) every.1 holds present
      obtain ⟨next, finished, final⟩ :=
        ih (fun other member => areArgs other (mem_cons_of_mem arg member))
          (every.2 middle stepped) kept still
      refine ⟨next, ?_, final⟩
      rw [map_cons, Runs.run_cons]
      change (analyzeStackArg F first arg st).bind _ = _
      rw [stepped]
      exact finished

/-- Nothing has been recorded or handed over when the entry block is opened. -/
def EntryFresh (block : Nat) (st : EVMStackAlloc) : Prop :=
  block = 0 → st.edgeset2assignment = (fun _ => none) ∧ ∀ reg, st.regAssignments reg = none

theorem opening_completes (intervals : LocalIntervals F)
    (every : Runs.EveryStep (allocStep F) (StepCompletes F) (.openBlock block :: argSteps F block first) st)
    (holds : LocalUses F block st) (entry : EntryFresh block st) :
    ∃ next, Runs.run (allocStep F) (.openBlock block :: argSteps F block first) st = some next ∧
      LocalUses F (block + 1) next ∧
      (block = 0 → next.edgeset2assignment = (fun _ => none) ∧ ArgsOnStack F [] next) ∧
      (block ≠ 0 → LocalUses F block next) := by
  have openedHolds : LocalUses F block (openBlock F block st) :=
    ⟨holds.entries, holds.listed, holds.sets⟩
  have later := every.2 (openBlock F block st) rfl
  by_cases isEntry : block = 0
  · subst block
    obtain ⟨noEntries, unassigned⟩ := entry rfl
    have start : ArgsOnStack F (stackArgs F 0).reverse (openBlock F 0 st) := by
      refine ⟨[], by simp [openBlock], fun reg elsewhere => ?_⟩
      obtain ⟨assignment, known, _⟩ := lookup_region_of_entry elsewhere
      have missing : (openBlock F 0 st).regAssignments reg = none := unassigned reg
      rw [missing] at known
      cases known
    obtain ⟨next, finished, kept, present⟩ := args_complete intervals
      (fun arg member => mem_reverse.mp member) later (openedHolds.mono (Nat.zero_le 1)) start
    have quiet : ∀ step ∈ argSteps F 0 first, ∀ other, step ≠ .endBlock other := by
      intro step member other
      obtain ⟨arg, _, rfl⟩ := List.mem_map.mp member
      simp
    refine ⟨next, finished, kept, fun _ => ⟨?_, present⟩, fun notEntry => absurd rfl notEntry⟩
    rw [(run_entries quiet finished).1]
    exact noEntries
  · have none : argSteps F block first = [] := by
      unfold argSteps
      rw [stackArgs_eq_nil isEntry]
      rfl
    refine ⟨openBlock F block st, by rw [none]; rfl, openedHolds.mono (Nat.le_succ block),
      fun yes => absurd yes isEntry, fun _ => openedHolds⟩

theorem block_completes (intervals : LocalIntervals F)
    (every : Runs.EveryStep (allocStep F) (StepCompletes F) (blockSteps F block) st)
    (holds : LocalUses F block st) (entry : EntryFresh block st) :
    ∃ next, Runs.run (allocStep F) (blockSteps F block) st = some next ∧
      LocalUses F (block + 1) next := by
  rcases blockSteps_cases F block with
    ⟨_, steps⟩ | ⟨_, _, steps⟩ | ⟨first, rest, body, _, steps⟩
  · rw [steps]
    have widened := holds.mono (Nat.le_succ block)
    exact ⟨closeBlock st, rfl, widened.entries, widened.listed, widened.sets⟩
  · rw [steps] at every
    exact absurd every.1 id
  · have grouped : blockSteps F block = (.openBlock block :: argSteps F block first) ++
        (.beginBlock block :: (bodySteps F block ++ [.endBlock block])) := by
      rw [steps]
      simp
    rw [grouped, Runs.everyStep_append] at every
    obtain ⟨argued, opening, arguedHolds, atEntry, elsewhere⟩ :=
      opening_completes intervals every.1 holds entry
    obtain ⟨started, starting⟩ := beginOfBlockUpdates_total block arguedHolds.sets
    have later := (every.2 argued opening).2 started starting
    have startedHolds : LocalUses F (block + 1) started := by
      rcases beginOfBlockUpdates_eq_some starting with ⟨_, rfl⟩ | ⟨_, _, _, _, _, _, _, _, _, rfl⟩
      · exact arguedHolds
      · exact ⟨arguedHolds.entries, arguedHolds.listed, arguedHolds.sets⟩
    have sameEntries : started.regAssignments = argued.regAssignments := by
      rcases beginOfBlockUpdates_eq_some starting with ⟨_, rfl⟩ | ⟨_, _, _, _, _, _, _, _, _, rfl⟩
      · rfl
      · rfl
    have present : OnStack started (ReadIn (bodyRefs F block)) := by
      rintro reg ⟨ref, inside, reads⟩ notMemory
      obtain ⟨assignment, known, region⟩ := lookup_region_of_entry notMemory
      have member := allRefs_of_bodyRefs inside
      have inBlock := (MachineFunction.mem_instrRefs.mp (mem_instrRefs_of_bodyRefs inside)).1
      by_cases isEntry : block = 0
      · obtain ⟨noEntries, kept, same, resident⟩ := atEntry isEntry
        rw [beginOfBlockUpdates_stack noEntries starting]
        refine same.mem_iff.mpr (mem_append_right _ (resident reg ?_ ⟨ref, member, reads⟩))
        unfold EVMStackAlloc.lookup at notMemory ⊢
        rwa [sameEntries] at notMemory
      · rw [sameEntries] at known
        have bound := (elsewhere isEntry).entries reg assignment known region ref member reads
        omega
    rw [Runs.everyStep_append] at later
    obtain ⟨walked, walking, walkedHolds⟩ := body_completes intervals
      (instrRefs_eq_stackArgs_append F block) later.1 startedHolds present
    obtain ⟨ended, ending⟩ := endOfBlockUpdates_total block walkedHolds.sets
    refine ⟨closeBlock ended, ?_, ?_⟩
    · rw [grouped, Runs.run_append, opening, bind_some, Runs.run_cons]
      change (beginOfBlockUpdates F block argued).bind _ = _
      rw [starting, bind_some, Runs.run_append]
      unfold bodySteps
      rw [walking, bind_some, Runs.run_cons]
      change ((endOfBlockUpdates F block walked).map closeBlock).bind _ = _
      rw [ending]
      rfl
    · rcases endOfBlockUpdates_eq_some ending with ⟨_, rfl⟩ | ⟨_, _, _, _, _, rfl⟩
      · exact ⟨walkedHolds.entries, walkedHolds.listed, walkedHolds.sets⟩
      · exact ⟨walkedHolds.entries, walkedHolds.listed, walkedHolds.sets⟩

end Boundaries

theorem blocks_complete (intervals : LocalIntervals F) {start count : Nat} {st : EVMStackAlloc}
    (every : Runs.EveryStep (allocStep F) (StepCompletes F)
      (blocksSteps F (List.range' start count)) st)
    (holds : LocalUses F start st) (entry : EntryFresh start st) :
    ∃ next, Runs.run (allocStep F) (blocksSteps F (List.range' start count)) st = some next := by
  induction count generalizing start st with
  | zero => exact ⟨st, rfl⟩
  | succ count ih =>
      rw [range'_succ] at every ⊢
      unfold blocksSteps at every ⊢
      rw [flatMap_cons, Runs.everyStep_append] at every
      obtain ⟨middle, stepped, kept⟩ := block_completes intervals every.1 holds entry
      obtain ⟨next, finished⟩ := ih (every.2 middle stepped) kept
        (fun impossible => absurd impossible (Nat.succ_ne_zero start))
      refine ⟨next, ?_⟩
      rw [flatMap_cons, Runs.run_append, stepped]
      exact finished

/-- Reads are assigned exactly when the layout defines first; and when it does
and every step meets its condition, the allocator gets through the function. -/
theorem uses_assigned_and_found (F : MachineFunction) (st : EVMStackAlloc)
    (intervals : LocalIntervals F) :
    (∀ final, runOnMachineFunction F st = some final →
      (Runs.EveryStep (allocStep F) UsesAssigned (functionSteps F) (startState F st) ↔
        LayoutDefinesFirst F)) ∧
    (LayoutDefinesFirst F →
      Runs.EveryStep (allocStep F) (StepCompletes F) (functionSteps F) (startState F st) →
        Runs.EveryStep (allocStep F) UsesAssigned (functionSteps F) (startState F st) ∧
          ∃ final, runOnMachineFunction F st = some final) := by
  refine ⟨fun final finished => usesAssigned_iff_layout finished, fun layout every => ?_⟩
  refine ⟨usesAssigned_of_layout layout st, ?_⟩
  rw [runOnMachineFunction_eq_run]
  unfold functionSteps at every ⊢
  rw [range_eq_range'] at every ⊢
  refine blocks_complete intervals every ⟨?_, fun _ => id, rfl⟩ fun _ => ⟨rfl, fun _ => rfl⟩
  intro reg assignment known
  cases known

/-- A register tested in a loop and another one defined behind it, both read in
the last block, which returns their sum. -/
def loopThenUse : MachineFunction where
  blocks := [
    ⟨[⟨.inst 0x60, some 1, [.imm 1]⟩], [1], []⟩,
    ⟨[⟨.inst 0x57, none, [.reg 1, .mbb 1]⟩], [1, 2], [0, 1]⟩,
    ⟨[⟨.inst 0x60, some 2, [.imm 2]⟩], [3], [1]⟩,
    ⟨[⟨.inst 0x01, some 3, [.reg 1, .reg 2]⟩, ⟨.inst 0xf3, none, [.reg 3]⟩], [], [2]⟩]
  getInterval := fun reg =>
    if reg = 1 then ⟨[(⟨0, 2, 2⟩, ⟨3, 2, 2⟩)], by simp⟩
    else if reg = 2 then ⟨[(⟨2, 2, 2⟩, ⟨3, 2, 2⟩)], by simp⟩
    else ⟨[(⟨3, 2, 2⟩, ⟨3, 5, 2⟩)], by simp⟩
  hasEntry := by simp
  edges := by decide
  nonzero := by decide

theorem uses_assigned_loopThenUse :
    Runs.EveryStep (allocStep loopThenUse) UsesAssigned (functionSteps loopThenUse)
      (startState loopThenUse fresh) ∧
    ∃ final, runOnMachineFunction loopThenUse fresh = some final := by
  have intervals : LocalIntervals loopThenUse := by
    unfold LocalIntervals
    decide
  have layout : LayoutDefinesFirst loopThenUse := by
    unfold LayoutDefinesFirst
    decide
  exact (uses_assigned_and_found loopThenUse fresh intervals).2 layout (by decide)

/-- A block that reads two registers, laid out before the block that defines the
second one; control passes both definitions first. -/
def readLaidOutFirst : MachineFunction where
  blocks := [
    ⟨[⟨.inst 0x60, some 1, [.imm 1]⟩, ⟨.inst 0x56, none, [.mbb 2]⟩], [2], []⟩,
    ⟨[⟨.inst 0xf3, none, [.reg 1, .reg 2]⟩], [], [2]⟩,
    ⟨[⟨.inst 0x60, some 2, [.imm 2]⟩, ⟨.inst 0x56, none, [.mbb 1]⟩], [1], [0]⟩]
  getInterval := fun reg =>
    if reg = 1 then ⟨[(⟨0, 2, 2⟩, ⟨1, 2, 2⟩), (⟨2, 0, 0⟩, ⟨3, 0, 0⟩)], by simp⟩
    else ⟨[(⟨1, 0, 0⟩, ⟨1, 2, 2⟩), (⟨2, 2, 2⟩, ⟨3, 0, 0⟩)], by simp⟩
  hasEntry := by simp
  edges := by decide
  nonzero := by decide

private theorem readLaidOutFirst_not_liveIn : ¬ readLaidOutFirst.LiveIn reg 0 := by
  have atRead : readLaidOutFirst.LiveIn reg 1 → reg = 1 ∨ reg = 2 := by
    intro live
    cases live with
    | here exposed =>
        rcases exposed with used | ⟨_, impossible⟩
        · have listed : reg ∈ [1, 2] := used
          simpa using listed
        · exact absurd impossible id
    | through _ edge _ => cases edge
  have atDefinition : readLaidOutFirst.LiveIn reg 2 → reg = 1 := by
    intro live
    cases live with
    | here exposed =>
        rcases exposed with used | ⟨_, used | ⟨_, impossible⟩⟩
        · cases used
        · cases used
        · exact absurd impossible id
    | through untouched edge later =>
        cases mem_singleton.mp edge
        rcases atRead later with first | second
        · exact first
        · subst second
          exact absurd rfl (untouched _ mem_cons_self)
  intro live
  cases live with
  | here exposed =>
      rcases exposed with used | ⟨_, used | ⟨_, impossible⟩⟩
      · cases used
      · cases used
      · exact absurd impossible id
  | through untouched edge later =>
      cases mem_singleton.mp edge
      have first := atDefinition later
      subst first
      exact absurd rfl (untouched _ mem_cons_self)

/-- No register is live into the function, so every read is behind a definition
on every path; still the second one is read without an entry, from slot 0,
while its definition is stored to slot 1. -/
theorem readLaidOutFirst_unassigned :
    (∀ reg, ¬ readLaidOutFirst.LiveIn reg 0) ∧
    ¬ Runs.EveryStep (allocStep readLaidOutFirst) UsesAssigned (functionSteps readLaidOutFirst)
      (startState readLaidOutFirst fresh) ∧
    (runOnMachineFunction readLaidOutFirst fresh).map (fun last =>
      last.emitted.flatten.filterMap accessOf) = some [(1, 0), (2, 0), (1, 0), (2, 1)] := by
  refine ⟨fun _ => readLaidOutFirst_not_liveIn, fun every => ?_, by decide⟩
  have runs : (Runs.run (allocStep readLaidOutFirst) ((functionSteps readLaidOutFirst).take 11)
      (startState readLaidOutFirst fresh)).isSome = true := by decide
  obtain ⟨middle, reached⟩ := isSome_iff_exists.mp runs
  have observed : (Runs.run (allocStep readLaidOutFirst)
      ((functionSteps readLaidOutFirst).take 11) (startState readLaidOutFirst fresh)).map
        (fun state => state.regAssignments 2) = some none := by decide
  rw [reached, map_some, Option.some.injEq] at observed
  have assigned := Runs.everyStep_iff_reached.mp every _
    (.uses ⟨1, 0, ⟨.inst 0xf3, none, [.reg 1, .reg 2]⟩⟩)
    ((functionSteps readLaidOutFirst).drop 12) middle (by decide) reached
    ⟨1, 0, ⟨.inst 0xf3, none, [.reg 1, .reg 2]⟩⟩ (Or.inl rfl) 2 (by decide)
  rw [observed] at assigned
  cases assigned

end EvmBackend.EVMStackAlloc
