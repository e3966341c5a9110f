/-
Which registers a block finds in their slots, read off the control-flow graph,
the layout and the uses.

A map passes from a block to the one that starts from it, and loses at each
start the registers without a use in the block or behind one of its successors.
Following the maps back to a definition tells which registers have stayed; when
these are all that are live, no live register is freed or loses its slot.
-/

import EvmBackend.StackAlloc.EdgeMaps

namespace EvmBackend.EVMStackAlloc

open List Option

def UsedIn (F : MachineFunction) (reg : Register) (block : Nat) : Prop :=
  ∃ ref ∈ F.instrRefs block, reg ∈ ref.instr.useRegisters

/-- Some use of the register is in the block, or in a block laid out no earlier
than one of its successors. -/
def UsedNear (F : MachineFunction) (reg : Register) (block : Nat) : Prop :=
  UsedIn F reg block ∨ ∃ later ∈ F.successors block, ∃ user, later ≤ user ∧ UsedIn F reg user

def DefinedIn (F : MachineFunction) (reg : Register) (block : Nat) : Prop :=
  ∃ ref ∈ bodyRefs F block, ref.instr.defRegister = some reg

/-- Some definition of the register is laid out before the block's own code. -/
def DefinedAhead (F : MachineFunction) (reg : Register) (block : Nat) : Prop :=
  ∃ ref ∈ F.allRefs, ref.instr.defRegister = some reg ∧
    (ref.block < block ∨ ref ∈ stackArgs F block)

/-- A block that takes nothing over goes on with the map of the block laid out
before it. -/
def Continues (F : MachineFunction) (block : Nat) : Prop :=
  F.instrs block = [] ∨ F.predecessors block = []

instance (F : MachineFunction) (block : Nat) : Decidable (Continues F block) :=
  inferInstanceAs (Decidable (F.instrs block = [] ∨ F.predecessors block = []))

def mapSource (F : MachineFunction) : Nat → Option Nat
  | 0 => none
  | block + 1 => if Continues F (block + 1) then some block else lastWriter F (block + 1)

/-- The maps lead from a definition of the register to the block, and no start
of a block on the way drops it. -/
inductive Carried (F : MachineFunction) (reg : Register) : Nat → Prop
  | argument {arg : InstrRef} (entered : F.predecessors 0 = []) (isArg : arg ∈ stackArgs F 0)
      (defines : arg.instr.defRegister = some reg) : Carried F reg 0
  | fromBody {block source : Nat} (left : mapSource F block = some source)
      (defined : DefinedIn F reg source) (kept : Continues F block ∨ UsedNear F reg block) :
      Carried F reg block
  | onward {block source : Nat} (left : mapSource F block = some source)
      (carried : Carried F reg source) (kept : Continues F block ∨ UsedNear F reg block) :
      Carried F reg block

/-- Every register live at the code of a block that is defined ahead of it, or
named by the map before anything is compiled, is carried to the block. -/
def CarriesLive (F : MachineFunction) (initial : List Register) : Prop :=
  ∀ block reg, F.instrs block ≠ [] → LiveAtBody F reg block →
    (DefinedAhead F reg block ∨ reg ∈ initial) → Carried F reg block

variable {F : MachineFunction}

variable {reg : Register} {step : AllocStep}

/-! ### Uses by layout and by index -/

theorem nearUse_of_usedNear {block : Nat} (near : UsedNear F reg block) :
    NearUse F F.regInfo reg block := by
  have listed : ∀ user, ∀ ref ∈ F.instrRefs user, reg ∈ ref.instr.useRegisters →
      (⟨user, 3 * ref.index + 2, 2⟩ : SlotIndex) ∈ F.regInfo.useOperands reg := by
    intro user ref member reads
    obtain ⟨rfl, _⟩ := MachineFunction.mem_instrRefs.mp member
    refine List.mem_map.mpr ⟨(reg, ref.slotIndex.getRegSlot), mem_filter.mpr ⟨?_, ?_⟩, rfl⟩
    · exact mem_flatMap.mpr ⟨ref, MachineFunction.mem_allRefs_of_mem_instrRefs member,
        List.mem_map_of_mem reads⟩
    · exact decide_eq_true rfl
  rcases near with ⟨ref, member, reads⟩ | ⟨later, edge, user, order, ref, member, reads⟩
  · refine ⟨_, listed block ref member reads, Or.inl ⟨?_, ?_⟩⟩
    · simp [SlotIndex.isEarlierInstr, MachineFunction.getMBBStartIdx]
    · simp [SlotIndex.isEarlierInstr, MachineFunction.getMBBEndIdx]
  · refine ⟨_, listed user ref member reads, Or.inr ⟨later, edge, ?_⟩⟩
    simp only [SlotIndex.isEarlierInstr_iff, MachineFunction.getMBBStartIdx]
    omega

theorem NearUse.mono {block : Nat} {MRI : MachineRegisterInfo}
    (near : NearUse F F.regInfo reg block)
    (more : ∃ uses defs, MRI = ⟨F.regInfo.uses ++ uses, F.regInfo.defs ++ defs⟩) :
    NearUse F MRI reg block := by
  obtain ⟨uses, defs, rfl⟩ := more
  obtain ⟨useSlot, member, near⟩ := near
  refine ⟨useSlot, ?_, near⟩
  simp only [MachineRegisterInfo.useOperands, filter_append, map_append]
  exact mem_append_left _ member

/-! ### Definitions visited before a block -/

theorem mapSource_lt {block source : Nat} (left : mapSource F block = some source) :
    source < block := by
  cases block with
  | zero => cases left
  | succ previous =>
      rw [mapSource] at left
      split at left
      · cases left
        exact Nat.lt_succ_self _
      · exact lastWriter_lt left

theorem carried_definedAhead {block : Nat} (carried : Carried F reg block) :
    DefinedAhead F reg block := by
  induction carried with
  | argument _ isArg defines =>
      exact ⟨_, MachineFunction.mem_allRefs_of_mem_instrRefs (mem_instrRefs_of_stackArgs isArg),
        defines, Or.inr isArg⟩
  | fromBody left defined =>
      obtain ⟨ref, member, defines⟩ := defined
      have smaller := mapSource_lt left
      rw [← block_of_bodyRefs member] at smaller
      exact ⟨ref, allRefs_of_bodyRefs member, defines, Or.inl smaller⟩
  | onward left _ _ ih =>
      obtain ⟨ref, member, defines, earlier⟩ := ih
      have smaller := mapSource_lt left
      refine ⟨ref, member, defines, Or.inl ?_⟩
      rcases earlier with below | isArg
      · exact below.trans smaller
      · rwa [(MachineFunction.mem_instrRefs.mp (mem_instrRefs_of_stackArgs isArg)).1]

theorem definedUpTo_of_left {source count : Nat} (below : source < count)
    (left : DefinedIn F reg source ∨ Carried F reg source) :
    ∃ ref ∈ F.allRefs, ref.instr.defRegister = some reg ∧ ref.block < count := by
  rcases left with ⟨ref, member, defines⟩ | carried
  · refine ⟨ref, allRefs_of_bodyRefs member, defines, ?_⟩
    rwa [block_of_bodyRefs member]
  · obtain ⟨ref, member, defines, earlier | isArg⟩ := carried_definedAhead carried
    · exact ⟨ref, member, defines, earlier.trans below⟩
    · refine ⟨ref, member, defines, ?_⟩
      rwa [(MachineFunction.mem_instrRefs.mp (mem_instrRefs_of_stackArgs isArg)).1]

theorem mem_blocksSteps_range {count : Nat} :
    step ∈ blocksSteps F (List.range count) ↔ ∃ block < count, step ∈ blockSteps F block := by
  simp only [blocksSteps, mem_flatMap, mem_range]

theorem stateAfter_eq_run {st : EVMStackAlloc} {count : Nat} :
    stateAfter F st count =
      Runs.run (allocStep F) (blocksSteps F (List.range count)) (startState F st) := by
  rw [run_blocksSteps]
  rfl

section Reached

variable {st reached : EVMStackAlloc} {count : Nat}

private theorem steps_of_range (within : count ≤ F.blocks.length)
    (member : step ∈ blocksSteps F (List.range count)) : step ∈ functionSteps F := by
  obtain ⟨block, below, inside⟩ := mem_blocksSteps_range.mp member
  exact mem_functionSteps.mpr ⟨block, by omega, inside⟩

theorem definedBy_of_blocksSteps (within : count ≤ F.blocks.length)
    (member : step ∈ blocksSteps F (List.range count)) (defines : definedBy step = some reg) :
    ∃ ref ∈ F.allRefs, ref.instr.defRegister = some reg ∧ ref.block < count := by
  obtain ⟨block, below, inside⟩ := mem_blocksSteps_range.mp member
  obtain ⟨ref, known, defined⟩ := bind_eq_some_iff.mp defines
  refine ⟨ref, defRef_mem_allRefs (steps_of_range within member) known, defined, ?_⟩
  cases step with
  | define other =>
      cases known
      rw [block_of_bodyRefs (bodyRef_of_mem_blockSteps inside rfl)]
      exact below
  | stackArg first arg =>
      cases known
      obtain ⟨rfl, isArg⟩ := stackArg_of_mem_blockSteps inside
      rw [(MachineFunction.mem_instrRefs.mp (mem_instrRefs_of_stackArgs isArg)).1]
      exact below
  | emptyBlock => cases known
  | noInsertionPoint | openBlock | beginBlock | uses | cleanUp | endBlock => cases known

theorem visited_of_block_lt (known : stateAfter F st count = some reached) {ref : InstrRef}
    (member : ref ∈ F.allRefs) (below : ref.block < count)
    (defines : ref.instr.defRegister = some reg) :
    ∃ step ∈ blocksSteps F (List.range count), definedBy step = some reg := by
  have listed : ref ∈ F.instrRefs ref.block :=
    MachineFunction.mem_instrRefs.mpr ⟨rfl, MachineFunction.mem_allRefs.mp member⟩
  rw [instrRefs_eq_stackArgs_append] at listed
  rcases mem_append.mp listed with isArg | inBody
  · have entry : ref.block = 0 := by
      by_contra later
      rw [stackArgs_eq_nil later] at isArg
      cases isArg
    rw [entry] at isArg below
    rw [stateAfter_eq_run] at known
    rcases blockSteps_cases F 0 with ⟨empty, _⟩ | ⟨_, _, steps⟩ | ⟨first, rest, _, _, steps⟩
    · have present := mem_instrRefs_of_stackArgs isArg
      simp [MachineFunction.instrRefs, empty] at present
    · refine absurd (mem_blocksSteps_range.mpr ⟨0, below, ?_⟩) (noInsertionPoint_not_mem known)
      rw [steps]
      exact mem_singleton_self _
    · refine ⟨.stackArg first ref, mem_blocksSteps_range.mpr ⟨0, below, ?_⟩, defines⟩
      rw [steps]
      refine mem_cons_of_mem _ (mem_append_left _ ?_)
      exact List.mem_map.mpr ⟨ref, mem_reverse.mpr isArg, rfl⟩
  · exact ⟨.define ref, mem_blocksSteps_range.mpr ⟨ref.block, below,
      mem_blockSteps_of_bodyRefs inBody (by simp [instrSteps])⟩, defines⟩

theorem stateAfter_assigned (within : count ≤ F.blocks.length)
    (known : stateAfter F st count = some reached) (reg : Register) :
    (reached.regAssignments reg).isSome = true ↔
      ∃ ref ∈ F.allRefs, ref.instr.defRegister = some reg ∧ ref.block < count := by
  have run := known
  rw [stateAfter_eq_run] at run
  rw [run_assigned (fun _ => steps_of_range within) run reg]
  constructor
  · rintro (fromStart | ⟨step, member, defines⟩)
    · cases fromStart
    · exact definedBy_of_blocksSteps within member defines
  · rintro ⟨ref, member, defines, below⟩
    exact Or.inr (visited_of_block_lt known member below defines)

/-- What holds in every block of a function, started from where the blocks
before it end, holds throughout. -/
theorem everyStep_of_blocks {condition : AllocStep → EVMStackAlloc → Prop}
    (each : ∀ block < F.blocks.length, ∀ reached, stateAfter F st block = some reached →
      Runs.EveryStep (allocStep F) condition (blockSteps F block) reached) :
    Runs.EveryStep (allocStep F) condition (functionSteps F) (startState F st) := by
  have upTo : ∀ count ≤ F.blocks.length, Runs.EveryStep (allocStep F) condition
      (blocksSteps F (List.range count)) (startState F st) := by
    intro count within
    induction count with
    | zero => trivial
    | succ count ih =>
        rw [blocksSteps, range_succ, flatMap_append, Runs.everyStep_append]
        refine ⟨ih (by omega), fun middle walked => ?_⟩
        rw [flatMap_singleton]
        exact each count (by omega) middle (stateAfter_eq_run.trans walked)
  exact upTo F.blocks.length (Nat.le_refl _)

theorem everyStep_block {condition : AllocStep → EVMStackAlloc → Prop} {block : Nat}
    (within : block < F.blocks.length) (known : stateAfter F st block = some reached)
    (every : Runs.EveryStep (allocStep F) condition (functionSteps F) (startState F st)) :
    Runs.EveryStep (allocStep F) condition (blockSteps F block) reached := by
  obtain ⟨later, size⟩ := Nat.exists_eq_add_of_lt within
  have split : functionSteps F = blocksSteps F (List.range block) ++
      (blockSteps F block ++ blocksSteps F ((List.range later).map (block + 1 + ·))) := by
    unfold functionSteps blocksSteps
    rw [size, Nat.add_right_comm, range_add, range_succ]
    simp
  rw [split, Runs.everyStep_append] at every
  exact (Runs.everyStep_append.mp (every.2 reached (stateAfter_eq_run.symm.trans known))).1

end Reached

/-! ### Occupants of the maps -/

theorem run_keeps_entry {steps : List AllocStep} {st last : EVMStackAlloc}
    (finished : Runs.run (allocStep F) steps st = some last) {assignment : StackAssignment}
    (known : st.regAssignments reg = some assignment) :
    last.regAssignments reg = some assignment := by
  apply Runs.run_keeps (fun state => state.regAssignments reg = some assignment) _ known finished
  intro step state next known done
  cases allocStep_accessEffect done with
  | loads silent same size kept added =>
      rw [same]
      exact known
  | records other held silent elsewhere entry size accesses =>
      rw [entry]
      exact recorded_of_some known
  | stores other slot stored placed entry accesses =>
      rw [entry]
      exact recorded_of_some known

/-- A register a map may name: one the first map named already, or one that has
been given an entry since. -/
def Nameable (initial : List Register) (st : EVMStackAlloc) (reg : Register) : Prop :=
  reg = 0 ∨ reg ∈ initial ∨ (st.regAssignments reg).isSome = true

structure OccupantsKnown (initial : List Register) (st : EVMStackAlloc) : Prop where
  current : ∀ reg ∈ st.memoryAssignment, Nameable initial st reg
  handed : ∀ index entry, st.edgeset2assignment index = some entry →
    ∀ reg ∈ entry.2, Nameable initial st reg

section Occupants

variable {initial : List Register} {st next : EVMStackAlloc}

section

variable (occupants : OccupantsKnown initial st)

include occupants

theorem OccupantsKnown.unchanged
    (keeps : ∀ other, Nameable initial st other → Nameable initial next other)
    (slots : next.memoryAssignment = st.memoryAssignment)
    (edges : next.edgeset2assignment = st.edgeset2assignment) : OccupantsKnown initial next := by
  constructor
  · intro reg member
    rw [slots] at member
    exact keeps reg (occupants.current reg member)
  · intro index entry known reg member
    rw [edges] at known
    exact keeps reg (occupants.handed index entry known reg member)

theorem OccupantsKnown.taken {slot : Nat} {assignment : StackAssignment}
    (keeps : ∀ other, Nameable initial st other → Nameable initial next other)
    (placed : SlotTaken reg slot st.memoryAssignment next.memoryAssignment)
    (entry : next.regAssignments = recorded reg assignment st.regAssignments)
    (edges : next.edgeset2assignment = st.edgeset2assignment) : OccupantsKnown initial next := by
  constructor
  · intro other member
    obtain ⟨place, here⟩ := getElem?_of_mem member
    rcases placed.origin place other here with rfl | old
    · obtain ⟨held, known⟩ := recorded_isSome other assignment st.regAssignments
      exact Or.inr (Or.inr (by rw [entry, known]; rfl))
    · exact keeps other (occupants.current other (mem_of_getElem? old))
  · intro index held known other member
    rw [edges] at known
    exact keeps other (occupants.handed index held known other member)

theorem OccupantsKnown.incoming {block : Nat}
    (member : reg ∈ incomingSlots F block st) : Nameable initial st reg := by
  unfold incomingSlots at member
  split at member
  · exact occupants.current reg member
  · cases handed : takenOver F block st with
    | none =>
        rw [handed] at member
        cases member
    | some taken =>
        obtain ⟨xStack, memslots⟩ := taken
        rw [handed] at member
        rcases takenOver_eq_some handed with empty | ⟨index, entry⟩
        · rw [map_some, getD_some, empty] at member
          cases member
        · exact occupants.handed index _ entry reg member

theorem allocStep_occupantsKnown
    (done : allocStep F step st = some next) : OccupantsKnown initial next := by
  have keeps : ∀ other, Nameable initial st other → Nameable initial next other := by
    rintro other (free | named | assigned)
    · exact Or.inl free
    · exact Or.inr (Or.inl named)
    · obtain ⟨assignment, known⟩ := isSome_iff_exists.mp assigned
      have single : Runs.run (allocStep F) [step] st = some next := by
        rw [Runs.run_cons, done]
        rfl
      exact Or.inr (Or.inr (by rw [run_keeps_entry single known]; rfl))
  cases step with
  | emptyBlock =>
      cases done
      exact ⟨occupants.current, occupants.handed⟩
  | noInsertionPoint => cases done
  | openBlock block =>
      cases done
      exact ⟨occupants.current, occupants.handed⟩
  | stackArg first arg =>
      rcases analyzeStackArg_eq_some done with ⟨_, _, _, _, rfl⟩ | ⟨_, _, rfl⟩ |
        ⟨_, _, _, _, _, _, _, _, _, _, placed, _, _, _, _, rfl⟩
      · exact occupants.unchanged keeps rfl rfl
      · exact occupants.unchanged keeps rfl rfl
      · exact occupants.taken keeps placed.toSlotTaken rfl rfl
  | beginBlock block =>
      rcases beginOfBlockUpdates_eq_some done with
        ⟨_, rfl⟩ | ⟨xStack, memslots, slots, _, _, hasPred, handed, exactly, _, rfl⟩
      · exact occupants
      · refine ⟨fun reg member => ?_, occupants.handed⟩
        by_cases free : reg = 0
        · exact Or.inl free
        · obtain ⟨place, here⟩ := getElem?_of_mem member
          have taken := ((exactly place reg free).mp here).1
          have incoming : reg ∈ incomingSlots F block st := by
            rw [incomingSlots, if_neg hasPred, handed]
            exact mem_of_getElem? taken
          exact occupants.incoming incoming
  | uses ref =>
      obtain ⟨_, _, _, rfl, _⟩ := handleUses_frame done
      exact ⟨occupants.current, occupants.handed⟩
  | define ref =>
      rcases handleDef_eq_some done with ⟨_, rfl⟩ | ⟨defReg, _, unused | onStack | inMemory⟩
      · exact occupants
      · obtain ⟨_, _, _, _, _, rfl⟩ := unused
        exact occupants.unchanged keeps rfl rfl
      · obtain ⟨_, _, _, rfl⟩ := onStack
        exact occupants.unchanged keeps rfl rfl
      · obtain ⟨_, rfl⟩ := inMemory
        obtain ⟨slot, taken, size, placed, result⟩ := storeDef_eq ref defReg st
        rw [result] at keeps ⊢
        exact occupants.taken keeps placed.toSlotTaken rfl rfl
  | cleanUp ref =>
      obtain ⟨cleaned, cleaning, rfl⟩ := map_eq_some_iff.mp done
      obtain ⟨_, _, _, rfl, _⟩ := cleanUpDeadRegisters_frame cleaning
      exact ⟨occupants.current, occupants.handed⟩
  | endBlock block =>
      obtain ⟨ended, ending, rfl⟩ := map_eq_some_iff.mp done
      rcases endOfBlockUpdates_eq_some ending with ⟨_, rfl⟩ | ⟨_, _, edgeSetIndex, _, _, rfl⟩
      · exact ⟨occupants.current, occupants.handed⟩
      · refine ⟨occupants.current, fun index entry known reg member => ?_⟩
        by_cases written : index = edgeSetIndex
        · rw [written] at known
          simp only [closeBlock, Function.update_self, Option.some.injEq] at known
          rw [← known] at member
          exact occupants.current reg member
        · simp only [closeBlock, Function.update_of_ne written] at known
          exact occupants.handed index entry known reg member

end

end Occupants

/-! ### The start of a block -/

theorem liveAtBody_of_liveIn {block : Nat} (later : block ≠ 0) (live : F.LiveIn reg block) :
    LiveAtBody F reg block := by
  have whole : (bodyRefs F block).map InstrRef.instr = F.instrs block := by
    have listed := instrRefs_eq_stackArgs_append F block
    rw [stackArgs_eq_nil later, nil_append] at listed
    rw [← listed]
    simp [MachineFunction.instrRefs, Function.comp_def]
  unfold LiveAtBody
  rw [whole]
  exact Liveness.liveIn_iff_liveBefore.mp live

theorem Carried.source {block : Nat} (carried : Carried F reg block) (later : block ≠ 0) :
    ∃ source, mapSource F block = some source ∧ (DefinedIn F reg source ∨ Carried F reg source) ∧
      (Continues F block ∨ UsedNear F reg block) := by
  cases carried with
  | argument => exact absurd rfl later
  | fromBody left defined kept => exact ⟨_, left, Or.inl defined, kept⟩
  | onward left carried kept => exact ⟨_, left, Or.inr carried, kept⟩

theorem Carried.entered (carried : Carried F reg 0) : F.predecessors 0 = [] := by
  cases carried with
  | argument entered => exact entered
  | fromBody left => cases left
  | onward left => cases left

/-- The state the updates at the start of a block begin from, with the stack
arguments of the block visited. -/
structure AtStart (F : MachineFunction) (st : EVMStackAlloc) (block : Nat)
    (reached argued : EVMStackAlloc) : Prop where
  within : block < F.blocks.length
  known : stateAfter F st block = some reached
  nonempty : F.instrs block ≠ []
  arguing : ∃ first rest, bodyRefs F block = first :: rest ∧
    Runs.run (allocStep F) (.openBlock block :: argSteps F block first) reached = some argued

section Start

variable {st reached argued started : EVMStackAlloc} {block : Nat}

section

variable (start : AtStart F st block reached argued)

include start

theorem AtStart.run :
    ∃ steps, (∀ step ∈ steps, step ∈ functionSteps F) ∧
      (∀ step ∈ steps, ∀ reg, definedBy step = some reg → DefinedAhead F reg block) ∧
      Runs.run (allocStep F) steps (startState F st) = some argued := by
  obtain ⟨within, known, nonempty, first, rest, body, arguing⟩ := start
  refine ⟨blocksSteps F (List.range block) ++ .openBlock block :: argSteps F block first,
    fun step member => ?_, fun step member reg defines => ?_, ?_⟩
  · rcases mem_append.mp member with earlier | here
    · exact steps_of_range (Nat.le_of_lt within) earlier
    · refine mem_functionSteps.mpr ⟨block, within, ?_⟩
      unfold blockSteps
      rw [if_neg nonempty, body]
      exact mem_append_left _ (mem_append_left _ here)
  · rcases mem_append.mp member with earlier | here
    · obtain ⟨ref, listed, defined, below⟩ :=
        definedBy_of_blocksSteps (Nat.le_of_lt within) earlier defines
      exact ⟨ref, listed, defined, Or.inl below⟩
    · rcases mem_cons.mp here with rfl | isArg
      · cases defines
      · obtain ⟨arg, present, rfl⟩ := List.mem_map.mp isArg
        have inBlock := mem_reverse.mp present
        exact ⟨arg, MachineFunction.mem_allRefs_of_mem_instrRefs
          (mem_instrRefs_of_stackArgs inBlock), defines, Or.inr inBlock⟩
  · rw [Runs.run_append, ← stateAfter_eq_run, known]
    exact arguing

theorem AtStart.definedAhead
    (assigned : (argued.regAssignments reg).isSome = true) : DefinedAhead F reg block := by
  obtain ⟨steps, members, ahead, ran⟩ := start.run
  rcases (run_assigned members ran reg).mp assigned with fromStart | ⟨step, member, defines⟩
  · cases fromStart
  · exact ahead step member reg defines

theorem AtStart.occupants :
    OccupantsKnown st.memoryAssignment argued := by
  obtain ⟨steps, _, _, ran⟩ := start.run
  refine Runs.run_keeps (OccupantsKnown st.memoryAssignment)
    (fun _ _ _ occupants done => allocStep_occupantsKnown occupants done) ?_ ran
  exact ⟨fun reg member => Or.inr (Or.inl member), fun _ _ impossible => by cases impossible⟩

theorem AtStart.alive (near : UsedNear F reg block) :
    regIsDeadAtBeginningOfMBB F argued.MRI reg block = false := by
  obtain ⟨steps, _, _, ran⟩ := start.run
  exact regIsDeadAtBeginningOfMBB_eq_false.mpr ((nearUse_of_usedNear near).mono (run_MRI ran))

theorem AtStart.eq_openBlock (later : block ≠ 0) :
    argued = openBlock F block reached := by
  obtain ⟨_, _, _, first, _, _, arguing⟩ := start
  unfold argSteps at arguing
  rw [stackArgs_eq_nil later] at arguing
  cases arguing
  rfl

end

theorem AtStart.taken_nil (start : AtStart F st 0 reached argued) {xStack memslots : List Register}
    (handed : takenOver F 0 argued = some (xStack, memslots)) : memslots = [] := by
  obtain ⟨_, known, _, first, _, _, arguing⟩ := start
  cases known
  have untouched := (run_entries (fun step member other => ?_) arguing).1
  · rcases takenOver_eq_some handed with empty | ⟨index, entry⟩
    · exact empty
    · rw [untouched] at entry
      cases entry
  · rcases mem_cons.mp member with rfl | isArg
    · simp
    · obtain ⟨arg, _, rfl⟩ := List.mem_map.mp isArg
      simp

theorem Carried.alive (carried : Carried F reg block) (start : AtStart F st block reached argued)
    (hasPred : F.predecessors block ≠ []) :
    regIsDeadAtBeginningOfMBB F argued.MRI reg block = false := by
  have later : block ≠ 0 := by
    rintro rfl
    exact hasPred carried.entered
  obtain ⟨_, _, _, (empty | noPred) | near⟩ := carried.source later
  · exact absurd empty start.nonempty
  · exact absurd noPred hasPred
  · exact start.alive near

theorem AtStart.freesDeadOnly (start : AtStart F st block reached argued)
    (carries : CarriesLive F st.memoryAssignment) :
    FreesDeadOnly F (.beginBlock block) argued := by
  rintro _ reg same ⟨hasPred, nonzero, member, dead⟩ live
  cases same
  by_cases entry : block = 0
  · subst entry
    rw [incomingSlots, if_neg hasPred] at member
    cases handed : takenOver F 0 argued with
    | none =>
        rw [handed] at member
        cases member
    | some taken =>
        rw [handed, map_some, getD_some, start.taken_nil handed] at member
        cases member
  · have source : DefinedAhead F reg block ∨ reg ∈ st.memoryAssignment := by
      rcases start.occupants.incoming member with zero | named | assigned
      · exact absurd zero nonzero
      · exact Or.inr named
      · exact Or.inl (start.definedAhead assigned)
    have carried := carries block reg start.nonempty (liveAtBody_of_liveIn entry live) source
    rw [carried.alive start hasPred] at dead
    cases dead

/-- Every map left so far has the registers carried to its block, or defined in
it, in their recorded slots. -/
def LeavesCarried (F : MachineFunction) (st : EVMStackAlloc) (count : Nat)
    (reached : EVMStackAlloc) : Prop :=
  ∀ source < count, ∀ reg slot, reg ≠ 0 → (DefinedIn F reg source ∨ Carried F reg source) →
    reached.regAssignments reg = some ⟨.NONSTACK, slot⟩ →
      (outSlots F st source)[slot]? = some reg

theorem outSlots_eq {source : Nat} (known : stateAfter F st (source + 1) = some reached) :
    outSlots F st source = reached.memoryAssignment := by
  unfold outSlots
  rw [known]
  rfl

theorem AtStart.carriesOver (start : AtStart F st block reached argued)
    (starting : beginOfBlockUpdates F block argued = some started)
    (leaves : LeavesCarried F st block reached)
    (entry : block = 0 → Resident argued fun _ => True) :
    Resident started fun reg => Carried F reg block := by
  intro reg slot nonzero carried known
  by_cases later : block = 0
  · subst later
    rcases beginOfBlockUpdates_eq_some starting with ⟨_, rfl⟩ | ⟨_, _, _, _, _, hasPred, _⟩
    · exact entry rfl reg slot nonzero trivial known
    · exact absurd carried.entered hasPred
  · obtain ⟨source, left, leavesIt, _⟩ := carried.source later
    have below := mapSource_lt left
    have reachedStart := start.known
    cases start.eq_openBlock later
    obtain ⟨previous, rfl⟩ := Nat.exists_eq_succ_of_ne_zero later
    rcases beginOfBlockUpdates_eq_some starting with
      ⟨noPred, rfl⟩ | ⟨xStack, memslots, slots, _, _, hasPred, handed, exactly, _, rfl⟩
    · have continues : Continues F (previous + 1) := Or.inr noPred
      rw [mapSource, if_pos continues] at left
      cases left
      have here := leaves source below reg slot nonzero leavesIt known
      rwa [outSlots_eq reachedStart] at here
    · have takes : ¬ Continues F (previous + 1) := by
        rintro (empty | noPred)
        · exact start.nonempty empty
        · exact hasPred noPred
      rw [mapSource, if_neg takes] at left
      have here := leaves source below reg slot nonzero leavesIt known
      have taken := takenOver_eq_lastWriter reachedStart handed
      rw [left] at taken
      refine (exactly slot reg nonzero).mpr ⟨?_, carried.alive start hasPred⟩
      rw [taken]
      exact here

theorem empty_resident (empty : F.instrs block = []) (known : stateAfter F st block = some reached)
    (leaves : LeavesCarried F st block reached) :
    Resident (closeBlock reached) fun reg => DefinedIn F reg block ∨ Carried F reg block := by
  have bare : F.instrRefs block = [] := by simp [MachineFunction.instrRefs, empty]
  intro reg slot nonzero held known'
  rcases held with ⟨ref, member, _⟩ | carried
  · have present := mem_instrRefs_of_bodyRefs member
    rw [bare] at present
    cases present
  · cases block with
    | zero =>
        cases carried with
        | argument _ isArg =>
            have present := mem_instrRefs_of_stackArgs isArg
            rw [bare] at present
            cases present
        | fromBody left => cases left
        | onward left => cases left
    | succ previous =>
        obtain ⟨source, left, leavesIt, _⟩ := carried.source (Nat.succ_ne_zero previous)
        have continues : Continues F (previous + 1) := Or.inl empty
        have below := mapSource_lt left
        rw [mapSource, if_pos continues] at left
        cases left
        have here := leaves previous below reg slot nonzero leavesIt known'
        rwa [outSlots_eq known] at here

end Start

/-! ### Through a block -/

/-- Registers placed in memory again find their slots, and are known to have
more than one definition. -/
structure SlotsFound (F : MachineFunction) (step : AllocStep) (st : EVMStackAlloc) : Prop where
  finds : FindsSlot F step st
  several : ∀ ref reg, step = .define ref → ref.instr.defRegister = some reg →
    (st.regAssignments reg).isSome = true → st.MRI.hasOneDef reg = false

theorem body_keepsLiveSlots {block : Nat} {done rest : List InstrRef} {st : EVMStackAlloc}
    {kept : Register → Prop} (split : F.instrRefs block = done ++ rest)
    (every : Runs.EveryStep (allocStep F) (SlotsFound F) (rest.flatMap instrSteps) st)
    (resident : Resident st fun reg =>
      kept reg ∨ F.LiveBefore reg block (rest.map InstrRef.instr)) :
    Runs.EveryStep (allocStep F) (KeepsLiveSlots F) (rest.flatMap instrSteps) st ∧
      ∀ last, Runs.run (allocStep F) (rest.flatMap instrSteps) st = some last →
        Resident last fun reg => (∃ ref ∈ rest, ref.instr.defRegister = some reg) ∨ kept reg := by
  induction rest generalizing st done kept with
  | nil =>
      refine ⟨trivial, fun last same reg slot nonzero held known => ?_⟩
      cases same
      rcases held with ⟨_, member, _⟩ | before
      · cases member
      · exact resident reg slot nonzero (Or.inl before) known
  | cons ref rest ih =>
      obtain ⟨inBlock, remaining⟩ := instrs_drop_eq split
      have shifted : F.instrRefs block = (done ++ [ref]) ++ rest := by
        rw [split, List.append_assoc, singleton_append]
      have walked : ∀ used defined swept, allocStep F (.uses ref) st = some used →
          allocStep F (.define ref) used = some defined →
          allocStep F (.cleanUp ref) defined = some swept →
          Runs.EveryStep (allocStep F) (SlotsFound F) (rest.flatMap instrSteps) swept ∧
            Resident swept fun reg => (ref.instr.defRegister = some reg ∨ kept reg) ∨
              F.LiveBefore reg block (rest.map InstrRef.instr) := by
        intro used defined swept handled handledDef handledClean
        obtain ⟨found, later⟩ := every.2 used handled
        obtain ⟨_, later⟩ := later defined handledDef
        refine ⟨later swept handledClean, ?_⟩
        obtain ⟨inserted, defs, stack, rfl, _⟩ := handleUses_frame handled
        obtain ⟨cleaned, sweeping, rfl⟩ := map_eq_some_iff.mp handledClean
        obtain ⟨_, _, _, rfl, _⟩ := cleanUpDeadRegisters_frame sweeping
        have stored : Resident defined fun reg => (ref.instr.defRegister = some reg ∨ kept reg) ∨
            F.LiveBefore reg block (rest.map InstrRef.instr) := by
          refine handleDef_resident handledDef resident found.finds
            (fun reg => found.several ref reg rfl) (fun other notDef live => ?_)
          rcases live with (here | before) | live
          · exact absurd here notDef
          · exact Or.inl before
          · exact Or.inr (live.of_rest notDef)
        exact stored
      refine ⟨⟨keepsLiveSlots_of_silent rfl, fun used handled => ⟨?_, fun defined handledDef =>
        ⟨keepsLiveSlots_of_silent rfl, fun swept handledClean => ?_⟩⟩⟩, fun last finished => ?_⟩
      · obtain ⟨inserted, defs, stack, rfl, _⟩ := handleUses_frame handled
        intro reg other slot stored apart nonzero known liveAfter
        refine allocateMemorySlot_ne_of_resident resident nonzero (Or.inr ?_) known
        have notDef : ref.instr.defRegister ≠ some other := by
          intro same
          simp only [storedRegister, same] at stored
          split at stored
          · cases stored
          · exact apart (Option.some.inj stored)
        have liveRest : F.LiveBefore other block (rest.map InstrRef.instr) := by
          rw [← remaining, ← inBlock]
          exact liveAfter
        exact liveRest.of_rest notDef
      · obtain ⟨later, held⟩ := walked used defined swept handled handledDef handledClean
        exact (ih shifted later held).1
      · obtain ⟨used, handled, finished⟩ := Runs.run_cons_eq_some _ finished
        obtain ⟨defined, handledDef, finished⟩ := Runs.run_cons_eq_some _ finished
        obtain ⟨swept, handledClean, finished⟩ := Runs.run_cons_eq_some _ finished
        obtain ⟨later, held⟩ := walked used defined swept handled handledDef handledClean
        intro reg slot nonzero left known
        refine (ih shifted later held).2 last finished reg slot nonzero ?_ known
        rcases left with ⟨other, member, defines⟩ | before
        · rcases mem_cons.mp member with rfl | deeper
          · exact Or.inr (Or.inl defines)
          · exact Or.inl ⟨other, deeper, defines⟩
        · exact Or.inr (Or.inr before)

theorem args_keepsLiveSlots {first : InstrRef} {args : List InstrRef} {st : EVMStackAlloc}
    (every : Runs.EveryStep (allocStep F) (SlotsFound F) (args.map (.stackArg first)) st)
    (resident : Resident st fun _ => True) :
    Runs.EveryStep (allocStep F) (KeepsLiveSlots F) (args.map (.stackArg first)) st ∧
      ∀ argued, Runs.run (allocStep F) (args.map (.stackArg first)) st = some argued →
        Resident argued fun _ => True := by
  induction args generalizing st with
  | nil =>
      refine ⟨trivial, fun argued same => ?_⟩
      cases same
      exact resident
  | cons arg rest ih =>
      obtain ⟨found, later⟩ := every
      have stepwise : ∀ next, allocStep F (.stackArg first arg) st = some next →
          Resident next fun _ => True :=
        fun next stepped => analyzeStackArg_resident stepped resident found.finds
      refine ⟨⟨?_, fun next stepped => (ih (later next stepped) (stepwise next stepped)).1⟩, ?_⟩
      · intro reg other slot _ _ nonzero known _
        exact allocateMemorySlot_ne_of_resident resident nonzero trivial known
      · intro argued finished
        obtain ⟨next, stepped, remaining⟩ := Runs.run_cons_eq_some _ finished
        exact (ih (later next stepped) (stepwise next stepped)).2 argued remaining

section Block

variable {st reached : EVMStackAlloc} {block : Nat}

theorem block_freesDeadOnly (within : block < F.blocks.length)
    (known : stateAfter F st block = some reached) (carries : CarriesLive F st.memoryAssignment) :
    Runs.EveryStep (allocStep F) (FreesDeadOnly F) (blockSteps F block) reached := by
  have other : ∀ step : AllocStep, (∀ here, step ≠ .beginBlock here) → ∀ state,
      FreesDeadOnly F step state :=
    fun step notBegin _ here _ same => absurd same (notBegin here)
  rcases blockSteps_cases F block with
    ⟨_, steps⟩ | ⟨_, _, steps⟩ | ⟨first, rest, body, nonempty, steps⟩
  · rw [steps]
    exact ⟨other _ (by simp) _, fun _ _ => trivial⟩
  · rw [steps]
    exact ⟨other _ (by simp) _, fun _ _ => trivial⟩
  · rw [steps, ← List.cons_append, Runs.everyStep_append]
    refine ⟨Runs.everyStep_of_forall (fun step member => other step ?_) _,
      fun argued arguing => ⟨?_, fun started _ => ?_⟩⟩
    · rcases mem_cons.mp member with rfl | isArg
      · simp
      · obtain ⟨arg, _, rfl⟩ := List.mem_map.mp isArg
        simp
    · have start : AtStart F st block reached argued :=
        ⟨within, known, nonempty, first, rest, body, arguing⟩
      exact start.freesDeadOnly carries
    · refine Runs.everyStep_of_forall (fun step member => other step ?_) _
      rcases mem_append.mp member with inBody | isEnd
      · obtain ⟨ref, _, inside⟩ := mem_flatMap.mp inBody
        simp only [instrSteps, mem_cons, not_mem_nil, or_false] at inside
        rcases inside with rfl | rfl | rfl <;> simp
      · rw [mem_singleton.mp isEnd]
        simp

theorem opened_keepsLiveSlots {first : InstrRef} {opened : EVMStackAlloc}
    (known : stateAfter F st block = some reached)
    (opening : allocStep F (.openBlock block) reached = some opened)
    (every : Runs.EveryStep (allocStep F) (SlotsFound F) (argSteps F block first) opened) :
    Runs.EveryStep (allocStep F) (KeepsLiveSlots F) (argSteps F block first) opened ∧
      ∀ argued, Runs.run (allocStep F) (argSteps F block first) opened = some argued →
        block = 0 → Resident argued fun _ => True := by
  by_cases entry : block = 0
  · subst entry
    cases known
    have bare : Resident opened fun _ => True := by
      cases opening
      intro reg slot _ _ impossible
      cases impossible
    have walked := args_keepsLiveSlots every bare
    exact ⟨walked.1, fun argued arguing _ => walked.2 argued arguing⟩
  · unfold argSteps
    rw [stackArgs_eq_nil entry]
    exact ⟨trivial, fun _ _ isEntry => absurd isEntry entry⟩

theorem AtStart.keepsLiveSlots {argued started : EVMStackAlloc}
    (start : AtStart F st block reached argued) (carries : CarriesLive F st.memoryAssignment)
    (leaves : LeavesCarried F st block reached) (entry : block = 0 → Resident argued fun _ => True)
    (starting : beginOfBlockUpdates F block argued = some started)
    (every : Runs.EveryStep (allocStep F) (SlotsFound F) (bodySteps F block) started) :
    Runs.EveryStep (allocStep F) (KeepsLiveSlots F) (bodySteps F block) started ∧
      ∀ walked, Runs.run (allocStep F) (bodySteps F block) started = some walked →
        Resident walked fun reg => DefinedIn F reg block ∨ Carried F reg block := by
  have carried := start.carriesOver starting leaves entry
  refine body_keepsLiveSlots (instrRefs_eq_stackArgs_append F block) every ?_
  intro reg slot nonzero held known
  refine carried reg slot nonzero ?_ known
  rcases held with isCarried | live
  · exact isCarried
  · have atArgued : argued.regAssignments reg = some ⟨.NONSTACK, slot⟩ := by
      rcases beginOfBlockUpdates_eq_some starting with
        ⟨_, rfl⟩ | ⟨_, _, _, _, _, _, _, _, _, rfl⟩
      · exact known
      · exact known
    exact carries block reg start.nonempty live (Or.inl (start.definedAhead (by rw [atArgued]; rfl)))

theorem block_keepsLiveSlots (within : block < F.blocks.length)
    (known : stateAfter F st block = some reached) (carries : CarriesLive F st.memoryAssignment)
    (leaves : LeavesCarried F st block reached)
    (every : Runs.EveryStep (allocStep F) (SlotsFound F) (blockSteps F block) reached) :
    Runs.EveryStep (allocStep F) (KeepsLiveSlots F) (blockSteps F block) reached ∧
      ∀ next, Runs.run (allocStep F) (blockSteps F block) reached = some next →
        Resident next fun reg => DefinedIn F reg block ∨ Carried F reg block := by
  rcases blockSteps_cases F block with
    ⟨empty, steps⟩ | ⟨_, _, steps⟩ | ⟨first, rest, body, nonempty, steps⟩
  · rw [steps]
    refine ⟨⟨keepsLiveSlots_of_silent rfl, fun _ _ => trivial⟩, fun next finished => ?_⟩
    cases finished
    exact empty_resident empty known leaves
  · rw [steps]
    refine ⟨⟨keepsLiveSlots_of_silent rfl, fun _ _ => trivial⟩, fun next finished => ?_⟩
    cases finished
  · rw [steps] at every ⊢
    have walk : ∀ opened argued started,
        allocStep F (.openBlock block) reached = some opened →
        Runs.run (allocStep F) (argSteps F block first) opened = some argued →
        allocStep F (.beginBlock block) argued = some started →
        Runs.EveryStep (allocStep F) (KeepsLiveSlots F) (bodySteps F block) started ∧
          ∀ walked, Runs.run (allocStep F) (bodySteps F block) started = some walked →
            Resident walked fun reg => DefinedIn F reg block ∨ Carried F reg block := by
      intro opened argued started opening arguing starting
      have start : AtStart F st block reached argued := by
        refine ⟨within, known, nonempty, first, rest, body, ?_⟩
        rw [Runs.run_cons, opening]
        exact arguing
      obtain ⟨onArgs, onRest⟩ := Runs.everyStep_append.mp (every.2 opened opening)
      have onBody := (Runs.everyStep_append.mp ((onRest argued arguing).2 started starting)).1
      exact start.keepsLiveSlots carries leaves
        ((opened_keepsLiveSlots known opening onArgs).2 argued arguing) starting onBody
    refine ⟨⟨keepsLiveSlots_of_silent rfl, fun opened opening => ?_⟩, fun next finished => ?_⟩
    · have onArgs := (Runs.everyStep_append.mp (every.2 opened opening)).1
      rw [Runs.everyStep_append]
      refine ⟨(opened_keepsLiveSlots known opening onArgs).1, fun argued arguing => ?_⟩
      refine ⟨keepsLiveSlots_of_silent rfl, fun started starting => ?_⟩
      rw [Runs.everyStep_append]
      exact ⟨(walk opened argued started opening arguing starting).1,
        fun _ _ => ⟨keepsLiveSlots_of_silent rfl, fun _ _ => trivial⟩⟩
    · obtain ⟨opened, opening, finished⟩ := Runs.run_cons_eq_some _ finished
      rw [Runs.run_append] at finished
      obtain ⟨argued, arguing, finished⟩ := bind_eq_some_iff.mp finished
      obtain ⟨started, starting, finished⟩ := Runs.run_cons_eq_some _ finished
      rw [Runs.run_append] at finished
      obtain ⟨walked, walking, finished⟩ := bind_eq_some_iff.mp finished
      obtain ⟨closed, closing, same⟩ := Runs.run_cons_eq_some _ finished
      cases same
      have held := (walk opened argued started opening arguing starting).2 walked walking
      obtain ⟨ended, ending, rfl⟩ := map_eq_some_iff.mp closing
      rcases endOfBlockUpdates_eq_some ending with ⟨_, rfl⟩ | ⟨_, _, _, _, _, rfl⟩
      · exact held
      · exact held

end Block

/-! ### Whole runs -/

theorem stateAfter_leavesCarried {st : EVMStackAlloc}
    (carries : CarriesLive F st.memoryAssignment)
    (every : Runs.EveryStep (allocStep F) (SlotsFound F) (functionSteps F) (startState F st)) :
    ∀ count ≤ F.blocks.length, ∀ reached, stateAfter F st count = some reached →
      LeavesCarried F st count reached := by
  intro count
  induction count with
  | zero =>
      intro _ _ _ source below
      omega
  | succ count ih =>
      intro within next known source below reg slot nonzero leaves entry
      have whole := known
      rw [stateAfter_succ] at known
      obtain ⟨reached, earlier, stepped⟩ := bind_eq_some_iff.mp known
      rw [analyzeBasicBlock_eq_run] at stepped
      have before := ih (by omega) reached earlier
      by_cases last : source = count
      · subst last
        rw [outSlots_eq whole]
        have onBlock := everyStep_block (by omega) earlier every
        exact (block_keepsLiveSlots (by omega) earlier carries before onBlock).2 next stepped
          reg slot nonzero leaves entry
      · have assigned : (reached.regAssignments reg).isSome = true := by
          refine (stateAfter_assigned (by omega) earlier reg).mpr ?_
          exact definedUpTo_of_left (by omega) leaves
        obtain ⟨assignment, held⟩ := isSome_iff_exists.mp assigned
        have same := run_keeps_entry stepped held
        rw [entry] at same
        exact before source (by omega) reg slot nonzero leaves (held.trans same.symm)

/-- Where the maps carry every live register, nothing live is freed; when each
register placed in memory again finds its slot, no live register loses its own. -/
theorem freesDeadOnly_and_keepsLiveSlots (F : MachineFunction) (st : EVMStackAlloc)
    (carries : CarriesLive F st.memoryAssignment) :
    Runs.EveryStep (allocStep F) (FreesDeadOnly F) (functionSteps F) (startState F st) ∧
    (Runs.EveryStep (allocStep F) (FindsSlot F) (functionSteps F) (startState F st) →
      Runs.EveryStep (allocStep F) (KeepsLiveSlots F) (functionSteps F) (startState F st)) := by
  refine ⟨everyStep_of_blocks fun block within reached known =>
    block_freesDeadOnly within known carries, fun finds => ?_⟩
  have every : Runs.EveryStep (allocStep F) (SlotsFound F) (functionSteps F) (startState F st) :=
    (finds.and (redefined_hasOneDef F st)).imp fun _ _ both => ⟨both.1, both.2⟩
  refine everyStep_of_blocks fun block within reached known => ?_
  exact (block_keepsLiveSlots within known carries
    (stateAfter_leavesCarried carries every block (Nat.le_of_lt within) reached known)
    (everyStep_block within known every)).1

private theorem joinedValue_usedAtEnd (either : reg = 1 ∨ reg = 2) : UsedIn joinedValue reg 3 := by
  refine ⟨⟨3, 1, ⟨.inst 0xf3, none, [.reg 1, .reg 2]⟩⟩, by decide, ?_⟩
  rcases either with rfl | rfl
  · exact mem_cons_self
  · exact mem_cons_of_mem _ mem_cons_self

/-- The first register is carried to every later block, the other one from the
second branch to the join. -/
private theorem joinedValue_carriesLive : CarriesLive joinedValue [] := by
  have atBranch : ∀ block, block = 1 ∨ block = 2 → Carried joinedValue 2 block := by
    intro block branch
    have left : mapSource joinedValue block = some 0 := by rcases branch with rfl | rfl <;> decide
    have edge : 3 ∈ joinedValue.successors block := by rcases branch with rfl | rfl <;> decide
    refine .fromBody left ⟨⟨0, 0, ⟨.inst 0x60, some 2, [.imm 5]⟩⟩, by decide, rfl⟩ ?_
    exact Or.inr (Or.inr ⟨3, edge, 3, Nat.le_refl 3, joinedValue_usedAtEnd (Or.inr rfl)⟩)
  have left : mapSource joinedValue 3 = some 2 := by decide
  have noArgs : ∀ block < 4, stackArgs joinedValue block = [] := by decide
  have definitions : ∀ ref ∈ joinedValue.allRefs, ∀ reg ∈ ref.instr.defRegister,
      (reg = 2 ∧ ref.block = 0) ∨ (reg = 1 ∧ 1 ≤ ref.block) := by decide
  intro block reg nonempty live ahead
  have within : block < 4 := by
    by_contra outside
    refine nonempty ?_
    have missing : joinedValue.blocks[block]? = none := List.getElem?_eq_none (Nat.le_of_not_lt outside)
    simp [MachineFunction.instrs, blockInstrs, missing]
  rcases ahead with ⟨ref, member, defines, before⟩ | impossible
  · have earlier : ref.block < block := by
      rcases before with less | isArg
      · exact less
      · rw [noArgs block within] at isArg
        cases isArg
    rcases definitions ref member reg defines with ⟨rfl, _⟩ | ⟨rfl, later⟩
    · by_cases atEnd : block = 3
      · subst atEnd
        exact .onward left (atBranch 2 (Or.inr rfl)) (Or.inr (Or.inl (joinedValue_usedAtEnd (Or.inr rfl))))
      · exact atBranch block (by omega)
    · by_cases atEnd : block = 3
      · subst atEnd
        refine .fromBody left ⟨⟨2, 0, ⟨.inst 0x60, some 1, [.imm 2]⟩⟩, by decide, rfl⟩ ?_
        exact Or.inr (Or.inl (joinedValue_usedAtEnd (Or.inl rfl)))
      · have second : block = 2 := by omega
        subst second
        rcases live with exposed | ⟨untouched, _⟩
        · exact absurd exposed (by decide)
        · exact absurd rfl (untouched ⟨.inst 0x60, some 1, [.imm 2]⟩ (by decide))
  · cases impossible

theorem keepsLiveSlots_joinedValue :
    (Runs.run (allocStep joinedValue) (functionSteps joinedValue)
      (startState joinedValue fresh)).isSome = true ∧
    Runs.EveryStep (allocStep joinedValue) (FreesDeadOnly joinedValue)
      (functionSteps joinedValue) (startState joinedValue fresh) ∧
    Runs.EveryStep (allocStep joinedValue) (KeepsLiveSlots joinedValue)
      (functionSteps joinedValue) (startState joinedValue fresh) := by
  obtain ⟨freed, kept⟩ := freesDeadOnly_and_keepsLiveSlots joinedValue fresh joinedValue_carriesLive
  exact ⟨by decide, freed, kept (by decide)⟩

/-- A register defined in the first block and read in the second, which is only
reached through the two blocks laid out behind it. -/
def backwardExit : MachineFunction where
  blocks := [
    ⟨[⟨.inst 0x60, some 1, [.imm 1]⟩], [2], []⟩,
    ⟨[⟨.inst 0xf3, none, [.reg 1]⟩], [], [3]⟩,
    ⟨[⟨.inst 0x60, some 2, [.imm 2]⟩], [3], [0]⟩,
    ⟨[⟨.inst 0x5b, none, []⟩, ⟨.inst 0x50, none, [.reg 2]⟩], [1], [2]⟩]
  getInterval := fun reg =>
    if reg = 1 then ⟨[(⟨0, 2, 2⟩, ⟨1, 2, 2⟩), (⟨2, 0, 0⟩, ⟨4, 0, 0⟩)], by simp⟩
    else ⟨[(⟨2, 2, 2⟩, ⟨3, 5, 2⟩)], by simp⟩
  hasEntry := by simp
  edges := by decide
  nonzero := by decide

private theorem backwardExit_live (code : List MachineInstr)
    (untouched : Liveness.Untouched MachineInstr.defRegister 1 code) :
    backwardExit.LiveBefore 1 2 code := by
  have atExit : backwardExit.LiveIn 1 1 :=
    .here (Or.inl (by decide : 1 ∈ MachineInstr.useRegisters ⟨.inst 0xf3, none, [.reg 1]⟩))
  have atThird : backwardExit.LiveIn 1 3 :=
    .through (by unfold Liveness.Untouched; decide) (by decide : 1 ∈ backwardExit.successors 3) atExit
  exact Or.inr ⟨untouched, 3, by decide, atThird⟩

/-- The third block frees the slot of the live register, and the definition in
it is handed that slot. -/
theorem backwardExit_gives_slot_away :
    ¬ Runs.EveryStep (allocStep backwardExit) (FreesDeadOnly backwardExit)
      (functionSteps backwardExit) (startState backwardExit fresh) ∧
    ¬ Runs.EveryStep (allocStep backwardExit) (KeepsLiveSlots backwardExit)
      (functionSteps backwardExit) (startState backwardExit fresh) := by
  constructor
  · intro every
    have runs : (Runs.run (allocStep backwardExit) ((functionSteps backwardExit).take 13)
        (startState backwardExit fresh)).isSome = true := by decide
    obtain ⟨middle, reached⟩ := isSome_iff_exists.mp runs
    have observed : (Runs.run (allocStep backwardExit) ((functionSteps backwardExit).take 13)
        (startState backwardExit fresh)).map (fun state => (incomingSlots backwardExit 2 state,
          regIsDeadAtBeginningOfMBB backwardExit state.MRI 1 2)) = some ([1], true) := by decide
    rw [reached, map_some, Option.some.injEq, Prod.mk.injEq] at observed
    have deadOnly := Runs.everyStep_iff_reached.mp every _ (.beginBlock 2)
      ((functionSteps backwardExit).drop 14) middle (by decide) reached
    refine deadOnly 2 1 rfl ⟨by decide, by decide, by rw [observed.1]; decide, observed.2⟩ ?_
    exact Liveness.liveIn_iff_liveBefore.mpr
      (backwardExit_live _ (by unfold Liveness.Untouched; decide))
  · intro every
    have runs : (Runs.run (allocStep backwardExit) ((functionSteps backwardExit).take 15)
        (startState backwardExit fresh)).isSome = true := by decide
    obtain ⟨middle, reached⟩ := isSome_iff_exists.mp runs
    have observed : (Runs.run (allocStep backwardExit) ((functionSteps backwardExit).take 15)
        (startState backwardExit fresh)).map (fun state =>
          (storedRegister backwardExit (.define ⟨2, 0, ⟨.inst 0x60, some 2, [.imm 2]⟩⟩) state,
            state.regAssignments 1, (allocateMemorySlot 2 state).2)) =
        some (some 2, some ⟨.NONSTACK, 0⟩, 0) := by decide
    rw [reached, map_some, Option.some.injEq, Prod.mk.injEq, Prod.mk.injEq] at observed
    have keeps := Runs.everyStep_iff_reached.mp every _
      (.define ⟨2, 0, ⟨.inst 0x60, some 2, [.imm 2]⟩⟩)
      ((functionSteps backwardExit).drop 16) middle (by decide) reached
    refine keeps 2 1 0 observed.1 (by decide) (by decide) observed.2.1 ?_ observed.2.2
    exact backwardExit_live _ (by unfold Liveness.Untouched; decide)

end EvmBackend.EVMStackAlloc
