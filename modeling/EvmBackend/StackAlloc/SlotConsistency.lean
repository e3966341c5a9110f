/-
Whether one register keeps one local slot: the loads and stores of a register
name the same slot exactly when every repeated definition is handed the slot
the code already uses.

The slot of a load comes from the recorded assignment, which is never changed
once made; the slot of a store is chosen anew at every definition.
-/

import EvmBackend.StackAlloc.Insertions

namespace EvmBackend.EVMStackAlloc

def SlotConsistent (st : EVMStackAlloc) : Prop :=
  ∀ reg left right, Accesses st reg left → Accesses st reg right → left = right

def storedRegister (F : MachineFunction) : AllocStep → EVMStackAlloc → Option Register
  | .define ref, st =>
      match ref.instr.defRegister with
      | none => none
      | some defReg =>
          if st.MRI.hasOneDef defReg && (st.MRI.useEmpty defReg || defIsLocal F ref defReg) then none
          else some defReg
  | .stackArg _ arg, st =>
      if st.MRI.useEmpty (argRegister arg) || defIsLocal F arg (argRegister arg) then none
      else some (argRegister arg)
  | _, _ => none

/-- A register placed in memory that the code accesses already gets the same
slot: the scan of the map arrives there. -/
def SlotReturns (F : MachineFunction) (step : AllocStep) (st : EVMStackAlloc) : Prop :=
  ∀ reg slot, storedRegister F step st = some reg → Accesses st reg slot →
    SlotIsNext st.memoryAssignment slot

instance (F : MachineFunction) (step : AllocStep) (st : EVMStackAlloc) :
    Decidable (SlotReturns F step st) :=
  decidable_of_iff (∀ reg ∈ storedRegister F step st, ∀ access ∈ st.code.filterMap accessOf,
      access.1 = reg → SlotIsNext st.memoryAssignment access.2)
    ⟨fun returns reg slot stored ⟨out, member, access⟩ =>
        returns reg stored (reg, slot) (List.mem_filterMap.mpr ⟨out, member, access⟩) rfl,
      fun returns reg stored access member same => by
        obtain ⟨out, present, found⟩ := List.mem_filterMap.mp member
        exact returns reg access.2 stored ⟨out, present, by rw [found, ← same]⟩⟩

/-! ### What a step adds -/

/-- The effect of a step on accesses, recorded assignments and the frame size. -/
inductive AccessEffect (F : MachineFunction) (step : AllocStep) (st next : EVMStackAlloc) : Prop
  | loads (silent : storedRegister F step st = none)
      (same : next.regAssignments = st.regAssignments)
      (size : next.memoryFrameSize = st.memoryFrameSize)
      (kept : ∀ reg slot, Accesses st reg slot → Accesses next reg slot)
      (added : ∀ reg slot, Accesses next reg slot →
        Accesses st reg slot ∨ st.lookup reg = ⟨.NONSTACK, slot⟩)
  | records (reg : Register) (assignment : StackAssignment)
      (silent : storedRegister F step st = none) (elsewhere : assignment.region ≠ .NONSTACK)
      (entry : next.regAssignments = recorded reg assignment st.regAssignments)
      (size : next.memoryFrameSize = st.memoryFrameSize)
      (accesses : ∀ reg slot, Accesses next reg slot ↔ Accesses st reg slot)
  | stores (reg : Register) (slot : Nat) (stored : storedRegister F step st = some reg)
      (placed : SlotHanded reg slot st.memoryAssignment next.memoryAssignment
        st.memoryFrameSize next.memoryFrameSize)
      (entry : next.regAssignments = recorded reg ⟨.NONSTACK, slot⟩ st.regAssignments)
      (accesses : ∀ other place, Accesses next other place ↔
        Accesses st other place ∨ (other = reg ∧ place = slot))

variable {ref : InstrRef} {step : AllocStep}

section Steps

variable {F : MachineFunction} {st next : EVMStackAlloc}

theorem storedRegister_of_shared {defReg : Register} (isDef : ref.instr.defRegister = some defReg)
    (shared : st.MRI.hasOneDef defReg = true → st.MRI.useEmpty defReg = false ∧ defIsLocal F ref defReg = false) :
    storedRegister F (.define ref) st = some defReg := by
  simp only [storedRegister, isDef]
  cases oneDef : st.MRI.hasOneDef defReg with
  | false => simp
  | true => simp [(shared oneDef).1, (shared oneDef).2]

private theorem AccessEffect.quiet (silent : storedRegister F step st = none)
    (same : next.regAssignments = st.regAssignments)
    (size : next.memoryFrameSize = st.memoryFrameSize)
    (accesses : ∀ reg slot, Accesses next reg slot ↔ Accesses st reg slot) :
    AccessEffect F step st next :=
  .loads silent same size (fun reg slot => (accesses reg slot).mpr)
    (fun reg slot found => Or.inl ((accesses reg slot).mp found))

theorem accesses_closeBlock (reg : Register) (slot : Nat) :
    Accesses (closeBlock st) reg slot ↔ Accesses st reg slot := by
  simp [Accesses, code, closeBlock]

theorem accesses_openBlock (block reg : Nat) (slot : Nat) :
    Accesses (openBlock F block st) reg slot ↔ Accesses st reg slot := by
  have silent : ¬ Names ((stackArgs F block).map OutInstr.original) reg slot := by
    apply not_names_of_silent
    intro out member
    obtain ⟨ref, _, rfl⟩ := List.mem_map.mp member
    rfl
  simp [Accesses, code, openBlock, silent]

theorem names_insertIdx_POP {place : Nat} {code : List OutInstr} {reg : Register}
    {slot : Nat} : Names (code.insertIdx place .POP_r) reg slot ↔ Names code reg slot := by
  by_cases inside : place ≤ code.length
  · simp [Names, List.mem_insertIdx inside, accessOf]
  · rw [List.insertIdx_of_length_lt (by omega)]

private theorem stackArg_accessEffect {first arg : InstrRef}
    (done : analyzeStackArg F first arg st = some next) :
    AccessEffect F (.stackArg first arg) st next := by
  rcases analyzeStackArg_eq_some done with ⟨unused, _, rest, _, rfl⟩ | ⟨used, localArg, rfl⟩ |
    ⟨used, shared, slot, taken, size, exchange, depth, _, _, rest, placed, _, _, _, swaps, rfl⟩
  · refine .records (argRegister arg) ⟨.NO_ALLOCATION, 0⟩ (by simp [storedRegister, unused])
      (by simp) rfl rfl (fun reg slot => ?_)
    simp [Accesses, code, names_insertIdx_POP]
  · exact .records (argRegister arg) ⟨.L_STACK, 0⟩ (by simp [storedRegister, localArg])
      (by simp) rfl rfl (fun reg slot => Iff.rfl)
  · refine .stores (argRegister arg) slot (by simp [storedRegister, used, shared]) placed
      rfl (fun other place => ?_)
    have silent : ¬ Names exchange other place := by
      apply not_names_of_silent
      intro out member
      rw [swaps out member]
      rfl
    simp only [Accesses, code, names_append, names_cons, names_nil, silent, accessOf,
      Option.some.injEq, Prod.mk.injEq]
    tauto

private theorem uses_accessEffect (done : handleUses F ref st = some next) :
    AccessEffect F (.uses ref) st next := by
  obtain ⟨inserted, defs, stack, rfl, operands⟩ := handleUses_frame done
  refine .loads rfl rfl rfl (fun reg slot => ?_) (fun reg slot => ?_)
  · simp only [Accesses, code, names_append]
    tauto
  · intro found
    simp only [Accesses, code, names_append] at found ⊢
    rcases found with earlier | (earlier | ⟨out, member, access⟩) | later
    · exact Or.inl (Or.inl earlier)
    · exact Or.inl (Or.inr (Or.inl earlier))
    · have operand := operands out member
      cases out with
      | pGETLOCAL_r register place =>
          cases access
          exact Or.inr operand
      | pPUTLOCAL_r register place => exact absurd operand (by simp [IsOperandCode])
      | original | DUP_r | SWAP_r | POP_r => cases access
    · exact Or.inl (Or.inr (Or.inr later))

private theorem define_accessEffect (done : handleDef F ref st = some next) :
    AccessEffect F (.define ref) st next := by
  rcases handleDef_eq_some done with ⟨noDef, rfl⟩ | ⟨defReg, isDef, unused | onStack | inMemory⟩
  · exact .quiet (by simp [storedRegister, noDef]) rfl rfl (fun _ _ => Iff.rfl)
  · obtain ⟨oneDef, empty, _, rest, _, rfl⟩ := unused
    refine .records defReg ⟨.NO_ALLOCATION, 0⟩ (by simp [storedRegister, isDef, oneDef, empty])
      (by simp) rfl rfl (fun reg slot => ?_)
    simp [Accesses, code, accessOf]
  · obtain ⟨oneDef, _, localDef, rfl⟩ := onStack
    exact .records defReg ⟨.L_STACK, 0⟩ (by simp [storedRegister, isDef, oneDef, localDef])
      (by simp) rfl rfl (fun reg slot => Iff.rfl)
  · obtain ⟨shared, rfl⟩ := inMemory
    obtain ⟨slot, taken, size, placed, result⟩ := storeDef_eq ref defReg st
    rw [result]
    refine .stores defReg slot (storedRegister_of_shared isDef shared) placed rfl
      (fun other place => ?_)
    simp only [Accesses, code, names_append, names_cons, accessOf, Option.some.injEq,
      Prod.mk.injEq]
    tauto

private theorem cleanUp_accessEffect {cleaned : EVMStackAlloc}
    (done : cleanUpDeadRegisters F ref st = some cleaned) :
    AccessEffect F (.cleanUp ref) st (passInstr ref cleaned) := by
  obtain ⟨between, after, stack, rfl, same⟩ := cleanUpDeadRegisters_frame done
  refine .quiet rfl rfl rfl (fun reg slot => ?_)
  have kept := same reg slot
  simp only [names_append] at kept
  simp only [Accesses, code, passInstr, names_append, names_cons, names_nil, accessOf]
  tauto

theorem allocStep_accessEffect (done : allocStep F step st = some next) :
    AccessEffect F step st next := by
  cases step with
  | emptyBlock =>
      cases done
      exact .quiet rfl rfl rfl accesses_closeBlock
  | noInsertionPoint => cases done
  | openBlock block =>
      cases done
      exact .quiet rfl rfl rfl (accesses_openBlock block)
  | stackArg first arg => exact stackArg_accessEffect done
  | beginBlock block =>
      rcases beginOfBlockUpdates_eq_some done with
        ⟨_, rfl⟩ | ⟨_, _, slots, inserted, stack, _, _, _, silent, rfl⟩
      · exact .quiet rfl rfl rfl (fun _ _ => Iff.rfl)
      · refine .quiet rfl rfl rfl (fun reg slot => ?_)
        simp [Accesses, code, not_names_of_silent silent]
  | uses ref => exact uses_accessEffect done
  | define ref => exact define_accessEffect done
  | cleanUp ref =>
      obtain ⟨cleaned, cleaning, rfl⟩ := Option.map_eq_some_iff.mp done
      exact cleanUp_accessEffect cleaning
  | endBlock block =>
      obtain ⟨ended, ending, rfl⟩ := Option.map_eq_some_iff.mp done
      rcases endOfBlockUpdates_eq_some ending with ⟨_, rfl⟩ | ⟨_, _, _, _, _, rfl⟩
      · exact .quiet rfl rfl rfl accesses_closeBlock
      · exact .quiet rfl rfl rfl accesses_closeBlock

end Steps

/-! ### Whole runs -/

/-- Recorded slots are in use, and a register without an entry has only been
read, at the slot a missing entry gives. -/
structure AccessInvariant (st : EVMStackAlloc) : Prop where
  recordedAccessed : ∀ reg slot, st.regAssignments reg = some ⟨.NONSTACK, slot⟩ →
    Accesses st reg slot
  missingZero : ∀ reg slot, st.regAssignments reg = none → Accesses st reg slot → slot = 0

variable {F : MachineFunction}

theorem allocStep_accessInvariant {st next : EVMStackAlloc} (holds : AccessInvariant st)
    (done : allocStep F step st = some next) : AccessInvariant next := by
  cases allocStep_accessEffect done with
  | loads silent same size kept added =>
      constructor
      · intro reg slot known
        rw [same] at known
        exact kept reg slot (holds.recordedAccessed reg slot known)
      · intro reg slot missing found
        rw [same] at missing
        rcases added reg slot found with earlier | loaded
        · exact holds.missingZero reg slot missing earlier
        · simp only [EVMStackAlloc.lookup, missing, Option.getD_none] at loaded
          cases loaded
          rfl
  | records reg assignment silent elsewhere entry size accesses =>
      constructor
      · intro other slot known
        rw [accesses]
        rw [entry] at known
        rcases recorded_cases reg assignment st.regAssignments other with same | ⟨_, _, new⟩
        · rw [same] at known
          exact holds.recordedAccessed other slot known
        · rw [new] at known
          cases known
          exact absurd rfl elsewhere
      · intro other slot missing found
        rw [accesses] at found
        rw [entry] at missing
        rcases recorded_cases reg assignment st.regAssignments other with same | ⟨_, _, new⟩
        · rw [same] at missing
          exact holds.missingZero other slot missing found
        · rw [new] at missing
          cases missing
  | stores reg slot stored placed entry accesses =>
      constructor
      · intro other place known
        rw [accesses]
        rw [entry] at known
        rcases recorded_cases reg ⟨.NONSTACK, slot⟩ st.regAssignments other with
          same | ⟨rfl, _, new⟩
        · rw [same] at known
          exact Or.inl (holds.recordedAccessed other place known)
        · rw [new] at known
          cases known
          exact Or.inr ⟨rfl, rfl⟩
      · intro other place missing found
        rw [entry] at missing
        rw [accesses] at found
        rcases found with earlier | ⟨rfl, _⟩
        · rcases recorded_cases reg ⟨.NONSTACK, slot⟩ st.regAssignments other with
            same | ⟨_, _, new⟩
          · rw [same] at missing
            exact holds.missingZero other place missing earlier
          · rw [new] at missing
            cases missing
        · obtain ⟨held, known⟩ := recorded_isSome other ⟨.NONSTACK, slot⟩ st.regAssignments
          rw [known] at missing
          cases missing

private theorem accesses_of_lookup {st : EVMStackAlloc} (holds : AccessInvariant st)
    (consistent : SlotConsistent st) {reg : Register} {slot other : Nat}
    (loaded : st.lookup reg = ⟨.NONSTACK, slot⟩) (found : Accesses st reg other) :
    other = slot := by
  unfold EVMStackAlloc.lookup at loaded
  cases entry : st.regAssignments reg with
  | none =>
      rw [entry] at loaded
      cases loaded
      exact holds.missingZero reg other entry found
  | some held =>
      rw [entry] at loaded
      cases loaded
      exact consistent reg other slot found (holds.recordedAccessed reg slot entry)

theorem allocStep_slotConsistent {st next : EVMStackAlloc} (holds : AccessInvariant st)
    (done : allocStep F step st = some next) :
    SlotConsistent next ↔ SlotConsistent st ∧ SlotReturns F step st := by
  cases allocStep_accessEffect done with
  | loads silent same size kept added =>
      constructor
      · intro consistent
        refine ⟨fun reg left right atLeft atRight => ?_, fun reg slot stored => ?_⟩
        · exact consistent reg left right (kept reg left atLeft) (kept reg right atRight)
        · rw [silent] at stored
          cases stored
      · rintro ⟨consistent, _⟩ reg left right atLeft atRight
        rcases added reg left atLeft with oldLeft | newLeft
        · rcases added reg right atRight with oldRight | newRight
          · exact consistent reg left right oldLeft oldRight
          · exact accesses_of_lookup holds consistent newRight oldLeft
        · rcases added reg right atRight with oldRight | newRight
          · exact (accesses_of_lookup holds consistent newLeft oldRight).symm
          · rw [newLeft] at newRight
            exact congrArg StackAssignment.slot newRight
  | records reg assignment silent elsewhere entry size accesses =>
      constructor
      · intro consistent
        refine ⟨fun other left right atLeft atRight => ?_, fun other slot stored => ?_⟩
        · rw [← accesses] at atLeft atRight
          exact consistent other left right atLeft atRight
        · rw [silent] at stored
          cases stored
      · rintro ⟨consistent, _⟩ other left right atLeft atRight
        rw [accesses] at atLeft atRight
        exact consistent other left right atLeft atRight
  | stores reg slot stored placed entry accesses =>
      have here : Accesses next reg slot := (accesses reg slot).mpr (Or.inr ⟨rfl, rfl⟩)
      constructor
      · intro consistent
        refine ⟨fun other left right atLeft atRight => ?_, fun other place same found => ?_⟩
        · exact consistent other left right ((accesses other left).mpr (Or.inl atLeft))
            ((accesses other right).mpr (Or.inl atRight))
        · rw [stored] at same
          cases same
          rw [consistent reg place slot ((accesses reg place).mpr (Or.inl found)) here]
          exact placed.isNext
      · rintro ⟨consistent, returns⟩ other left right atLeft atRight
        rw [accesses] at atLeft atRight
        rcases atLeft with oldLeft | ⟨rfl, rfl⟩
        · rcases atRight with oldRight | ⟨rfl, rfl⟩
          · exact consistent other left right oldLeft oldRight
          · exact (returns other left stored oldLeft).unique placed.isNext
        · rcases atRight with oldRight | ⟨_, rfl⟩
          · exact placed.isNext.unique (returns other right stored oldRight)
          · rfl

theorem not_accesses_startState (st : EVMStackAlloc) (reg : Register) (slot : Nat) :
    ¬ Accesses (startState F st) reg slot := by
  rintro ⟨out, member, _⟩
  cases member

theorem accessInvariant_startState (st : EVMStackAlloc) : AccessInvariant (startState F st) := by
  constructor
  · intro reg slot known
    cases known
  · intro reg slot _ found
    exact absurd found (not_accesses_startState st reg slot)

/-- Loads and stores of every register agree on one slot exactly when each
definition placed in memory finds the slot in use for its register next. -/
theorem slotConsistent_iff_slotReturns (F : MachineFunction) (st final : EVMStackAlloc)
    (finished : runOnMachineFunction F st = some final) :
    SlotConsistent final ↔
      Runs.EveryStep (allocStep F) (SlotReturns F) (functionSteps F) (startState F st) := by
  rw [runOnMachineFunction_eq_run] at finished
  have clean : SlotConsistent (startState F st) := by
    intro reg left right atLeft
    exact absurd atLeft (not_accesses_startState st reg left)
  rw [Runs.run_iff_everyStep AccessInvariant SlotConsistent
    (fun _ _ _ => allocStep_accessInvariant) (fun _ _ _ => allocStep_slotConsistent)
    (accessInvariant_startState st) finished]
  exact ⟨And.right, fun every => ⟨clean, every⟩⟩

/-- Both sides of a branch define the register read, together with an earlier
one, where they join. -/
def joinedValue : MachineFunction where
  blocks := [
    ⟨[⟨.inst 0x60, some 2, [.imm 5]⟩, ⟨.inst 0x57, none, [.mbb 2]⟩], [1, 2], []⟩,
    ⟨[⟨.inst 0x60, some 1, [.imm 1]⟩, ⟨.inst 0x56, none, [.mbb 3]⟩], [3], [0]⟩,
    ⟨[⟨.inst 0x60, some 1, [.imm 2]⟩], [3], [0]⟩,
    ⟨[⟨.inst 0x5b, none, []⟩, ⟨.inst 0xf3, none, [.reg 1, .reg 2]⟩], [], [1, 2]⟩]
  getInterval := fun reg =>
    if reg = 1 then
      ⟨[(⟨1, 2, 2⟩, ⟨2, 0, 0⟩), (⟨2, 2, 2⟩, ⟨3, 0, 0⟩), (⟨3, 0, 0⟩, ⟨3, 5, 2⟩)], by simp⟩
    else ⟨[(⟨0, 2, 2⟩, ⟨3, 5, 2⟩)], by simp⟩
  hasEntry := by simp
  edges := by decide
  nonzero := by decide

/-- The second definition finds the slot of the first one next in its map. -/
theorem slotConsistent_joinedValue :
    ∃ final, runOnMachineFunction joinedValue fresh = some final ∧ SlotConsistent final := by
  have finishes : (runOnMachineFunction joinedValue fresh).isSome = true := by decide
  obtain ⟨final, finished⟩ := Option.isSome_iff_exists.mp finishes
  exact ⟨final, finished,
    (slotConsistent_iff_slotReturns joinedValue fresh final finished).mpr (by decide)⟩

/-- A loop that doubles its register until a test on it fails:
`r1 := 1; do r1 := r1 + r1 while r1; return r1`. -/
def doublingLoop : MachineFunction where
  blocks := [
    ⟨[⟨.inst 0x60, some 1, [.imm 1]⟩], [1], []⟩,
    ⟨[⟨.inst 0x01, some 1, [.reg 1, .reg 1]⟩, ⟨.inst 0x57, none, [.reg 1, .mbb 1]⟩], [1, 2], [0, 1]⟩,
    ⟨[⟨.inst 0xf3, none, [.reg 1]⟩], [], [1]⟩]
  getInterval := fun _ =>
    ⟨[(⟨0, 2, 2⟩, ⟨1, 0, 0⟩), (⟨1, 0, 0⟩, ⟨1, 2, 2⟩), (⟨1, 2, 2⟩, ⟨2, 2, 2⟩)], by simp⟩
  hasEntry := by simp
  edges := by decide
  nonzero := by decide

/-- The loop body stores to slot 1 what the next iteration loads from slot 0. -/
theorem doublingLoop_not_slotConsistent :
    ∃ final, runOnMachineFunction doublingLoop fresh = some final ∧ ¬ SlotConsistent final := by
  have finishes : (runOnMachineFunction doublingLoop fresh).isSome = true := by decide
  obtain ⟨final, finished⟩ := Option.isSome_iff_exists.mp finishes
  have emitted : (runOnMachineFunction doublingLoop fresh).map
      (fun last => (last.emitted[1]?.getD []).filterMap accessOf) =
        some [(1, 0), (1, 0), (1, 1), (1, 0)] := by decide
  rw [finished, Option.map_some, Option.some.injEq] at emitted
  have named : ∀ slot, (1, slot) ∈ [(1, 0), (1, 0), (1, 1), (1, 0)] → Accesses final 1 slot := by
    intro slot member
    rw [← emitted] at member
    obtain ⟨out, present, access⟩ := List.mem_filterMap.mp member
    cases body : final.emitted[1]? with
    | none =>
        rw [body] at present
        cases present
    | some block =>
        rw [body] at present
        refine ⟨out, List.mem_append_left _ (List.mem_flatten.mpr ⟨block, ?_, present⟩), access⟩
        exact List.mem_of_getElem? body
  refine ⟨final, finished, fun consistent => ?_⟩
  have same := consistent 1 0 1 (named 0 (by simp)) (named 1 (by simp))
  cases same

end EvmBackend.EVMStackAlloc
