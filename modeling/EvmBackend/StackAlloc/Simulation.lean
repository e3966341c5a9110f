/-
The symbolic stack against the run-time stack: a block is executed once on a
register file and once as the stack code the allocator leaves for it.

What an instruction computes is arbitrary, with operands in operand order and
a world for effects. The simulation is about straight-line code only; where
control goes after the block is not part of it.
-/

import EvmBackend.StackAlloc.Operands
import EvmBackend.StackAlloc.SlotConsistency
import EvmBackend.StackAlloc.VisitOrder

namespace EvmBackend.EVMStackAlloc

open List Option Function

section Semantics

variable {Value World : Type} (sem : MachineInstr → List Value → World → Value × World)

structure RegisterState (Value World : Type) where
  regs : Register → Value
  world : World

structure StackState (Value World : Type) where
  stack : List Value
  locals : Nat → Value
  world : World

def execInstr (instr : MachineInstr) (state : RegisterState Value World) :
    RegisterState Value World :=
  let result := sem instr (instr.useRegisters.map state.regs) state.world
  { regs := match instr.defRegister with
      | some defReg => update state.regs defReg result.1
      | none => state.regs
    world := result.2 }

def execBlock (refs : List InstrRef) (state : RegisterState Value World) :
    RegisterState Value World :=
  refs.foldl (fun current ref => execInstr sem ref.instr current) state

/-- An original instruction takes its first operand from the top and pushes
its result. -/
def execOriginal (instr : MachineInstr) (rt : StackState Value World) :
    Option (StackState Value World) :=
  if rt.stack.length < instr.useRegisters.length then none
  else
    let result := sem instr (rt.stack.take instr.useRegisters.length) rt.world
    let rest := rt.stack.drop instr.useRegisters.length
    some { rt with
      stack := if instr.defRegister.isSome then result.1 :: rest else rest
      world := result.2 }

def popValue (rt : StackState Value World) : Option (Value × StackState Value World) :=
  match rt.stack with
  | [] => none
  | top :: rest => some (top, { rt with stack := rest })

def execOut : OutInstr → StackState Value World → Option (StackState Value World)
  | .original ref, rt => execOriginal sem ref.instr rt
  | .pGETLOCAL_r _ slot, rt => some { rt with stack := rt.locals slot :: rt.stack }
  | .pPUTLOCAL_r _ slot, rt =>
      (popValue rt).map fun popped =>
        { popped.2 with locals := update popped.2.locals slot popped.1 }
  | .DUP_r index, rt => (Stacks.dupTop (index - 1) rt.stack).map fun stack => { rt with stack := stack }
  | .SWAP_r index, rt => (Stacks.swapTop index rt.stack).map fun stack => { rt with stack := stack }
  | .POP_r, rt => (popValue rt).map Prod.snd

def execCode (code : List OutInstr) (rt : StackState Value World) :
    Option (StackState Value World) :=
  Runs.run (execOut sem) code rt

end Semantics

/-! ### When the simulation goes through -/

def remaining (F : MachineFunction) (ref : InstrRef) : List MachineInstr :=
  (F.instrs ref.block).drop (ref.index + 1)

abbrev ReadLater (F : MachineFunction) (ref : InstrRef) (reg : Register) : Prop :=
  Liveness.Exposed MachineInstr.useRegisters MachineInstr.defRegister reg (remaining F ref)

/-- An instruction has at most two register operands, and does not consume one
stack register twice. -/
def OperandsSound (F : MachineFunction) (ref : InstrRef) (st : EVMStackAlloc) : Prop :=
  ref.instr.useRegisters.length ≤ 2 ∧
    ∀ reg ∈ ref.instr.useRegisters, ref.instr.useRegisters = [reg, reg] →
      (st.lookup reg).region ≠ .NONSTACK → regIsLastUse F st.MRI ref reg = false

/-- The clean-up behind an instruction with more than two explicit operands
looks for registers at their last use, which the instruction has consumed. -/
def NothingToCleanUp (F : MachineFunction) (ref : InstrRef) (st : EVMStackAlloc) : Prop :=
  2 < ref.instr.explicitUses.length →
    ∀ reg ∈ ref.instr.useRegisters, regIsLastUse F st.MRI ref reg = false

/-- Reads of the register later in the block find the value of the definition. -/
def ReadsBack (F : MachineFunction) (ref : InstrRef) (defReg : Register) (st : EVMStackAlloc) :
    Prop :=
  (st.regAssignments defReg).isSome = true → (st.lookup defReg).region = .NONSTACK →
    ReadLater F ref defReg → storedRegister F (.define ref) st = some defReg ∧
      SlotIsNext st.memoryAssignment (st.lookup defReg).slot

/-- The definition takes no slot another register is read from later in the block. -/
def SparesSlots (F : MachineFunction) (ref : InstrRef) (defReg : Register) (st : EVMStackAlloc) :
    Prop :=
  storedRegister F (.define ref) st = some defReg →
    ∀ other ∈ (remaining F ref).flatMap MachineInstr.useRegisters, other ≠ defReg →
      ReadLater F ref other → (st.lookup other).region = .NONSTACK →
        ¬ SlotIsNext st.memoryAssignment (st.lookup other).slot

/-- A definition is used somewhere, is not on the symbolic stack already, is
found by later reads and spares the slots of others. -/
structure DefinitionSound (F : MachineFunction) (ref : InstrRef) (defReg : Register)
    (st : EVMStackAlloc) : Prop where
  used : ¬ (st.MRI.hasOneDef defReg = true ∧ st.MRI.useEmpty defReg = true)
  offStack : defReg ∉ st.stack
  readsBack : ReadsBack F ref defReg st
  spares : SparesSlots F ref defReg st

def StepSound (F : MachineFunction) : AllocStep → EVMStackAlloc → Prop
  | .uses ref, st => OperandsSound F ref st
  | .define ref, st => ∀ defReg ∈ ref.instr.defRegister, DefinitionSound F ref defReg st
  | .cleanUp ref, st => NothingToCleanUp F ref st
  | _, _ => True

instance (F : MachineFunction) (ref : InstrRef) (defReg : Register) (st : EVMStackAlloc) :
    Decidable (ReadsBack F ref defReg st) :=
  inferInstanceAs (Decidable ((st.regAssignments defReg).isSome = true →
    (st.lookup defReg).region = .NONSTACK → ReadLater F ref defReg →
      storedRegister F (.define ref) st = some defReg ∧
        SlotIsNext st.memoryAssignment (st.lookup defReg).slot))

instance (F : MachineFunction) (ref : InstrRef) (defReg : Register) (st : EVMStackAlloc) :
    Decidable (SparesSlots F ref defReg st) :=
  inferInstanceAs (Decidable (storedRegister F (.define ref) st = some defReg →
    ∀ other ∈ (remaining F ref).flatMap MachineInstr.useRegisters, other ≠ defReg →
      ReadLater F ref other → (st.lookup other).region = .NONSTACK →
        ¬ SlotIsNext st.memoryAssignment (st.lookup other).slot))

instance (F : MachineFunction) (ref : InstrRef) (defReg : Register) (st : EVMStackAlloc) :
    Decidable (DefinitionSound F ref defReg st) :=
  decidable_of_iff (¬ (st.MRI.hasOneDef defReg = true ∧ st.MRI.useEmpty defReg = true) ∧
      defReg ∉ st.stack ∧ ReadsBack F ref defReg st ∧ SparesSlots F ref defReg st)
    ⟨fun ⟨used, offStack, readsBack, spares⟩ => ⟨used, offStack, readsBack, spares⟩,
      fun ⟨used, offStack, readsBack, spares⟩ => ⟨used, offStack, readsBack, spares⟩⟩

instance (F : MachineFunction) :
    ∀ (step : AllocStep) (st : EVMStackAlloc), Decidable (StepSound F step st)
  | .uses ref, st => inferInstanceAs (Decidable (ref.instr.useRegisters.length ≤ 2 ∧
      ∀ reg ∈ ref.instr.useRegisters, ref.instr.useRegisters = [reg, reg] →
        (st.lookup reg).region ≠ .NONSTACK → regIsLastUse F st.MRI ref reg = false))
  | .define ref, st =>
      inferInstanceAs (Decidable (∀ defReg ∈ ref.instr.defRegister, DefinitionSound F ref defReg st))
  | .emptyBlock, _ => isTrue trivial
  | .noInsertionPoint, _ => isTrue trivial
  | .openBlock _, _ => isTrue trivial
  | .stackArg _ _, _ => isTrue trivial
  | .beginBlock _, _ => isTrue trivial
  | .cleanUp ref, st => inferInstanceAs (Decidable (2 < ref.instr.explicitUses.length →
      ∀ reg ∈ ref.instr.useRegisters, regIsLastUse F st.MRI ref reg = false))
  | .endBlock _, _ => isTrue trivial

section Relation

variable {Value World : Type} {sem : MachineInstr → List Value → World → Value × World}

/-- Run-time stack and symbolic stack agree entry by entry, and the registers
of a set that are in memory are in the slots they are read from. -/
structure Simulates (st : EVMStackAlloc) (state : RegisterState Value World)
    (rt : StackState Value World) (reads : Register → Prop) : Prop where
  stack : rt.stack = st.stack.map state.regs
  world : rt.world = state.world
  locals : ∀ reg, reads reg → (st.lookup reg).region = .NONSTACK →
    rt.locals (st.lookup reg).slot = state.regs reg

variable {ref : InstrRef} {st next : EVMStackAlloc} {state : RegisterState Value World}
variable {rt : StackState Value World} {reads : Register → Prop}

theorem Inserts.simulates (inserted : Inserts ref st next)
    (operands : ∀ reg ∈ ref.instr.useRegisters, reads reg) (related : Simulates st state rt reads) :
    ∃ out after, next.before = st.before ++ [out] ∧ execOut sem out rt = some after ∧
      Simulates next state after reads := by
  cases inserted with
  | load reg operand inMemory =>
      refine ⟨.pGETLOCAL_r reg (st.lookup reg).slot, _, rfl, rfl, ?_, related.world, related.locals⟩
      change rt.locals (st.lookup reg).slot :: rt.stack = state.regs reg :: st.stack.map state.regs
      rw [related.locals reg (operands reg operand) inMemory, related.stack]
  | dup depth done =>
      obtain ⟨copied, duplicated, rfl⟩ := map_eq_some_iff.mp done
      have values : Stacks.dupTop (depth + 1 - 1) rt.stack = some (copied.map state.regs) := by
        rw [related.stack, Stacks.dupTop_map, duplicated]
        rfl
      refine ⟨.DUP_r (depth + 1), { rt with stack := copied.map state.regs }, rfl, ?_, rfl,
        related.world, related.locals⟩
      simp only [execOut, values, map_some]
  | swap depth done =>
      obtain ⟨swapped, exchanged, rfl⟩ := map_eq_some_iff.mp done
      have values : Stacks.swapTop depth rt.stack = some (swapped.map state.regs) := by
        rw [related.stack, Stacks.swapTop_map, exchanged]
        rfl
      refine ⟨.SWAP_r depth, { rt with stack := swapped.map state.regs }, rfl, ?_, rfl,
        related.world, related.locals⟩
      simp only [execOut, values, map_some]

theorem Prepares.simulates (prepared : Prepares ref st next)
    (operands : ∀ reg ∈ ref.instr.useRegisters, reads reg) (related : Simulates st state rt reads) :
    ∃ code after, next.before = st.before ++ code ∧ execCode sem code rt = some after ∧
      Simulates next state after reads := by
  induction prepared with
  | refl => exact ⟨[], rt, by simp, rfl, related⟩
  | tail _ inserted ih =>
      obtain ⟨code, middle, before, executed, kept⟩ := ih
      obtain ⟨out, after, added, stepped, final⟩ := inserted.simulates operands kept
      refine ⟨code ++ [out], after, by rw [added, before, List.append_assoc], ?_, final⟩
      unfold execCode at executed ⊢
      rw [Runs.run_append, executed, bind_some, Runs.run_cons, stepped]
      rfl

theorem execOriginal_of_operands {instr : MachineInstr} {rest : List Register}
    (stack : rt.stack = (instr.useRegisters ++ rest).map state.regs)
    (world : rt.world = state.world) :
    ∃ produced, execOriginal sem instr rt = some produced ∧ produced.locals = rt.locals ∧
      produced.world = (execInstr sem instr state).world ∧
      produced.stack = if instr.defRegister.isSome then
          (sem instr (instr.useRegisters.map state.regs) state.world).1 :: rest.map state.regs
        else rest.map state.regs := by
  have length : instr.useRegisters.length = (instr.useRegisters.map state.regs).length := by
    rw [length_map]
  have enough : ¬ rt.stack.length < instr.useRegisters.length := by
    rw [stack, length_map, length_append]
    omega
  have operands : rt.stack.take instr.useRegisters.length = instr.useRegisters.map state.regs := by
    rw [stack, map_append, length, take_left]
  have others : rt.stack.drop instr.useRegisters.length = rest.map state.regs := by
    rw [stack, map_append, length, drop_left]
  refine ⟨_, if_neg enough, rfl, ?_, ?_⟩
  · simp only [operands, world, execInstr]
  · simp only [operands, others, world]

private theorem map_update_of_not_mem {regs : Register → Value} {reg : Register} {value : Value}
    {entries : List Register} (absent : reg ∉ entries) :
    entries.map (update regs reg value) = entries.map regs := by
  refine map_congr_left fun entry member => update_of_ne ?_ ..
  rintro rfl
  exact absent member

section Definitions

variable {F : MachineFunction} {used : EVMStackAlloc} {defReg : Register} {value : Value}

/-- Registers other than the defined one that are read later are where they are
looked for. -/
def OthersInPlace (F : MachineFunction) (ref : InstrRef) (used : EVMStackAlloc)
    (regs : Register → Value) (locals : Nat → Value) : Prop :=
  ∀ reg, ref.instr.defRegister ≠ some reg → ReadLater F ref reg →
    (used.lookup reg).region = .NONSTACK → locals (used.lookup reg).slot = regs reg

theorem push_locals {regs : Register → Value} {locals : Nat → Value}
    (isDef : ref.instr.defRegister = some defReg) (holds : ReadsBack F ref defReg used)
    (notStored : storedRegister F (.define ref) used = none)
    (entry : next.regAssignments = recorded defReg ⟨.L_STACK, 0⟩ used.regAssignments)
    (others : OthersInPlace F ref used regs locals) :
    ∀ reg, ReadLater F ref reg → (next.lookup reg).region = .NONSTACK →
      locals (next.lookup reg).slot = update regs defReg value reg := by
  intro reg later inPlace
  by_cases self : reg = defReg
  · subst reg
    cases known : used.regAssignments defReg with
    | none =>
        rw [lookup_of_recorded_self entry known] at inPlace
        cases inPlace
    | some held =>
        have assigned : (used.regAssignments defReg).isSome = true := by rw [known]; rfl
        rw [lookup_of_recorded_some entry assigned] at inPlace
        obtain ⟨stored, _⟩ := holds assigned inPlace later
        rw [notStored] at stored
        cases stored
  · rw [lookup_of_recorded_ne entry self] at inPlace ⊢
    rw [update_of_ne self]
    exact others reg (by simpa [isDef] using Ne.symm self) later inPlace

theorem store_locals {regs : Register → Value} {locals : Nat → Value} {slot : Nat}
    (isDef : ref.instr.defRegister = some defReg) (holds : DefinitionSound F ref defReg used)
    (stored : storedRegister F (.define ref) used = some defReg)
    (isNext : SlotIsNext used.memoryAssignment slot)
    (entry : next.regAssignments = recorded defReg ⟨.NONSTACK, slot⟩ used.regAssignments)
    (others : OthersInPlace F ref used regs locals) :
    ∀ reg, ReadLater F ref reg → (next.lookup reg).region = .NONSTACK →
      update locals slot value (next.lookup reg).slot =
        update regs defReg value reg := by
  intro reg later inPlace
  by_cases self : reg = defReg
  · subst reg
    rw [update_self]
    cases known : used.regAssignments defReg with
    | none => rw [lookup_of_recorded_self entry known, update_self]
    | some held =>
        have assigned : (used.regAssignments defReg).isSome = true := by rw [known]; rfl
        rw [lookup_of_recorded_some entry assigned] at inPlace ⊢
        obtain ⟨_, returns⟩ := holds.readsBack assigned inPlace later
        rw [returns.unique isNext, update_self]
  · rw [lookup_of_recorded_ne entry self] at inPlace ⊢
    obtain ⟨instr, member, reads⟩ := later.exists_use
    have apart := holds.spares stored reg (mem_flatMap.mpr ⟨instr, member, reads⟩) self
      later inPlace
    have elsewhere : (used.lookup reg).slot ≠ slot := by
      intro same
      rw [same] at apart
      exact apart isNext
    rw [update_of_ne self, update_of_ne elsewhere]
    exact others reg (by simpa [isDef] using Ne.symm self) later inPlace

theorem handleDef_simulates (done : handleDef F ref used = some next)
    (nothingAfter : used.after = [])
    (sound : ∀ defReg ∈ ref.instr.defRegister, DefinitionSound F ref defReg used)
    (world : rt.world = (execInstr sem ref.instr state).world)
    (stack : rt.stack = if ref.instr.defRegister.isSome then
        (sem ref.instr (ref.instr.useRegisters.map state.regs) state.world).1 ::
          used.stack.map state.regs
      else used.stack.map state.regs)
    (others : OthersInPlace F ref used state.regs rt.locals) :
    ∃ after, execCode sem next.after rt = some after ∧ next.before = used.before ∧
      next.between = used.between ∧
      Simulates next (execInstr sem ref.instr state) after (ReadLater F ref) := by
  rcases handleDef_eq_some done with ⟨noDef, rfl⟩ | ⟨defReg, isDef, unused | onStack | inMemory⟩
  · refine ⟨rt, by rw [nothingAfter]; rfl, rfl, rfl, ?_, world, ?_⟩
    · simpa [noDef, execInstr] using stack
    · intro reg later inPlace
      simpa [noDef, execInstr] using others reg (by simp [noDef]) later inPlace
  · obtain ⟨oneDef, empty, _⟩ := unused
    exact absurd ⟨oneDef, empty⟩ (sound defReg isDef).used
  · obtain ⟨oneDef, _, localDef, rfl⟩ := onStack
    have holds := sound defReg isDef
    have notStored : storedRegister F (.define ref) used = none := by
      simp [storedRegister, isDef, oneDef, localDef]
    simp only [isDef, isSome_some, if_true] at stack
    have regs : (execInstr sem ref.instr state).regs = update state.regs defReg
        (sem ref.instr (ref.instr.useRegisters.map state.regs) state.world).1 := by
      simp only [execInstr, isDef]
    refine ⟨rt, by rw [nothingAfter]; rfl, rfl, rfl, ?_, world, ?_⟩
    · rw [stack, regs, map_cons, update_self, map_update_of_not_mem holds.offStack]
    · rw [regs]
      exact push_locals isDef holds.readsBack notStored rfl others
  · obtain ⟨shared, rfl⟩ := inMemory
    have holds := sound defReg isDef
    have stored := storedRegister_of_shared isDef shared
    obtain ⟨slot, taken, size, placed, result⟩ := storeDef_eq ref defReg used
    simp only [isDef, isSome_some, if_true] at stack
    have regs : (execInstr sem ref.instr state).regs = update state.regs defReg
        (sem ref.instr (ref.instr.useRegisters.map state.regs) state.world).1 := by
      simp only [execInstr, isDef]
    rw [result]
    refine ⟨⟨used.stack.map state.regs, update rt.locals slot
        (sem ref.instr (ref.instr.useRegisters.map state.regs) state.world).1, rt.world⟩,
      ?_, rfl, rfl, ?_, world, ?_⟩
    · simp only [nothingAfter, execCode, Runs.run_cons, Runs.run_nil, execOut, popValue, stack,
        map_some, bind_some]
    · rw [regs, map_update_of_not_mem holds.offStack]
    · rw [regs]
      exact store_locals isDef holds stored placed.isNext rfl others

end Definitions

theorem NothingToCleanUp.kept {F : MachineFunction} (nothing : NothingToCleanUp F ref st)
    (done : cleanUpDeadRegisters F ref st = some next) : next = st := by
  unfold cleanUpDeadRegisters at done
  by_cases few : ref.instr.explicitUses.length ≤ 2
  · rw [if_pos few] at done
    cases done
    rfl
  · rw [if_neg few] at done
    obtain ⟨uses, known, done⟩ := bind_eq_some_iff.mp done
    have readAgain : ∀ use ∈ uses, use.isLastUse = false := by
      intro use member
      rw [(calculateUse_eq_some ((calculateUseRegs_eq_some known).2 use member)).2.1]
      exact nothing (by omega) use.reg (calculateUseRegs_operands known use member)
    clear known
    simp only at done
    induction uses with
    | nil =>
        cases done
        rfl
    | cons first rest ih =>
        obtain ⟨middle, stepped, done⟩ := Runs.run_cons_eq_some _ done
        rw [cleanUpUse, readAgain first mem_cons_self] at stepped
        cases stepped
        exact ih done fun use member => readAgain use (mem_cons_of_mem first member)

theorem analyzeInstr_simulates {F : MachineFunction} (done : analyzeInstr F ref st = some next)
    (clean : st.between = [] ∧ st.after = []) (operandsSound : OperandsSound F ref st)
    (soundAfter : ∀ used, handleUses F ref st = some used →
      (∀ defReg ∈ ref.instr.defRegister, DefinitionSound F ref defReg used) ∧
        ∀ defined, handleDef F ref used = some defined → NothingToCleanUp F ref defined)
    (related : Simulates st state rt fun reg => Liveness.Exposed MachineInstr.useRegisters
      MachineInstr.defRegister reg (ref.instr :: remaining F ref)) :
    (next.between = [] ∧ next.after = []) ∧
      ∃ code after, next.before = st.before ++ code ∧ execCode sem code rt = some after ∧
        Simulates next (execInstr sem ref.instr state) after (ReadLater F ref) := by
  obtain ⟨used, handled, done⟩ := bind_eq_some_iff.mp done
  obtain ⟨defined, defining, done⟩ := bind_eq_some_iff.mp done
  obtain ⟨cleaned, cleaning, done⟩ := bind_eq_some_iff.mp done
  cases done
  obtain ⟨soundDefinition, soundCleanUp⟩ := soundAfter used handled
  cases (soundCleanUp defined defining).kept cleaning
  obtain ⟨ready, prepared, entries, consumed⟩ := handleUses_operands handled operandsSound.1
    fun reg twice => operandsSound.2 reg (by rw [twice]; simp) twice
  obtain ⟨code, readyRt, before, executed, kept⟩ :=
    prepared.simulates (fun reg operand => Or.inl operand) related
  obtain ⟨inserted, defs, readyStack, frame, _⟩ := prepared.frame
  have readyStackValues : readyRt.stack = (ref.instr.useRegisters ++ used.stack).map state.regs := by
    rw [kept.stack, entries]
  obtain ⟨produced, original, sameLocals, world, stack⟩ :=
    execOriginal_of_operands readyStackValues kept.world
  have others : OthersInPlace F ref used state.regs produced.locals := by
    intro reg notDef later inPlace
    rw [consumed] at inPlace ⊢
    rw [sameLocals]
    exact kept.locals reg (later.of_rest notDef) inPlace
  have nothingAfter : used.after = [] := by
    rw [consumed, frame]
    exact clean.2
  obtain ⟨after, finishing, sameBefore, sameBetween, final⟩ := handleDef_simulates defining
    nothingAfter soundDefinition world stack others
  refine ⟨⟨rfl, rfl⟩, code ++ .original ref :: defined.after, after, ?_, ?_,
    final.stack, final.world, final.locals⟩
  · have usedBefore : used.before = ready.before := by rw [consumed]
    have usedBetween : used.between = [] := by
      rw [consumed, frame]
      exact clean.1
    simp [passInstr, sameBefore, sameBetween, usedBefore, usedBetween, before]
  · unfold execCode at executed finishing ⊢
    rw [Runs.run_append, executed, bind_some, Runs.run_cons]
    change (execOriginal sem ref.instr readyRt).bind _ = _
    rw [original]
    exact finishing

theorem run_simulates {F : MachineFunction} {block : Nat} {skipped walked rest : List InstrRef}
    {middle : EVMStackAlloc} (split : F.instrRefs block = skipped ++ (walked ++ rest))
    (clean : st.between = [] ∧ st.after = [])
    (sound : Runs.EveryStep (allocStep F) (StepSound F) (walked.flatMap instrSteps) st)
    (done : Runs.run (analyzeInstr F) walked st = some middle)
    (related : Simulates st state rt fun reg => Liveness.Exposed MachineInstr.useRegisters
      MachineInstr.defRegister reg ((walked ++ rest).map InstrRef.instr)) :
    ∃ code after, middle.before = st.before ++ code ∧ execCode sem code rt = some after ∧
      Simulates middle (execBlock sem walked state) after fun reg =>
        Liveness.Exposed MachineInstr.useRegisters MachineInstr.defRegister reg
          (rest.map InstrRef.instr) := by
  induction walked generalizing skipped st state rt with
  | nil =>
      cases done
      exact ⟨[], rt, by simp, rfl, related⟩
  | cons ref others ih =>
      obtain ⟨next, stepped, remainder⟩ := Runs.run_cons_eq_some _ done
      obtain ⟨inBlock, behind⟩ := instrs_drop_eq split
      have later : remaining F ref = (others ++ rest).map InstrRef.instr := by
        unfold remaining
        rw [inBlock]
        exact behind
      rw [flatMap_cons, Runs.everyStep_append] at sound
      obtain ⟨⟨operandsSound, afterUses⟩, soundLater⟩ := sound
      rw [List.cons_append, map_cons, ← later] at related
      obtain ⟨cleanNext, code, afterRt, before, executed, kept⟩ := analyzeInstr_simulates stepped
        clean operandsSound (fun used handled => ⟨(afterUses used handled).1,
          fun defined defining => ((afterUses used handled).2 defined defining).1⟩) related
      have shifted : F.instrRefs block = (skipped ++ [ref]) ++ (others ++ rest) := by
        rw [split]
        simp
      unfold ReadLater at kept
      rw [later] at kept
      obtain ⟨moreCode, final, moreBefore, moreExecuted, finalKept⟩ := ih shifted cleanNext
        (soundLater next (by rw [← analyzeInstr_eq_run]; exact stepped)) remainder kept
      refine ⟨code ++ moreCode, final, by rw [moreBefore, before, List.append_assoc], ?_, finalKept⟩
      unfold execCode at executed moreExecuted ⊢
      rw [Runs.run_append, executed]
      exact moreExecuted

end Relation

/-- After every instruction of a block whose steps are sound, executing the code
left so far gives a stack of the values of the registers on the symbolic stack. -/
theorem symbolicStack_simulates (F : MachineFunction) (block : Nat) {Value World : Type}
    (sem : MachineInstr → List Value → World → Value × World) (st : EVMStackAlloc)
    (state : RegisterState Value World) (rt : StackState Value World)
    (clean : st.between = [] ∧ st.after = [])
    (sound : Runs.EveryStep (allocStep F) (StepSound F) (bodySteps F block) st)
    (related : Simulates st state rt fun reg => Liveness.Exposed MachineInstr.useRegisters
      MachineInstr.defRegister reg ((bodyRefs F block).map InstrRef.instr))
    (walked rest : List InstrRef) (middle : EVMStackAlloc)
    (split : bodyRefs F block = walked ++ rest)
    (done : Runs.run (analyzeInstr F) walked st = some middle) :
    ∃ code after, middle.before = st.before ++ code ∧ execCode sem code rt = some after ∧
      after.stack = middle.stack.map (execBlock sem walked state).regs ∧
      after.world = (execBlock sem walked state).world := by
  have listed : F.instrRefs block = stackArgs F block ++ (walked ++ rest) := by
    rw [instrRefs_eq_stackArgs_append, split]
  rw [bodySteps, split, flatMap_append, Runs.everyStep_append] at sound
  rw [split] at related
  obtain ⟨code, after, before, executed, final⟩ :=
    run_simulates listed clean sound.1 done related
  exact ⟨code, after, before, executed, final.stack, final.world⟩

/-- `r1 := 1; r2 := 2; r3 := r1 - r2; return r3`, all local to the block. -/
def straightLine : MachineFunction where
  blocks := [
    ⟨[⟨.inst 0x60, some 1, [.imm 1]⟩, ⟨.inst 0x60, some 2, [.imm 2]⟩,
      ⟨.inst 0x03, some 3, [.reg 1, .reg 2]⟩, ⟨.inst 0xf3, none, [.reg 3]⟩], [], []⟩]
  getInterval := fun reg =>
    if reg = 1 then ⟨[(⟨0, 2, 2⟩, ⟨0, 8, 2⟩)], by simp⟩
    else if reg = 2 then ⟨[(⟨0, 5, 2⟩, ⟨0, 8, 2⟩)], by simp⟩
    else ⟨[(⟨0, 8, 2⟩, ⟨0, 11, 2⟩)], by simp⟩
  hasEntry := by simp
  edges := by decide
  nonzero := by decide

def sumSemantics (_ : MachineInstr) (operands : List Nat) (world : Unit) : Nat × Unit :=
  (operands.foldr (· + ·) 1, world)

theorem straightLine_simulates :
    ∃ middle, Runs.run (analyzeInstr straightLine) ((bodyRefs straightLine 0).take 3)
        (startState straightLine fresh) = some middle ∧
      ∃ code after, middle.before = (startState straightLine fresh).before ++ code ∧
        execCode sumSemantics code ⟨[], fun _ => 0, ()⟩ = some after ∧
        after.stack = middle.stack.map (execBlock sumSemantics ((bodyRefs straightLine 0).take 3)
          ⟨fun _ => 0, ()⟩).regs ∧
        after.world = (execBlock sumSemantics ((bodyRefs straightLine 0).take 3)
          ⟨fun _ => 0, ()⟩).world := by
  have runs : (Runs.run (analyzeInstr straightLine) ((bodyRefs straightLine 0).take 3)
      (startState straightLine fresh)).isSome = true := by decide
  obtain ⟨middle, done⟩ := isSome_iff_exists.mp runs
  refine ⟨middle, done, symbolicStack_simulates straightLine 0 sumSemantics
    (startState straightLine fresh) ⟨fun _ => 0, ()⟩ ⟨[], fun _ => 0, ()⟩ ⟨rfl, rfl⟩ (by decide)
    ⟨rfl, rfl, fun _ _ _ => rfl⟩ _ ((bodyRefs straightLine 0).drop 3) middle
    (take_append_drop 3 _).symm done⟩

/-- `r1 := 1; r2 := 2; return r1`, where nobody reads `r2`. -/
def unusedDefinition : MachineFunction where
  blocks := [
    ⟨[⟨.inst 0x60, some 1, [.imm 1]⟩, ⟨.inst 0x60, some 2, [.imm 2]⟩,
      ⟨.inst 0xf3, none, [.reg 1]⟩], [], []⟩]
  getInterval := fun reg =>
    if reg = 1 then ⟨[(⟨0, 2, 2⟩, ⟨0, 8, 2⟩)], by simp⟩
    else ⟨[(⟨0, 5, 2⟩, ⟨0, 5, 3⟩)], by simp⟩
  hasEntry := by simp
  edges := by decide
  nonzero := by decide

/-- The pop for the unused result takes the other register off the symbolic
stack, while at run time it takes off the result itself. -/
theorem unusedDefinition_pops_symbolic_stack :
    ∃ middle after, Runs.run (analyzeInstr unusedDefinition)
        ((bodyRefs unusedDefinition 0).take 2) (startState unusedDefinition fresh) = some middle ∧
      execCode sumSemantics middle.before ⟨[], fun _ => 0, ()⟩ = some after ∧
      middle.stack = [] ∧ after.stack = [1] ∧
      after.stack ≠ middle.stack.map (execBlock sumSemantics
        ((bodyRefs unusedDefinition 0).take 2) ⟨fun _ => 0, ()⟩).regs := by
  have runs : (Runs.run (analyzeInstr unusedDefinition) ((bodyRefs unusedDefinition 0).take 2)
      (startState unusedDefinition fresh)).isSome = true := by decide
  obtain ⟨middle, done⟩ := isSome_iff_exists.mp runs
  have observed : (Runs.run (analyzeInstr unusedDefinition) ((bodyRefs unusedDefinition 0).take 2)
      (startState unusedDefinition fresh)).map (fun state => (state.stack,
        (execCode sumSemantics state.before ⟨[], fun _ => 0, ()⟩).map StackState.stack)) =
      some ([], some [1]) := by decide
  rw [done, map_some, Option.some.injEq, Prod.mk.injEq] at observed
  obtain ⟨after, executed, values⟩ := map_eq_some_iff.mp observed.2
  refine ⟨middle, after, done, executed, observed.1, values, ?_⟩
  rw [observed.1, values]
  exact cons_ne_nil 1 []

end EvmBackend.EVMStackAlloc
