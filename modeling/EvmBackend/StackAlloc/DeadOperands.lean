/-
Instructions with three or more register operands: when the run-time stack
follows the symbolic stack through the instruction, its definition and the
clean-up of the operands that die there.

The clean-up takes the dying operands out of the symbolic stack without asking
whether they are in memory, and its code runs ahead of the store or the pop of
a definition, or backwards where the instruction ends its block. For each way a
definition is treated, whether the stacks agree in the end is a condition on lists.
-/

import EvmBackend.StackAlloc.CleanUp
import EvmBackend.StackAlloc.LiveOperands

namespace EvmBackend.EVMStackAlloc

open List Option

variable {F : MachineFunction} {ref : InstrRef} {st next ready : EVMStackAlloc}

open Stacks (Shuffle discardCode)

/-! ### Code behind an instruction -/

/-- What inserted code does to the stack: a store takes the top entry as well. -/
def shuffleOf : OutInstr → Option Shuffle
  | .SWAP_r depth => some (.swap depth)
  | .POP_r => some .pop
  | .pPUTLOCAL_r _ _ => some .pop
  | _ => none

theorem shuffleOf_codeOf (shuffle : Shuffle) : shuffleOf (codeOf shuffle) = some shuffle := by
  cases shuffle <;> rfl

variable {reg : Register} {shuffles : List Shuffle} {MRI : MachineRegisterInfo}

section Execution

variable {Value World : Type} (sem : MachineInstr → List Value → World → Value × World)

theorem stack_execOut {out : OutInstr} {shuffle : Shuffle} (isShuffle : shuffleOf out = some shuffle)
    (rt : StackState Value World) :
    (execOut sem out rt).map StackState.stack = shuffle.effect rt.stack := by
  cases out with
  | SWAP_r depth =>
      cases isShuffle
      simp only [execOut, Shuffle.effect, Option.map_map]
      cases Stacks.swapTop depth rt.stack <;> rfl
  | POP_r | pPUTLOCAL_r =>
      cases isShuffle
      simp only [execOut, popValue]
      cases rt.stack <;> rfl
  | original | pGETLOCAL_r | DUP_r => cases isShuffle

theorem stack_execCode {later : List OutInstr} (same : later.map shuffleOf = shuffles.map some)
    (rt : StackState Value World) :
    (execCode sem later rt).map StackState.stack =
      Runs.run Shuffle.effect shuffles rt.stack := by
  unfold execCode
  induction later generalizing shuffles rt with
  | nil =>
      cases shuffles with
      | nil => rfl
      | cons shuffle others => cases same
  | cons first rest ih =>
      cases shuffles with
      | nil => cases same
      | cons shuffle others =>
          rw [map_cons, map_cons, List.cons.injEq] at same
          have step := stack_execOut sem same.1 rt
          rw [Runs.run_cons, Runs.run_cons, ← step]
          cases execOut sem first rt with
          | none => rfl
          | some after => exact ih same.2 after

/-- The run-time stack right after the instruction, before anything inserted
behind it. -/
def resultStack (ref : InstrRef) (st : EVMStackAlloc) (state : RegisterState Value World) :
    List Value :=
  if ref.instr.defRegister.isSome then
    (sem ref.instr (ref.instr.useRegisters.map state.regs) state.world).1 ::
      st.stack.map state.regs
  else st.stack.map state.regs

theorem exec_instruction (prepared : Prepares ref st ready)
    (operands : ready.stack = ref.instr.useRegisters ++ st.stack)
    {state : RegisterState Value World} {rt : StackState Value World}
    (related : Simulates st state rt fun reg => reg ∈ ref.instr.useRegisters) :
    ∃ code produced, ready.before = st.before ++ code ∧
      execCode sem (code ++ [.original ref]) rt = some produced ∧
      produced.stack = resultStack sem ref st state := by
  have operandsRead : ∃ code loaded, ready.before = st.before ++ code ∧
      execCode sem code rt = some loaded ∧
      Simulates ready state loaded fun reg => reg ∈ ref.instr.useRegisters :=
    prepared.simulates (fun _ operand => operand) related
  obtain ⟨code, loaded, before, executed, kept⟩ := operandsRead
  have values : loaded.stack = (ref.instr.useRegisters ++ st.stack).map state.regs := by
    rw [kept.stack, operands]
  have consumes : ∃ produced, execOriginal sem ref.instr loaded = some produced ∧
      produced.stack = resultStack sem ref st state := by
    obtain ⟨produced, original, _, _, stack⟩ := execOriginal_of_operands values kept.world
    exact ⟨produced, original, stack⟩
  obtain ⟨produced, original, stack⟩ := consumes
  refine ⟨code, produced, before, ?_, stack⟩
  unfold execCode at executed ⊢
  rw [Runs.run_append, executed, bind_some, Runs.run_cons]
  change (execOriginal sem ref.instr loaded).bind _ = _
  rw [original]
  rfl

end Execution

/-- For every meaning of the instruction and every run-time state the symbolic
stack describes, the code left so far runs and its stack holds the values of
the registers on the new symbolic stack. -/
def RunTimeAgrees (ref : InstrRef) (st next : EVMStackAlloc) : Prop :=
  ∀ (Value World : Type) (sem : MachineInstr → List Value → World → Value × World)
    (state : RegisterState Value World) (rt : StackState Value World),
    Simulates st state rt (fun reg => reg ∈ ref.instr.useRegisters) →
      ∃ code after, next.before = st.before ++ code ∧ execCode sem code rt = some after ∧
        after.stack = next.stack.map (execInstr sem ref.instr state).regs

/-- The same for the part behind the instruction, as shuffles of its result. -/
def Delivers (ref : InstrRef) (st : EVMStackAlloc) (shuffles : List Shuffle)
    (rest : List Register) : Prop :=
  ∀ (Value World : Type) (sem : MachineInstr → List Value → World → Value × World)
    (state : RegisterState Value World) (rt : StackState Value World),
    Simulates st state rt (fun reg => reg ∈ ref.instr.useRegisters) →
      Runs.run Shuffle.effect shuffles (resultStack sem ref st state) =
        some (rest.map (execInstr sem ref.instr state).regs)

theorem runTimeAgrees_iff (prepared : Prepares ref st ready)
    (operands : ready.stack = ref.instr.useRegisters ++ st.stack) {later : List OutInstr}
    (left : next.before = ready.before ++ .original ref :: later)
    (same : later.map shuffleOf = shuffles.map some) :
    RunTimeAgrees ref st next ↔ Delivers ref st shuffles next.stack := by
  constructor
  · intro agrees Value World sem state rt related
    obtain ⟨code, after, before, executed, stack⟩ := agrees Value World sem state rt related
    obtain ⟨loads, produced, loading, begun, result⟩ :=
      exec_instruction sem prepared operands related
    have split : code = (loads ++ [.original ref]) ++ later := by
      have whole : st.before ++ code = st.before ++ ((loads ++ [.original ref]) ++ later) := by
        rw [← before, left, loading]
        simp
      exact append_cancel_left whole
    unfold execCode at executed begun
    rw [split, Runs.run_append, begun, bind_some] at executed
    have shuffled := stack_execCode sem same produced
    unfold execCode at shuffled
    rw [executed, map_some, result, stack] at shuffled
    exact shuffled.symm
  · intro delivers Value World sem state rt related
    obtain ⟨loads, produced, loading, begun, result⟩ :=
      exec_instruction sem prepared operands related
    have shuffled := stack_execCode sem same produced
    rw [result, delivers Value World sem state rt related] at shuffled
    obtain ⟨after, executed, stack⟩ := map_eq_some_iff.mp shuffled
    refine ⟨(loads ++ [.original ref]) ++ later, after, by rw [left, loading]; simp, ?_, stack⟩
    unfold execCode at begun executed ⊢
    rw [Runs.run_append, begun]
    exact executed

def stackDefinition (F : MachineFunction) (ref : InstrRef) (st : EVMStackAlloc) : List Register :=
  ref.instr.defRegister.toList.filter fun defReg =>
    decide (definitionRegion F (loadedInfo ref st) ref defReg = .L_STACK)

/-- The instruction goes through with every register found where it is looked
for; the run-time stack follows the symbolic one; no operand at its last use is
left; and the rest of the stack is the old one with the definition. -/
def CleansUp (F : MachineFunction) (ref : InstrRef) (st : EVMStackAlloc) : Prop :=
  ∃ next, analyzeInstr F ref st = some next ∧ RunTimeAgrees ref st next ∧
    (∀ reg ∈ lastUses F st.MRI ref, reg ∉ next.stack) ∧
    next.stack.Perm (stackDefinition F ref st ++
      st.stack.filter fun reg => reg ∉ lastUses F st.MRI ref)

def storedInfo (ref : InstrRef) (defReg : Register) (MRI : MachineRegisterInfo) :
    MachineRegisterInfo :=
  { MRI with uses := MRI.uses ++ [(defReg, ref.slotAfter.getRegSlot)] }

/-- The code that takes the entries out leads to the same stack when it is run
backwards. -/
def Reversible (gone entries : List Register) : Prop :=
  ∀ found ∈ Stacks.discard gone entries,
    Runs.run Shuffle.effect (found.1.flatMap discardCode).reverse entries = some found.2

/-- All dying operands are on the stack, each as often as it is an operand. A
definition in memory needs them on top of the stack, in any order; behind the
last instruction of a block nothing may die below a definition, and the code
must do the same backwards. A definition nobody reads is never treated well. -/
def DeadOperandsSound (F : MachineFunction) (ref : InstrRef) (st : EVMStackAlloc) : Prop :=
  match ref.instr.defRegister with
  | none =>
      Stacks.Exhausts (lastUses F st.MRI ref) st.stack ∧
        (endsBlock F ref = true → Reversible (lastUses F st.MRI ref) st.stack)
  | some defReg =>
      match definitionRegion F (loadedInfo ref st) ref defReg with
      | .L_STACK =>
          Stacks.Exhausts (lastUses F st.MRI ref) st.stack ∧ defReg ∉ st.stack ∧
            (endsBlock F ref = true → lastUses F st.MRI ref = [])
      | .NONSTACK =>
          let gone := lastUses F (storedInfo ref defReg st.MRI) ref
          Stacks.Exhausts gone st.stack ∧ gone.Perm (st.stack.take gone.length) ∧
            (defReg ∈ st.stack → defReg ∈ gone)
      | _ => False

/-! ### From the code to lists -/

/-- The clean-up code as shuffles, in the order in which it is executed. -/
def behind (atEnd : Bool) (depths : List Nat) : List Shuffle :=
  if atEnd then (depths.flatMap discardCode).reverse else depths.flatMap discardCode

theorem passInstr_cleaned_before (ref : InstrRef) (atEnd : Bool) (depths : List Nat) (rest : List Register)
    (st : EVMStackAlloc) :
    (passInstr ref (cleaned atEnd depths rest st)).before =
      st.before ++ .original ref ::
        (st.between ++ (behind atEnd depths).map codeOf ++ st.after) := by
  cases atEnd <;> simp [passInstr, cleaned, behind]

theorem cleansUp_iff_discard {used defined : EVMStackAlloc} {uses : List RegUseType}
    (many : 3 ≤ ref.instr.useRegisters.length) (prepared : Prepares ref st ready)
    (operands : ready.stack = ref.instr.useRegisters ++ st.stack)
    (handled : handleUses F ref st = some used) (defining : handleDef F ref used = some defined)
    (known : calculateUseRegs F ref defined = some uses)
    (before : defined.before = ready.before) (between : defined.between = [])
    {closing : List Shuffle} (closes : defined.after.map shuffleOf = closing.map some) :
    CleansUp F ref st ↔ ∃ depths rest,
      Stacks.discard (lastUses F defined.MRI ref) defined.stack = some (depths, rest) ∧
      Delivers ref st (behind (defined.after.isEmpty && endsBlock F ref) depths ++ closing) rest ∧
      (∀ reg ∈ lastUses F st.MRI ref, reg ∉ rest) ∧
      rest.Perm (stackDefinition F ref st ++
        st.stack.filter fun reg => reg ∉ lastUses F st.MRI ref) := by
  have whole : analyzeInstr F ref st =
      (Stacks.discard (lastUses F defined.MRI ref) defined.stack).map fun found =>
        passInstr ref (cleaned (defined.after.isEmpty && endsBlock F ref) found.1 found.2 defined) := by
    simp only [analyzeInstr, handled, defining, bind_eq_bind, bind_some,
      cleanUpDeadRegisters_eq many known]
    cases Stacks.discard (lastUses F defined.MRI ref) defined.stack <;> rfl
  have agrees : ∀ atEnd depths rest,
      RunTimeAgrees ref st (passInstr ref (cleaned atEnd depths rest defined)) ↔
        Delivers ref st (behind atEnd depths ++ closing) rest := by
    intro atEnd depths rest
    have left := passInstr_cleaned_before ref atEnd depths rest defined
    rw [before, between, nil_append] at left
    have same : ((behind atEnd depths).map codeOf ++ defined.after).map shuffleOf =
        (behind atEnd depths ++ closing).map some := by
      rw [map_append, map_append, closes]
      simp [Function.comp_def, shuffleOf_codeOf]
    rw [runTimeAgrees_iff prepared operands left same, passInstr, cleaned_stack]
  unfold CleansUp
  rw [whole]
  constructor
  · intro cleans
    obtain ⟨next, done, runs, dead, same⟩ := cleans
    obtain ⟨⟨depths, rest⟩, found, rfl⟩ := map_eq_some_iff.mp done
    have left := cleaned_stack (defined.after.isEmpty && endsBlock F ref) depths rest defined
    refine ⟨depths, rest, found, (agrees _ depths rest).mp runs, ?_, ?_⟩
    · intro reg last
      have absent := dead reg last
      rwa [passInstr, left] at absent
    · rwa [passInstr, left] at same
  · intro shuffled
    obtain ⟨depths, rest, found, delivers, dead, same⟩ := shuffled
    have left := cleaned_stack (defined.after.isEmpty && endsBlock F ref) depths rest defined
    refine ⟨_, by rw [found]; rfl, (agrees _ depths rest).mpr delivers, ?_, ?_⟩
    · intro reg last
      rw [passInstr, left]
      exact dead reg last
    · rw [passInstr, left]
      exact same

/-- A valuation that tells the registers on the stack apart from each other and
from the result: every register on the stack is its own value. -/
def token (ref : InstrRef) (st : EVMStackAlloc) (reg : Register) : Option Register :=
  if ref.instr.defRegister = some reg ∨ (st.lookup reg).region = .NONSTACK then none else some reg

theorem token_eq_some {other : Register} (same : token ref st reg = some other) : reg = other := by
  unfold token at same
  split at same
  · cases same
  · exact Option.some.inj same

theorem Delivers.tokens {rest : List Register} (delivers : Delivers ref st shuffles rest)
    (onStack : ∀ reg ∈ st.stack, (st.lookup reg).region ≠ .NONSTACK) :
    Runs.run Shuffle.effect shuffles
        (ref.instr.defRegister.toList.map (fun _ => none) ++ st.stack.map some) =
      some (rest.map (token ref st)) := by
  let regs : Register → Option Register :=
    fun reg => if (st.lookup reg).region = .NONSTACK then none else some reg
  have values : st.stack.map regs = st.stack.map some :=
    map_congr_left fun reg member => if_neg (onStack reg member)
  have ran := delivers (Option Register) Unit (fun _ _ _ => (none, ())) ⟨regs, ()⟩
    ⟨st.stack.map regs, fun _ => none, ()⟩ ⟨rfl, rfl, fun reg _ inMemory => (if_pos inMemory).symm⟩
  cases isDef : ref.instr.defRegister with
  | none =>
      simp only [resultStack, isDef, isSome_none, Bool.false_eq_true, if_false, values,
        execInstr] at ran
      rw [toList_none, map_nil, nil_append, ran]
      congr 1
      apply map_congr_left
      intro reg _
      simp [regs, token, isDef]
  | some defReg =>
      simp only [resultStack, isDef, isSome_some, if_true, values, execInstr] at ran
      rw [toList_some, map_cons, map_nil, List.cons_append, nil_append, ran]
      congr 1
      apply map_congr_left
      intro reg _
      by_cases self : reg = defReg
      · subst reg
        simp [token, isDef]
      · simp [regs, token, isDef, Function.update_of_ne self, Ne.symm self]

section Cases

variable (many : 3 ≤ ref.instr.useRegisters.length) (clean : st.between = [] ∧ st.after = [])
variable (present : ∀ reg ∈ ref.instr.useRegisters, (st.lookup reg).region ≠ .NONSTACK →
  reg ∈ st.stack)
variable (onStack : ∀ reg ∈ st.stack, (st.lookup reg).region ≠ .NONSTACK)

include many clean present in
theorem exists_used (F : MachineFunction) :
    ∃ ready used, Prepares ref st ready ∧
      ready.stack = ref.instr.useRegisters ++ st.stack ∧ handleUses F ref st = some used ∧
      used.stack = st.stack ∧ used.before = ready.before ∧ used.MRI = loadedInfo ref st ∧
      used.between = [] ∧ used.after = [] ∧ ∀ reg, used.lookup reg = st.lookup reg := by
  obtain ⟨ready, prepared, operands, info, handled⟩ := handleUses_many (F := F) many present
  obtain ⟨inserted, defs, stack, frame, _⟩ := prepared.frame
  have nothing : ready.between = [] ∧ ready.after = [] := by
    rw [frame]
    exact clean
  exact ⟨ready, _, prepared, operands, handled, rfl, rfl, info, nothing.1, nothing.2,
    prepared.lookup⟩

include many clean present in
theorem cleansUp_none_iff_discard (noDef : ref.instr.defRegister = none) :
    CleansUp F ref st ↔ ∃ depths rest,
      Stacks.discard (lastUses F st.MRI ref) st.stack = some (depths, rest) ∧
      Delivers ref st (behind (endsBlock F ref) depths) rest ∧
      (∀ reg ∈ lastUses F st.MRI ref, reg ∉ rest) ∧
      rest.Perm (st.stack.filter fun reg => reg ∉ lastUses F st.MRI ref) := by
  obtain ⟨ready, used, prepared, operands, handled, stack, before, info, between, after, lookups⟩ :=
    exists_used many clean present F
  have presentStill : ∀ reg ∈ ref.instr.useRegisters,
      (used.lookup reg).region ≠ .NONSTACK → reg ∈ used.stack := by
    intro reg operand elsewhere
    rw [lookups] at elsewhere
    rw [stack]
    exact present reg operand elsewhere
  obtain ⟨uses, known⟩ := calculateUseRegs_total (F := F) presentStill
  have closes : used.after.map shuffleOf = ([] : List Shuffle).map some := by
    rw [after]
    rfl
  have noStackDef : stackDefinition F ref st = [] := by
    simp [stackDefinition, noDef]
  rw [cleansUp_iff_discard many prepared operands handled (handleDef_none noDef) known before
    between closes]
  simp only [info, stack, after, isEmpty_nil, Bool.true_and, append_nil, noStackDef,
    nil_append]
  rfl

include many clean present onStack in
theorem cleansUp_none_iff (noDef : ref.instr.defRegister = none) :
    CleansUp F ref st ↔ Stacks.Exhausts (lastUses F st.MRI ref) st.stack ∧
      (endsBlock F ref = true → Reversible (lastUses F st.MRI ref) st.stack) := by
  rw [cleansUp_none_iff_discard many clean present noDef]
  constructor
  · intro shuffled
    obtain ⟨depths, rest, found, delivers, dead, _⟩ := shuffled
    have parts := Stacks.discard_perm found
    refine ⟨(Stacks.exhausts_iff parts).mpr dead, ?_⟩
    intro last other isFound
    rw [found] at isFound
    cases isFound
    -- every register on the stack is its own token, so the runs agree on names
    have ran := delivers.tokens onStack
    have named : rest.map (token ref st) = rest.map some := by
      apply map_congr_left
      intro reg member
      have held : reg ∈ st.stack := parts.mem_iff.mpr (mem_append_right _ member)
      simp [token, noDef, onStack reg held]
    rw [noDef, toList_none, map_nil, nil_append, named, Stacks.run_effect_map,
      behind, if_pos last] at ran
    obtain ⟨after, done, same⟩ := map_eq_some_iff.mp ran
    rw [done, map_injective_iff.mpr (fun _ _ => Option.some.inj) same]
  · intro sound
    obtain ⟨every, backwards⟩ := sound
    obtain ⟨depths, rest, found⟩ := every.discard_isSome
    have parts := Stacks.discard_perm found
    refine ⟨depths, rest, found, ?_, (Stacks.exhausts_iff parts).mp every, every.rest_perm parts⟩
    intro Value World sem state rt _
    have ran : Runs.run Shuffle.effect (behind (endsBlock F ref) depths) st.stack = some rest := by
      unfold behind
      split
      · rename_i last
        exact backwards last (depths, rest) found
      · exact Stacks.run_discard found
    simp only [resultStack, noDef, isSome_none, Bool.false_eq_true, if_false, execInstr]
    rw [Stacks.run_effect_map, ran]
    rfl

variable {defReg : Register} (isDef : ref.instr.defRegister = some defReg)

include many clean present isDef in
theorem cleansUp_pushed_iff_discard
    (region : definitionRegion F (loadedInfo ref st) ref defReg = .L_STACK) :
    CleansUp F ref st ↔ ∃ depths rest,
      Stacks.discard (lastUses F st.MRI ref) (defReg :: st.stack) = some (depths, rest) ∧
      Delivers ref st (behind (endsBlock F ref) depths) rest ∧
      (∀ reg ∈ lastUses F st.MRI ref, reg ∉ rest) ∧
      rest.Perm (defReg :: st.stack.filter fun reg => reg ∉ lastUses F st.MRI ref) := by
  obtain ⟨ready, used, prepared, operands, handled, stack, before, info, between, after, lookups⟩ :=
    exists_used many clean present F
  have defining : handleDef F ref used = some { used with
      regAssignments := recorded defReg ⟨.L_STACK, 0⟩ used.regAssignments
      stack := defReg :: used.stack } :=
    handleDef_pushed isDef (by rw [info]; exact region)
  generalize isDefined : ({ used with
      regAssignments := recorded defReg ⟨.L_STACK, 0⟩ used.regAssignments
      stack := defReg :: used.stack } : EVMStackAlloc) = defined at defining
  have entry : defined.regAssignments = recorded defReg ⟨.L_STACK, 0⟩ used.regAssignments := by
    rw [← isDefined]
  have pushed : defined.stack = defReg :: st.stack := by rw [← isDefined, ← stack]
  have presentStill : ∀ reg ∈ ref.instr.useRegisters,
      (defined.lookup reg).region ≠ .NONSTACK → reg ∈ defined.stack := by
    intro reg operand elsewhere
    rw [pushed]
    by_cases self : reg = defReg
    · rw [self]
      exact mem_cons_self
    · rw [lookup_of_recorded_ne entry self, lookups] at elsewhere
      exact mem_cons_of_mem _ (present reg operand elsewhere)
  obtain ⟨uses, known⟩ := calculateUseRegs_total (F := F) presentStill
  have definedInfo : defined.MRI = loadedInfo ref st := by rw [← isDefined, ← info]
  have definedAfter : defined.after = [] := by rw [← isDefined, ← after]
  have closes : defined.after.map shuffleOf = ([] : List Shuffle).map some := by
    rw [definedAfter]
    rfl
  have definition : stackDefinition F ref st = [defReg] := by
    simp [stackDefinition, isDef, region]
  rw [cleansUp_iff_discard many prepared operands handled defining known
    (by rw [← isDefined, ← before]) (by rw [← isDefined, ← between]) closes]
  simp only [definedInfo, pushed, definedAfter, isEmpty_nil, Bool.true_and, append_nil,
    definition, List.cons_append, nil_append]
  rfl

include many clean present onStack isDef in
theorem cleansUp_pushed_iff
    (region : definitionRegion F (loadedInfo ref st) ref defReg = .L_STACK) :
    CleansUp F ref st ↔ Stacks.Exhausts (lastUses F st.MRI ref) st.stack ∧ defReg ∉ st.stack ∧
      (endsBlock F ref = true → lastUses F st.MRI ref = []) := by
  rw [cleansUp_pushed_iff_discard many clean present isDef region]
  constructor
  · intro shuffled
    obtain ⟨depths, rest, found, delivers, dead, same⟩ := shuffled
    have parts := Stacks.discard_perm found
    have kept : defReg ∈ rest := same.mem_iff.mpr mem_cons_self
    have lives : defReg ∉ lastUses F st.MRI ref := fun dies => dead defReg dies kept
    have every := (Stacks.exhausts_iff parts).mpr dead
    have ran := delivers.tokens onStack
    have isNone : token ref st defReg = none := if_pos (Or.inl isDef)
    rw [isDef, toList_some, map_cons, map_nil, List.cons_append,
      nil_append] at ran
    refine ⟨(Stacks.exhausts_cons_iff lives).mp every, ?_, ?_⟩
    · intro already
      -- both occurrences of the register would need the result, which is there once
      have twice : 2 ≤ rest.count defReg := by
        have counts := parts.count_eq defReg
        rw [count_append, count_eq_zero.mpr lives, count_cons_self] at counts
        have once := count_pos_iff.mpr already
        omega
      have tokens : rest.count defReg ≤ (rest.map (token ref st)).count none := by
        rw [← isNone]
        exact count_le_count_map
      have absent : (st.stack.map some).count none = 0 := count_eq_zero.mpr (by simp)
      have few := (Stacks.run_effect_subperm ran).count_le none
      rw [count_cons_self, absent] at few
      omega
    · intro last
      by_contra dying
      have nonempty : depths ≠ [] := by
        intro empty
        have length := Stacks.length_of_discard found
        rw [empty] at length
        exact dying (length_eq_zero_iff.mp length.symm)
      obtain ⟨code, backwards⟩ := Stacks.discardCode_reverse nonempty
      -- the first pop takes the result away
      rw [behind, if_pos last, backwards, Runs.run_cons] at ran
      have popped : Runs.run Shuffle.effect code (st.stack.map some) =
          some (rest.map (token ref st)) := ran
      have left := (Stacks.run_effect_subperm popped).subset
        (List.mem_map.mpr ⟨defReg, kept, isNone⟩)
      simp at left
  · intro sound
    obtain ⟨every, fresh, last⟩ := sound
    have lives : defReg ∉ lastUses F st.MRI ref := by
      intro dies
      have counts := every defReg dies
      rw [count_eq_zero.mpr fresh] at counts
      exact count_eq_zero.mp counts dies
    have everyPushed := (Stacks.exhausts_cons_iff lives).mpr every
    obtain ⟨depths, rest, found⟩ := everyPushed.discard_isSome
    have parts := Stacks.discard_perm found
    refine ⟨depths, rest, found, ?_, (Stacks.exhausts_iff parts).mp everyPushed, ?_⟩
    · intro Value World sem state rt _
      have ran : Runs.run Shuffle.effect (behind (endsBlock F ref) depths) (defReg :: st.stack) =
          some rest := by
        unfold behind
        split
        · rename_i isLast
          rw [last isLast] at found
          cases found
          rfl
        · exact Stacks.run_discard found
      have values : resultStack sem ref st state =
          (defReg :: st.stack).map (execInstr sem ref.instr state).regs := by
        simp only [resultStack, isDef, isSome_some, if_true, execInstr, map_cons,
          Function.update_self]
        congr 1
        apply map_congr_left
        intro reg member
        rw [Function.update_of_ne]
        rintro rfl
        exact fresh member
      rw [values, Stacks.run_effect_map, ran]
      rfl
    · have left := everyPushed.rest_perm parts
      rwa [filter_cons_of_pos (by simpa using lives)] at left

include many clean present isDef in
theorem cleansUp_stored_iff_discard
    (region : definitionRegion F (loadedInfo ref st) ref defReg = .NONSTACK) :
    CleansUp F ref st ↔ ∃ depths rest,
      Stacks.discard (lastUses F (storedInfo ref defReg st.MRI) ref) st.stack =
        some (depths, rest) ∧
      Delivers ref st (depths.flatMap discardCode ++ [.pop]) rest ∧
      (∀ reg ∈ lastUses F st.MRI ref, reg ∉ rest) ∧
      rest.Perm (st.stack.filter fun reg => reg ∉ lastUses F st.MRI ref) := by
  obtain ⟨ready, used, prepared, operands, handled, stack, before, info, between, after, lookups⟩ :=
    exists_used many clean present F
  have defining : handleDef F ref used = some (storeDef ref defReg used) :=
    handleDef_stored isDef (by rw [info]; exact region)
  obtain ⟨slot, taken, size, _, result⟩ := storeDef_eq ref defReg used
  generalize storeDef ref defReg used = defined at defining result
  have entry : defined.regAssignments =
      recorded defReg ⟨.NONSTACK, slot⟩ used.regAssignments := by rw [result]
  have kept : defined.stack = st.stack := by rw [result, ← stack]
  have presentStill : ∀ reg ∈ ref.instr.useRegisters,
      (defined.lookup reg).region ≠ .NONSTACK → reg ∈ defined.stack := by
    intro reg operand elsewhere
    rw [kept]
    by_cases missing : reg = defReg ∧ used.regAssignments reg = none
    · rw [missing.1, lookup_of_recorded_self entry (missing.1 ▸ missing.2)] at elsewhere
      exact absurd rfl elsewhere
    · have same : defined.lookup reg = used.lookup reg := by
        by_cases self : reg = defReg
        · cases assigned : used.regAssignments reg with
          | none => exact absurd ⟨self, assigned⟩ missing
          | some held => exact lookup_of_recorded_some entry (by rw [assigned]; rfl)
        · exact lookup_of_recorded_ne entry self
      rw [same, lookups] at elsewhere
      exact present reg operand elsewhere
  obtain ⟨uses, known⟩ := calculateUseRegs_total (F := F) presentStill
  have stored : defined.after = [.pPUTLOCAL_r defReg slot] := by rw [result, after]
  have closes : defined.after.map shuffleOf = [Shuffle.pop].map some := by
    rw [stored]
    rfl
  have definedInfo : defined.MRI = storedInfo ref defReg (loadedInfo ref st) := by
    rw [result, ← info]
    rfl
  have noStackDef : stackDefinition F ref st = [] := by
    simp [stackDefinition, isDef, region]
  rw [cleansUp_iff_discard many prepared operands handled defining known
    (by rw [result, ← before]) (by rw [result, ← between]) closes]
  simp only [definedInfo, kept, stored, isEmpty_cons, Bool.false_and, noStackDef,
    nil_append]
  rfl

/-! The store of the definition is one more use of its register. -/

theorem useOperands_storedInfo (reg : Register) (MRI : MachineRegisterInfo) :
    (storedInfo ref defReg MRI).useOperands reg =
      MRI.useOperands reg ++ if defReg = reg then [ref.slotAfter.getRegSlot] else [] := by
  unfold storedInfo MachineRegisterInfo.useOperands
  by_cases self : defReg = reg <;> simp [self]

theorem regIsLastUse_eq_true :
    regIsLastUse F MRI ref reg = true ↔ (MRI.useOperands reg).length = 1 ∨
      ∀ useSlot ∈ MRI.useOperands reg, ¬ (ref.slotIndex.getRegSlot.isEarlierInstr useSlot = true ∧
        useSlot.isEarlierInstr (MachineFunction.getMBBEndIdx (F.blocks.length - 1)) = true) := by
  unfold regIsLastUse MachineRegisterInfo.hasOneUse rangeContainsRegUses
  by_cases one : (MRI.useOperands reg).length = 1
  · simp [one]
  · simp [one]

theorem regIsLastUse_storedInfo_of_ne (other : defReg ≠ reg) :
    regIsLastUse F (storedInfo ref defReg MRI) ref reg = regIsLastUse F MRI ref reg := by
  rw [Bool.eq_iff_iff, regIsLastUse_eq_true, regIsLastUse_eq_true, useOperands_storedInfo,
    if_neg other, append_nil]

theorem regIsLastUse_of_storedInfo
    (last : regIsLastUse F (storedInfo ref defReg MRI) ref reg = true) :
    regIsLastUse F MRI ref reg = true := by
  rw [regIsLastUse_eq_true, useOperands_storedInfo] at last
  rw [regIsLastUse_eq_true]
  rcases last with one | outside
  · by_cases self : defReg = reg
    · rw [if_pos self, length_append, length_singleton] at one
      have noUse : MRI.useOperands reg = [] := length_eq_zero_iff.mp (by omega)
      rw [noUse]
      exact Or.inr fun useSlot absent => by cases absent
    · rw [if_neg self, append_nil] at one
      exact Or.inl one
  · exact Or.inr fun useSlot member => outside useSlot (mem_append_left _ member)

theorem lastUses_of_storedInfo (dies : reg ∈ lastUses F (storedInfo ref defReg st.MRI) ref) :
    reg ∈ lastUses F st.MRI ref := by
  obtain ⟨operand, last⟩ := mem_filter.mp dies
  exact mem_filter.mpr ⟨operand, regIsLastUse_of_storedInfo last⟩

theorem mem_lastUses_storedInfo (dies : reg ∈ lastUses F st.MRI ref) (other : defReg ≠ reg) :
    reg ∈ lastUses F (storedInfo ref defReg st.MRI) ref := by
  obtain ⟨operand, last⟩ := mem_filter.mp dies
  exact mem_filter.mpr ⟨operand, by rw [regIsLastUse_storedInfo_of_ne other, last]⟩

include onStack isDef in
/-- With the result on top, the clean-up is one entry too high: unless the dying
operands are all there is above it, the last of them stays where it is. -/
theorem Delivers.stored_top {gone rest : List Register} {depths : List Nat}
    (delivers : Delivers ref st (depths.flatMap discardCode ++ [.pop]) rest)
    (found : Stacks.discard gone st.stack = some (depths, rest))
    (dead : ∀ reg ∈ gone, reg ∉ rest) :
    gone.Perm (st.stack.take gone.length) ∧ defReg ∉ rest := by
  have parts := Stacks.discard_perm found
  have ran := delivers.tokens onStack
  rw [isDef, toList_some, map_cons, map_nil, List.cons_append, nil_append,
    Runs.run_append] at ran
  -- the result is not a value of any register below it
  have apart : rest.map some = rest.map (token ref st) → defReg ∉ rest := by
    intro same held
    have own : some defReg = token ref st defReg := map_inj_left.mp same defReg held
    rw [token, if_pos (Or.inl isDef)] at own
    cases own
  by_cases empty : gone = []
  · subst gone
    cases found
    exact ⟨List.Perm.refl _, apart (Option.some.inj ran)⟩
  · obtain ⟨dying, isGone⟩ := exists_mem_of_ne_nil gone empty
    obtain ⟨above, last, below, entries, dies, clear⟩ := Stacks.exists_last_discarded
      ⟨dying, parts.mem_iff.mpr (mem_append_left rest isGone), isGone⟩
    rw [entries, map_append, map_cons, ← List.cons_append] at ran
    rw [entries, append_cons] at found
    have alike : (none :: above.map some : List (Option Register)).length =
        (above ++ [last]).length := by simp
    obtain ⟨upper, high, left, same, moved⟩ := Stacks.run_discard_above found clear
      (some last :: below.map some) alike
    rw [moved, bind_some, Runs.run_cons] at ran
    match upper, high, same with
    | [], [], _ =>
        rw [nil_append] at left
        have whole := parts
        rw [entries, append_cons, left] at whole
        have exactly : (above ++ [last]).Perm gone := (perm_append_right_iff below).mp whole
        refine ⟨?_, ?_⟩
        · rw [entries, append_cons, ← exactly.length_eq, take_left]
          exact exactly.symm
        · apply apart
          rw [left]
          have popped : below.map some = rest.map (token ref st) := Option.some.inj ran
          rwa [left] at popped
    | _ :: _, first :: highs, _ =>
        have popped : highs ++ some last :: below.map some = rest.map (token ref st) :=
          Option.some.inj ran
        have stays : some last ∈ rest.map (token ref st) := by
          rw [← popped]
          simp
        obtain ⟨reg, held, same⟩ := List.mem_map.mp stays
        rw [token_eq_some same] at held
        exact absurd held (dead last dies)

include many clean present onStack isDef in
theorem cleansUp_stored_iff
    (region : definitionRegion F (loadedInfo ref st) ref defReg = .NONSTACK) :
    CleansUp F ref st ↔
      Stacks.Exhausts (lastUses F (storedInfo ref defReg st.MRI) ref) st.stack ∧
        (lastUses F (storedInfo ref defReg st.MRI) ref).Perm
          (st.stack.take (lastUses F (storedInfo ref defReg st.MRI) ref).length) ∧
        (defReg ∈ st.stack → defReg ∈ lastUses F (storedInfo ref defReg st.MRI) ref) := by
  rw [cleansUp_stored_iff_discard many clean present isDef region]
  generalize isGone : lastUses F (storedInfo ref defReg st.MRI) ref = gone
  have wasLast : ∀ reg ∈ gone, reg ∈ lastUses F st.MRI ref := by
    intro reg dies
    rw [← isGone] at dies
    exact lastUses_of_storedInfo dies
  constructor
  · intro shuffled
    obtain ⟨depths, rest, found, delivers, dead, _⟩ := shuffled
    have parts := Stacks.discard_perm found
    have deadGone : ∀ reg ∈ gone, reg ∉ rest := fun reg dies => dead reg (wasLast reg dies)
    obtain ⟨top, notLeft⟩ := delivers.stored_top onStack isDef found deadGone
    refine ⟨(Stacks.exhausts_iff parts).mpr deadGone, top, ?_⟩
    intro already
    rcases mem_append.mp (parts.mem_iff.mp already) with dies | held
    · exact dies
    · exact absurd held notLeft
  · intro sound
    obtain ⟨every, top, already⟩ := sound
    obtain ⟨depths, rest, found⟩ := every.discard_isSome
    have parts := Stacks.discard_perm found
    have deadGone := (Stacks.exhausts_iff parts).mp every
    have within : ∀ reg ∈ rest, reg ∈ st.stack :=
      fun reg held => parts.mem_iff.mpr (mem_append_right gone held)
    have notLeft : defReg ∉ rest :=
      fun held => deadGone defReg (already (within defReg held)) held
    have same : ∀ reg ∈ st.stack, reg ∈ lastUses F st.MRI ref ↔ reg ∈ gone := by
      intro reg held
      refine ⟨fun dies => ?_, wasLast reg⟩
      by_cases self : defReg = reg
      · rw [← self] at held ⊢
        exact already held
      · rw [← isGone]
        exact mem_lastUses_storedInfo dies self
    refine ⟨depths, rest, found, ?_, ?_, ?_⟩
    · intro Value World sem state rt _
      have size : gone.length ≤ st.stack.length := by
        have count := top.length_eq
        rw [length_take] at count
        omega
      have values : rest.map (execInstr sem ref.instr state).regs = rest.map state.regs := by
        apply map_congr_left
        intro reg held
        simp only [execInstr, isDef]
        apply Function.update_of_ne
        rintro rfl
        exact notLeft held
      simp only [resultStack, isDef, isSome_some, if_true]
      rw [Stacks.run_discard_top_pop found every top _ _ (by rw [length_map]; exact size),
        values, Stacks.discard_top_rest found every top, map_drop]
    · intro reg dies held
      exact deadGone reg ((same reg (within reg held)).mp dies) held
    · have agree : (st.stack.filter fun reg => reg ∉ lastUses F st.MRI ref) =
          st.stack.filter fun reg => reg ∉ gone := by
        apply filter_congr
        intro reg held
        simp only [same reg held]
      rw [agree]
      exact every.rest_perm parts

include many clean present onStack isDef in
/-- A definition nobody reads is popped from the symbolic stack although it was
never there: afterwards the run-time stack has one entry more. -/
theorem not_cleansUp_unused
    (region : definitionRegion F (loadedInfo ref st) ref defReg = .NO_ALLOCATION) :
    ¬ CleansUp F ref st := by
  obtain ⟨ready, used, prepared, operands, handled, stack, before, info, between, after, lookups⟩ :=
    exists_used many clean present F
  intro cleans
  have goesThrough := cleans
  obtain ⟨next, done, _⟩ := goesThrough
  simp only [analyzeInstr, handled, bind_eq_bind, bind_some] at done
  obtain ⟨defined, defining, done⟩ := bind_eq_some_iff.mp done
  obtain ⟨cleaned, cleaning, _⟩ := bind_eq_some_iff.mp done
  have popping := defining
  rw [handleDef_unused isDef (by rw [info]; exact region)] at popping
  obtain ⟨top, below, entries, rfl⟩ := pop_eq_some popping
  rw [cleanUpDeadRegisters, if_neg (explicitUses_not_few many)] at cleaning
  obtain ⟨uses, known, _⟩ := bind_eq_some_iff.mp cleaning
  have closes : (OutInstr.POP_r :: used.after).map shuffleOf = [Shuffle.pop].map some := by
    rw [after]
    rfl
  obtain ⟨depths, rest, found, delivers, _, _⟩ := (cleansUp_iff_discard many prepared operands
    handled defining known before between closes).mp cleans
  have symbolic := (Stacks.discard_perm found).length_eq
  have count : depths.length = (lastUses F used.MRI ref).length := Stacks.length_of_discard found
  have atRunTime := Stacks.length_run_effect (delivers.tokens onStack)
  have whole : st.stack.length = below.length + 1 := by
    rw [← stack, entries, length_cons]
  simp only [isDef, isEmpty_cons, Bool.false_and, behind, Bool.false_eq_true, if_false,
    count_append, Stacks.count_pop_discardCode, length_append, length_map,
    length_toList, isSome_some, if_true, count_singleton_self] at atRunTime symbolic
  omega

end Cases

/-- An instruction with three or more register operands, on a symbolic stack of
stack registers that holds its stack operands, is cleaned up after exactly when
the clean-up is sound. -/
theorem cleansUp_iff (F : MachineFunction) (ref : InstrRef) (st : EVMStackAlloc)
    (many : 3 ≤ ref.instr.useRegisters.length) (clean : st.between = [] ∧ st.after = [])
    (present : ∀ reg ∈ ref.instr.useRegisters, (st.lookup reg).region ≠ .NONSTACK →
      reg ∈ st.stack)
    (onStack : ∀ reg ∈ st.stack, (st.lookup reg).region ≠ .NONSTACK) :
    CleansUp F ref st ↔ DeadOperandsSound F ref st := by
  unfold DeadOperandsSound
  cases isDef : ref.instr.defRegister with
  | none => exact cleansUp_none_iff many clean present onStack isDef
  | some defReg =>
      rcases definitionRegion_cases F (loadedInfo ref st) ref defReg with region | region | region
      · simp only [region, iff_false]
        exact not_cleansUp_unused many clean present onStack isDef region
      · simp only [region]
        exact cleansUp_pushed_iff many clean present onStack isDef region
      · simp only [region]
        exact cleansUp_stored_iff many clean present onStack isDef region

/-- `r1 := 1; r2 := 2; r3 := 3; r4 := (r1 + r2) mod r3; return r4, r2`, all local
to the block. -/
def modularSum : MachineFunction where
  blocks := [
    ⟨[⟨.inst 0x60, some 1, [.imm 1]⟩, ⟨.inst 0x60, some 2, [.imm 2]⟩,
      ⟨.inst 0x60, some 3, [.imm 3]⟩, ⟨.inst 0x08, some 4, [.reg 1, .reg 2, .reg 3]⟩,
      ⟨.inst 0xf3, none, [.reg 4, .reg 2]⟩], [], []⟩]
  getInterval := fun reg =>
    if reg = 1 then segment 2 11
    else if reg = 2 then segment 5 14
    else if reg = 3 then segment 8 11
    else segment 11 14
  hasEntry := cons_ne_nil _ _
  edges := by decide
  nonzero := by decide

def sum : InstrRef := ⟨0, 3, ⟨.inst 0x08, some 4, [.reg 1, .reg 2, .reg 3]⟩⟩

/-- The stack is `r3, r2, r1`; the first and the last die, the result stays. -/
theorem modularSum_cleansUp :
    sum ∈ bodyRefs modularSum 0 ∧ CleansUp modularSum sum (stateBefore modularSum 3) := by
  refine ⟨by decide, ?_⟩
  apply (cleansUp_iff modularSum sum (stateBefore modularSum 3) (by decide) (by decide) (by decide)
    (by decide)).mpr
  change Stacks.Exhausts _ _ ∧ _ ∉ _ ∧ (_ → _)
  decide

/-- `r1 := 1; r1 := not r1; r2 := 2; r3 := 3; r4 := (r1 + r2) mod r3; return r4, r2`.
The register with two definitions is in memory. -/
def modularSumOfLoaded : MachineFunction where
  blocks := [
    ⟨[⟨.inst 0x60, some 1, [.imm 1]⟩, ⟨.inst 0x19, some 1, [.reg 1]⟩,
      ⟨.inst 0x60, some 2, [.imm 2]⟩, ⟨.inst 0x60, some 3, [.imm 3]⟩,
      ⟨.inst 0x08, some 4, [.reg 1, .reg 2, .reg 3]⟩,
      ⟨.inst 0xf3, none, [.reg 4, .reg 2]⟩], [], []⟩]
  getInterval := fun reg =>
    if reg = 1 then segment 2 14
    else if reg = 2 then segment 8 17
    else if reg = 3 then segment 11 14
    else segment 14 17
  hasEntry := cons_ne_nil _ _
  edges := by decide
  nonzero := by decide

def sumOfLoaded : InstrRef := ⟨0, 4, ⟨.inst 0x08, some 4, [.reg 1, .reg 2, .reg 3]⟩⟩

/-- The operand in memory is at its last use, and the clean-up looks for it on
the stack. -/
theorem modularSumOfLoaded_not_cleansUp :
    sumOfLoaded ∈ bodyRefs modularSumOfLoaded 0 ∧ (stateBefore modularSumOfLoaded 4).stack = [3, 2] ∧
      (∀ reg ∈ sumOfLoaded.instr.useRegisters,
        ((stateBefore modularSumOfLoaded 4).lookup reg).region ≠ .NONSTACK →
          reg ∈ (stateBefore modularSumOfLoaded 4).stack) ∧
      ¬ CleansUp modularSumOfLoaded sumOfLoaded (stateBefore modularSumOfLoaded 4) := by
  refine ⟨by decide, by decide, by decide, ?_⟩
  intro cleans
  obtain ⟨next, done, _⟩ := cleans
  have unreachable : (analyzeInstr modularSumOfLoaded sumOfLoaded
      (stateBefore modularSumOfLoaded 4)).isNone = true := by decide
  rw [done] at unreachable
  cases unreachable

end EvmBackend.EVMStackAlloc
