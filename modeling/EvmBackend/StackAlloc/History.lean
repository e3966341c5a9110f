/-
Compiling a function after others: when the code is the same whatever was
compiled before, and when the slots it names fit the recorded frame.

A run is compared with that of a pass that has seen nothing. The stores of the
code stand in the order in which slots were handed out, so the first slot that
differs is seen in the code.
-/

import EvmBackend.StackAlloc.Agreement

namespace EvmBackend.EVMStackAlloc

open List Option

variable {F : MachineFunction} {st next : EVMStackAlloc}

/-! ### Stores in the order they were made -/

def storeOf : OutInstr → Option (Register × Nat)
  | .pPUTLOCAL_r register slot => some (register, slot)
  | _ => none

def storesOf (code : List OutInstr) : List (Register × Nat) := code.filterMap storeOf

@[simp]
theorem storesOf_append (left right : List OutInstr) :
    storesOf (left ++ right) = storesOf left ++ storesOf right :=
  filterMap_append

@[simp]
theorem storesOf_cons (first : OutInstr) (rest : List OutInstr) :
    storesOf (first :: rest) = (storeOf first).toList ++ storesOf rest := by
  unfold storesOf
  rw [filterMap_cons]
  cases storeOf first <;> rfl

@[simp]
theorem storesOf_nil : storesOf [] = [] := rfl

theorem storesOf_insertIdx_POP (code : List OutInstr) (place : Nat) :
    storesOf (code.insertIdx place .POP_r) = storesOf code := by
  induction code generalizing place with
  | nil => cases place <;> rfl
  | cons first rest ih =>
      cases place with
      | zero => rfl
      | succ place => rw [insertIdx_succ_cons, storesOf_cons, storesOf_cons, ih]

theorem storesOf_silent {code : List OutInstr} (silent : ∀ out ∈ code, storeOf out = none) :
    storesOf code = [] :=
  filterMap_eq_nil_iff.mpr silent

def settled (st : EVMStackAlloc) : List (Register × Nat) :=
  storesOf (st.emitted.flatten ++ st.before)

def unsettled (st : EVMStackAlloc) : List (Register × Nat) :=
  storesOf (st.between ++ st.after)

theorem Cleans.unsettled (cleaned : Cleans st next) : next.unsettled = st.unsettled := by
  unfold EVMStackAlloc.unsettled
  cases cleaned with
  | swapAfter depth done =>
      obtain ⟨_, _, rfl⟩ := map_eq_some_iff.mp done
      simp [storeOf]
  | swapPoint depth done =>
      obtain ⟨_, _, rfl⟩ := map_eq_some_iff.mp done
      simp [storeOf]
  | popAfter done =>
      obtain ⟨_, _, _, rfl⟩ := pop_eq_some done
      simp [storeOf]
  | popPoint done =>
      obtain ⟨_, _, _, rfl⟩ := pop_eq_some done
      simp [storeOf]

variable {steps : List AllocStep} {ref : InstrRef}

theorem cleanUpDeadRegisters_unsettled (done : cleanUpDeadRegisters F ref st = some next) :
    next.unsettled = st.unsettled := by
  have cleaned := cleanUpDeadRegisters_cleans done
  clear done
  induction cleaned with
  | refl => rfl
  | tail _ step ih => exact step.unsettled.trans ih

theorem cleanUp_settled (done : allocStep F (.cleanUp ref) st = some next) :
    next.settled = st.settled ++ st.unsettled := by
  obtain ⟨cleaned, cleaning, rfl⟩ := map_eq_some_iff.mp done
  rw [← cleanUpDeadRegisters_unsettled cleaning]
  obtain ⟨between, after, stack, rfl, _⟩ := cleanUpDeadRegisters_frame cleaning
  simp [settled, unsettled, passInstr, storeOf]

theorem stackArg_settled {first arg : InstrRef} (done : allocStep F (.stackArg first arg) st = some next) :
    (storedRegister F (.stackArg first arg) st = none ∧ next.settled = st.settled) ∨
      ∃ reg slot, storedRegister F (.stackArg first arg) st = some reg ∧
        SlotIsNext st.memoryAssignment slot ∧ next.settled = st.settled ++ [(reg, slot)] := by
  rcases analyzeStackArg_eq_some done with ⟨unused, _, _, _, rfl⟩ | ⟨used, localArg, rfl⟩ |
    ⟨used, shared, slot, _, _, exchange, depth, _, _, _, placed, _, _, _, swaps, rfl⟩
  · refine .inl ⟨by simp [storedRegister, unused], ?_⟩
    simp only [settled, storesOf_append, storesOf_insertIdx_POP]
  · exact .inl ⟨by simp [storedRegister, localArg], rfl⟩
  · refine .inr ⟨argRegister arg, slot, by simp [storedRegister, used, shared], placed.isNext, ?_⟩
    have silent : storesOf exchange = [] := by
      refine storesOf_silent fun out member => ?_
      rw [swaps out member]
      rfl
    simp [settled, silent, storeOf]

theorem define_stores (done : allocStep F (.define ref) st = some next) :
    next.settled = st.settled ∧ ∀ reg, storedRegister F (.define ref) st = some reg →
      ∃ slot, SlotIsNext st.memoryAssignment slot ∧
        next.unsettled = storesOf st.between ++ (reg, slot) :: storesOf st.after := by
  rcases handleDef_eq_some done with ⟨noDef, rfl⟩ | ⟨defReg, isDef, unused | onStack | inMemory⟩
  · refine ⟨rfl, fun reg stored => ?_⟩
    simp [storedRegister, noDef] at stored
  · obtain ⟨oneDef, empty, _, _, _, rfl⟩ := unused
    refine ⟨rfl, fun reg stored => ?_⟩
    simp [storedRegister, isDef, oneDef, empty] at stored
  · obtain ⟨oneDef, _, localDef, rfl⟩ := onStack
    refine ⟨rfl, fun reg stored => ?_⟩
    simp [storedRegister, isDef, oneDef, localDef] at stored
  · obtain ⟨shared, rfl⟩ := inMemory
    obtain ⟨slot, taken, size, placed, result⟩ := storeDef_eq ref defReg st
    rw [result]
    refine ⟨rfl, fun reg stored => ⟨slot, placed.isNext, ?_⟩⟩
    obtain rfl := Option.some.inj ((storedRegister_of_shared isDef shared).symm.trans stored)
    simp [unsettled, storeOf]

theorem allocStep_settled {step : AllocStep} (done : allocStep F step st = some next) :
    ∃ added, next.settled = st.settled ++ added := by
  cases step with
  | emptyBlock =>
      cases done
      exact ⟨[], by simp [settled, closeBlock]⟩
  | noInsertionPoint => cases done
  | openBlock block =>
      cases done
      refine ⟨[], ?_⟩
      have silent : storesOf ((stackArgs F block).map OutInstr.original) = [] := by
        refine storesOf_silent fun out member => ?_
        obtain ⟨ref, _, rfl⟩ := List.mem_map.mp member
        rfl
      simp [settled, openBlock, silent]
  | stackArg first arg =>
      rcases stackArg_settled done with ⟨_, same⟩ | ⟨reg, slot, _, _, same⟩
      · exact ⟨[], by rw [same, append_nil]⟩
      · exact ⟨_, same⟩
  | beginBlock block =>
      rcases beginOfBlockUpdates_eq_some done with
        ⟨_, rfl⟩ | ⟨_, _, slots, inserted, stack, _, _, _, silent, rfl⟩
      · exact ⟨[], (append_nil _).symm⟩
      · have none : storesOf inserted = [] := by
          refine storesOf_silent fun out member => ?_
          have quiet := silent out member
          cases out with
          | pPUTLOCAL_r register slot => cases quiet
          | _ => rfl
        exact ⟨[], by simp [settled, none]⟩
  | uses ref =>
      obtain ⟨inserted, defs, stack, rfl, operands⟩ := handleUses_frame done
      have silent : storesOf inserted = [] := by
        refine storesOf_silent fun out member => ?_
        have operand := operands out member
        cases out with
        | pPUTLOCAL_r register slot => exact absurd operand (by simp [IsOperandCode])
        | _ => rfl
      exact ⟨[], by simp [settled, silent]⟩
  | define ref => exact ⟨[], by rw [(define_stores done).1, append_nil]⟩
  | cleanUp ref => exact ⟨_, cleanUp_settled done⟩
  | endBlock block =>
      obtain ⟨ended, ending, rfl⟩ := map_eq_some_iff.mp done
      rcases endOfBlockUpdates_eq_some ending with ⟨_, rfl⟩ | ⟨_, _, _, _, _, rfl⟩
      · exact ⟨[], by simp [settled, closeBlock]⟩
      · exact ⟨[], by simp [settled, closeBlock]⟩

theorem run_settled {last : EVMStackAlloc} (ran : Runs.run (allocStep F) steps st = some last) :
    ∃ added, last.settled = st.settled ++ added := by
  refine Runs.run_keeps (fun state => ∃ added, state.settled = st.settled ++ added)
    (fun step state after grown stepped => ?_) ⟨[], (append_nil _).symm⟩ ran
  obtain ⟨added, same⟩ := grown
  obtain ⟨more, further⟩ := allocStep_settled stepped
  exact ⟨added ++ more, by rw [further, same, List.append_assoc]⟩

/-! ### The first slot that differs -/

def Followed : List AllocStep → Prop
  | [] => True
  | first :: rest => (∀ ref, first = .define ref → rest.head? = some (.cleanUp ref)) ∧ Followed rest

theorem Followed.append {front back : List AllocStep} (one : Followed front) (two : Followed back) :
    Followed (front ++ back) := by
  induction front with
  | nil => exact two
  | cons first rest ih =>
      refine ⟨fun ref same => ?_, ih one.2⟩
      change (rest ++ back).head? = some (.cleanUp ref)
      rw [head?_append, one.1 ref same, some_or]

theorem followed_flatMap {α : Type} {items : List α} {expand : α → List AllocStep}
    (each : ∀ item ∈ items, Followed (expand item)) : Followed (items.flatMap expand) := by
  induction items with
  | nil => trivial
  | cons item rest ih =>
      rw [flatMap_cons]
      exact (each item mem_cons_self).append
        (ih fun other member => each other (mem_cons_of_mem item member))

private theorem followed_of_no_define (none : ∀ step ∈ steps, ∀ ref, step ≠ .define ref) : Followed steps := by
  induction steps with
  | nil => trivial
  | cons first rest ih =>
      exact ⟨fun ref same => absurd same (none first mem_cons_self ref),
        ih fun step member => none step (mem_cons_of_mem first member)⟩

theorem followed_instrSteps (ref : InstrRef) : Followed (instrSteps ref) := by
  refine ⟨(fun _ absent => by cases absent), fun _ same => ?_, (fun _ absent => by cases absent), trivial⟩
  cases same
  rfl

theorem followed_functionSteps (F : MachineFunction) : Followed (functionSteps F) := by
  refine followed_flatMap fun block _ => ?_
  rcases blockSteps_cases F block with ⟨_, same⟩ | ⟨_, _, same⟩ | ⟨first, rest, _, _, same⟩
  · rw [same]
    exact followed_of_no_define (by simp)
  · rw [same]
    exact followed_of_no_define (by simp)
  · have args : Followed (argSteps F block first) := by
      refine followed_of_no_define fun step member ref same => ?_
      obtain ⟨arg, _, rfl⟩ := List.mem_map.mp member
      cases same
    have body : Followed (bodySteps F block) :=
      followed_flatMap fun ref _ => followed_instrSteps ref
    rw [same]
    have behind : Followed (.beginBlock block :: (bodySteps F block ++ [.endBlock block])) :=
      ⟨(fun _ absent => by cases absent), body.append (followed_of_no_define (by simp))⟩
    exact ⟨(fun _ absent => by cases absent), args.append behind⟩

/-- The stores around the current instruction that a store of the step goes
behind. -/
def aheadOf : AllocStep → EVMStackAlloc → List (Register × Nat)
  | .define _, st => storesOf st.between
  | _, _ => []

theorem stored_shown {step : AllocStep} {rest : List AllocStep} {last : EVMStackAlloc} {reg : Register}
    (followed : Followed (step :: rest)) (stored : storedRegister F step st = some reg)
    (ran : Runs.run (allocStep F) (step :: rest) st = some last) :
    ∃ slot added, SlotIsNext st.memoryAssignment slot ∧
      last.settled = st.settled ++ aheadOf step st ++ (reg, slot) :: added := by
  obtain ⟨middle, stepped, remaining⟩ := Runs.run_cons_eq_some _ ran
  cases step with
  | stackArg first arg =>
      rcases stackArg_settled stepped with ⟨silent, _⟩ | ⟨other, slot, also, isNext, same⟩
      · rw [silent] at stored
        cases stored
      · obtain rfl := Option.some.inj (also.symm.trans stored)
        obtain ⟨added, further⟩ := run_settled remaining
        exact ⟨slot, added, isNext, by rw [further, same]; simp [aheadOf]⟩
  | define ref =>
      obtain ⟨same, shows⟩ := define_stores stepped
      obtain ⟨slot, isNext, waiting⟩ := shows reg stored
      cases rest with
      | nil => cases followed.1 ref rfl
      | cons second later =>
          obtain rfl := Option.some.inj (followed.1 ref rfl)
          obtain ⟨cleaned, cleaning, remaining⟩ := Runs.run_cons_eq_some _ remaining
          obtain ⟨added, further⟩ := run_settled remaining
          refine ⟨slot, storesOf st.after ++ added, isNext, ?_⟩
          rw [further, cleanUp_settled cleaning, same, waiting]
          simp [aheadOf]
  | emptyBlock => cases stored
  | noInsertionPoint | openBlock | beginBlock | uses | cleanUp | endBlock => cases stored

theorem storedRegister_withMaps (slots : List Register)
    (edges : Nat → Option (List Register × List Register)) (step : AllocStep) :
    storedRegister F step (st.withMaps slots edges) = storedRegister F step st := by
  cases step <;> rfl

section Agreement

variable {left right lastLeft lastRight : EVMStackAlloc}

theorem Agree.settled (agree : Agree left right) : left.settled = right.settled := by
  rw [agree.same]
  rfl

theorem everyStep_ownSlots_of_settled (followed : Followed steps) (agree : Agree left right)
    (one : Runs.run (allocStep F) steps left = some lastLeft)
    (two : Runs.run (allocStep F) steps right = some lastRight)
    (same : lastLeft.settled = lastRight.settled) :
    Runs.EveryStep (Runs.both (allocStep F) (allocStep F)) (OwnSlots F) steps (left, right) := by
  induction steps generalizing left right with
  | nil => trivial
  | cons step rest ih =>
      have own : OwnSlots F step (left, right) := by
        intro stores empty
        obtain ⟨reg, stored⟩ := ne_none_iff_exists'.mp stores
        have alsoStored : storedRegister F step right = some reg := by
          rw [agree.same, storedRegister_withMaps]
          exact stored
        obtain ⟨slot, added, isNext, shown⟩ := stored_shown followed stored one
        obtain ⟨other, more, alsoNext, alsoShown⟩ := stored_shown followed alsoStored two
        have front : right.settled ++ aheadOf step right = left.settled ++ aheadOf step left := by
          rw [agree.settled, agree.same]
          cases step <;> rfl
        rw [shown, alsoShown, front] at same
        have slots : slot = other :=
          congrArg Prod.snd (List.cons.inj (append_cancel_left same)).1
        have zero : other = 0 := by
          rw [show right.memoryAssignment = [] from empty] at alsoNext
          rcases alsoNext with ⟨_, absent, _⟩ | ⟨atEnd, _⟩
          · cases absent
          · exact atEnd
        rcases isNext with ⟨positive, _⟩ | ⟨atEnd, _⟩
        · exact absurd (slots.trans zero) positive
        · exact length_eq_zero_iff.mp (atEnd.symm.trans (slots.trans zero))
      obtain ⟨nextLeft, stepped, remaining⟩ := Runs.run_cons_eq_some _ one
      obtain ⟨nextRight, alsoStepped, alsoRemaining⟩ := Runs.run_cons_eq_some _ two
      refine ⟨own, fun pair reached => ?_⟩
      obtain ⟨first, second⟩ := Runs.both_eq_some.mp reached
      obtain rfl := Option.some.inj (stepped.symm.trans first)
      obtain rfl := Option.some.inj (alsoStepped.symm.trans second)
      exact ih followed.2 (allocStep_agree agree own stepped alsoStepped) remaining alsoRemaining

theorem run_agree (agree : Agree left right)
    (every : Runs.EveryStep (Runs.both (allocStep F) (allocStep F)) (OwnSlots F) steps (left, right))
    (one : Runs.run (allocStep F) steps left = some lastLeft)
    (two : Runs.run (allocStep F) steps right = some lastRight) : Agree lastLeft lastRight := by
  have joint : Runs.run (Runs.both (allocStep F) (allocStep F)) steps (left, right) =
      some (lastLeft, lastRight) := Runs.run_both_eq_some.mpr ⟨one, two⟩
  refine Runs.run_keeps_of_everyStep (fun pair => Agree pair.1 pair.2)
    (fun step pair next own kept stepped => ?_) every agree joint
  obtain ⟨first, second⟩ := Runs.both_eq_some.mp stepped
  exact allocStep_agree kept own first second

end Agreement

/-! ### The stack left by the function before -/

def clearStack (st : EVMStackAlloc) : EVMStackAlloc := { st with stack := [] }

theorem run_clearStack {blocks : List Nat} {last : EVMStackAlloc}
    (ran : Runs.run (allocStep F) (blocksSteps F blocks) st = some last) :
    ∃ stack, Runs.run (allocStep F) (blocksSteps F blocks) (clearStack st) =
      some { last with stack := stack } := by
  induction blocks generalizing st with
  | nil =>
      cases ran
      exact ⟨[], rfl⟩
  | cons block rest ih =>
      unfold blocksSteps at ran ih ⊢
      rw [flatMap_cons, Runs.run_append] at ran ⊢
      rcases blockSteps_cases F block with ⟨_, same⟩ | ⟨_, _, same⟩ | ⟨first, _, _, _, same⟩
      · rw [same] at ran ⊢
        exact ih ran
      · rw [same] at ran
        cases ran
      · rw [same] at ran ⊢
        exact ⟨last.stack, ran⟩

theorem everyStep_clearStack {blocks : List Nat} {other : EVMStackAlloc} :
    Runs.EveryStep (Runs.both (allocStep F) (allocStep F)) (OwnSlots F) (blocksSteps F blocks)
        (clearStack st, other) ↔
      Runs.EveryStep (Runs.both (allocStep F) (allocStep F)) (OwnSlots F) (blocksSteps F blocks)
        (st, other) := by
  induction blocks generalizing st other with
  | nil => exact Iff.rfl
  | cons block rest ih =>
      unfold blocksSteps at ih ⊢
      rw [flatMap_cons]
      rcases blockSteps_cases F block with ⟨_, same⟩ | ⟨_, _, same⟩ | ⟨first, _, _, _, same⟩
      · rw [same]
        constructor
        · intro every
          refine ⟨fun stores => absurd rfl stores, fun pair reached => ?_⟩
          cases reached
          exact ih.mp (every.2 _ rfl)
        · intro every
          refine ⟨fun stores => absurd rfl stores, fun pair reached => ?_⟩
          cases reached
          exact ih.mpr (every.2 _ rfl)
      · rw [same]
        constructor
        · exact fun _ => ⟨fun stores => absurd rfl stores, (fun _ reached => by cases reached)⟩
        · exact fun _ => ⟨fun stores => absurd rfl stores, (fun _ reached => by cases reached)⟩
      · rw [same]
        constructor
        · intro every
          exact ⟨fun stores => absurd rfl stores, every.2⟩
        · intro every
          exact ⟨fun stores => absurd rfl stores, every.2⟩

theorem agree_startState (F : MachineFunction) (st : EVMStackAlloc) :
    Agree (clearStack (startState F st)) (startState F fresh) :=
  ⟨rfl, .inr rfl, fun _ => ⟨rfl, .inl rfl⟩⟩

theorem analyzeBasicBlock_before {block : Nat} (done : analyzeBasicBlock F block st = some next) :
    next.before = [] := by
  unfold analyzeBasicBlock at done
  split at done
  · cases done
    rfl
  · obtain ⟨_, _, done⟩ := bind_eq_some_iff.mp done
    obtain ⟨_, _, done⟩ := bind_eq_some_iff.mp done
    obtain ⟨_, _, done⟩ := bind_eq_some_iff.mp done
    obtain ⟨_, _, done⟩ := bind_eq_some_iff.mp done
    cases done
    rfl

theorem run_before {last : EVMStackAlloc} (started : st.before = [])
    (ran : Runs.run (allocStep F) (functionSteps F) st = some last) : last.before = [] := by
  unfold functionSteps at ran
  rw [run_blocksSteps] at ran
  exact Runs.run_keeps (fun state => state.before = [])
    (fun _ _ _ _ stepped => analyzeBasicBlock_before stepped) started ran

section Compiled

variable {last alone : EVMStackAlloc}

/-- The code is that of a pass that has seen nothing exactly when every slot is
taken from the function's own map; the frame size is then the same too. -/
theorem emitted_iff_ownSlots (ran : runOnMachineFunction F st = some last)
    (ranAlone : runOnMachineFunction F fresh = some alone) :
    (last.emitted = alone.emitted ↔
      Runs.EveryStep (Runs.both (allocStep F) (allocStep F)) (OwnSlots F) (functionSteps F)
        (startState F st, startState F fresh)) ∧
    (last.emitted = alone.emitted →
      last.code = alone.code ∧ last.memoryFrameSize = alone.memoryFrameSize) := by
  rw [runOnMachineFunction_eq_run] at ran ranAlone
  obtain ⟨stack, cleared⟩ := run_clearStack ran
  have agreeing : Runs.EveryStep (Runs.both (allocStep F) (allocStep F)) (OwnSlots F)
      (functionSteps F) (startState F st, startState F fresh) →
      Agree { last with stack := stack } alone := by
    intro every
    exact run_agree (agree_startState F st) (everyStep_clearStack.mpr every) cleared ranAlone
  have exact : last.emitted = alone.emitted →
      Runs.EveryStep (Runs.both (allocStep F) (allocStep F)) (OwnSlots F) (functionSteps F)
        (startState F st, startState F fresh) := by
    intro same
    refine everyStep_clearStack.mp (everyStep_ownSlots_of_settled (followed_functionSteps F)
      (agree_startState F st) cleared ranAlone ?_)
    unfold settled
    rw [run_before rfl ranAlone]
    change storesOf (last.emitted.flatten ++ last.before) = _
    rw [run_before rfl ran, same]
  refine ⟨⟨exact, fun every => ?_⟩, fun same => ?_⟩
  · rw [(agreeing every).same]
    rfl
  · rw [(agreeing (exact same)).same]
    exact ⟨rfl, rfl⟩

end Compiled

/-! ### Histories -/

/-- The pass object after compiling the functions of a history and then `F`. -/
def compiledAfter (history : List MachineFunction) (F : MachineFunction) : Option EVMStackAlloc :=
  (Runs.run runOnMachineFunction history fresh).bind (runOnMachineFunction F)

/-- Two histories after which `F` gets the same code, every slot of which is
below the frame size recorded for `F`. -/
def CompiledAlike (F : MachineFunction) (one two : List MachineFunction) : Prop :=
  ∀ left right, compiledAfter one F = some left → compiledAfter two F = some right →
    left.emitted = right.emitted ∧ ∀ slot ∈ namedSlots left, slot < left.memoryFrameSize

def IndependentOfHistory (F : MachineFunction) : Prop :=
  ∀ one two, CompiledAlike F one two

/-- After the history, `F` finds the slot map empty whenever it places a
register in memory while no slot of its own is in use. -/
def OwnSlotsAfter (F : MachineFunction) (history : List MachineFunction) : Prop :=
  ∀ st, Runs.run runOnMachineFunction history fresh = some st →
    (runOnMachineFunction F st).isSome →
      Runs.EveryStep (Runs.both (allocStep F) (allocStep F)) (OwnSlots F) (functionSteps F)
        (startState F st, startState F fresh)

/-- A function that places nothing in memory reads no register without a place. -/
def ReadsOwnSlots (F : MachineFunction) : Prop :=
  Runs.EveryStep (allocStep F) (StoresNothing F) (functionSteps F) (startState F fresh) →
    Runs.EveryStep (allocStep F) ReadsAssigned (functionSteps F) (startState F fresh)

theorem compiledAfter_eq_some {history : List MachineFunction} {last : EVMStackAlloc} :
    compiledAfter history F = some last ↔
      ∃ st, Runs.run runOnMachineFunction history fresh = some st ∧
        runOnMachineFunction F st = some last :=
  bind_eq_some_iff

theorem OwnSlotsAfter.alone {history : List MachineFunction} {last alone : EVMStackAlloc}
    (own : OwnSlotsAfter F history) (ranAlone : runOnMachineFunction F fresh = some alone)
    (compiled : compiledAfter history F = some last) :
    last.emitted = alone.emitted ∧ namedSlots last = namedSlots alone ∧
      last.memoryFrameSize = alone.memoryFrameSize := by
  obtain ⟨st, left, ran⟩ := compiledAfter_eq_some.mp compiled
  obtain ⟨exactly, rest⟩ := emitted_iff_ownSlots ran ranAlone
  have same := exactly.mpr (own st left (by rw [ran]; rfl))
  obtain ⟨code, size⟩ := rest same
  refine ⟨same, ?_, size⟩
  unfold namedSlots
  rw [code]

/-- Compilation does not depend on the functions compiled before exactly when
no map an earlier function left behind is in the way of a slot. -/
theorem independentOfHistory_iff (F : MachineFunction)
    (compiles : (compiledAfter [] F).isSome) :
    (IndependentOfHistory F ↔ (∀ history, OwnSlotsAfter F history) ∧ ReadsOwnSlots F) ∧
      ∀ one two, OwnSlotsAfter F one → OwnSlotsAfter F two → ReadsOwnSlots F →
        CompiledAlike F one two := by
  obtain ⟨alone, ranAlone⟩ := isSome_iff_exists.mp compiles
  change runOnMachineFunction F fresh = some alone at ranAlone
  have below := namedSlots_lt_iff rfl ranAlone
  have alike : ∀ one two, OwnSlotsAfter F one → OwnSlotsAfter F two → ReadsOwnSlots F →
      CompiledAlike F one two := by
    intro one two ownOne ownTwo reads left right compiledLeft compiledRight
    obtain ⟨sameLeft, slots, size⟩ := ownOne.alone ranAlone compiledLeft
    obtain ⟨sameRight, _, _⟩ := ownTwo.alone ranAlone compiledRight
    rw [sameLeft, sameRight, slots, size]
    exact ⟨rfl, below.mpr reads⟩
  refine ⟨⟨fun independent => ⟨fun history st left finishes => ?_, ?_⟩, fun both one two => ?_⟩, alike⟩
  · obtain ⟨last, ran⟩ := isSome_iff_exists.mp finishes
    have compiled : compiledAfter history F = some last := compiledAfter_eq_some.mpr ⟨st, left, ran⟩
    have same := (independent history [] last alone compiled ranAlone).1
    exact (emitted_iff_ownSlots ran ranAlone).1.mp same
  · exact below.mp (independent [] [] alone alone ranAlone ranAlone).2
  · exact alike one two (both.1 one) (both.1 two) both.2

/-- A value needed in a second block: `r1 := 1; goto 1; 1: return r1`. -/
def carriesValue : MachineFunction where
  blocks := [
    ⟨[⟨.inst 0x60, some 1, [.imm 1]⟩, ⟨.inst 0x56, none, [.mbb 1]⟩], [1], []⟩,
    ⟨[⟨.inst 0xf3, none, [.reg 1]⟩], [], [0]⟩]
  getInterval := fun _ => ⟨[(⟨0, 2, 2⟩, ⟨1, 2, 2⟩)], by simp⟩
  hasEntry := by simp
  edges := by decide
  nonzero := by decide

/-- A value needed in its own block only: `r1 := 1; return r1`. -/
def keepsValue : MachineFunction where
  blocks := [⟨[⟨.inst 0x60, some 1, [.imm 1]⟩, ⟨.inst 0xf3, none, [.reg 1]⟩], [], []⟩]
  getInterval := fun _ => ⟨[(⟨0, 2, 2⟩, ⟨0, 5, 2⟩)], cons_ne_nil _ _⟩
  hasEntry := by simp
  edges := by decide
  nonzero := by decide

/-- A function that keeps its values on the stack leaves nothing behind. -/
theorem carriesValue_after_keepsValue :
    (compiledAfter [keepsValue] carriesValue).isSome ∧
      CompiledAlike carriesValue [keepsValue] [] := by
  refine ⟨by decide, (independentOfHistory_iff carriesValue (by decide)).2 _ _ ?_ ?_ ?_⟩
  · intro st left _
    have every : (Runs.run runOnMachineFunction [keepsValue] fresh).all (fun st =>
        decide (Runs.EveryStep (Runs.both (allocStep carriesValue) (allocStep carriesValue))
          (OwnSlots carriesValue) (functionSteps carriesValue)
          (startState carriesValue st, startState carriesValue fresh))) = true := by decide
    rw [left] at every
    exact of_decide_eq_true every
  · intro st left _
    cases left
    decide
  · unfold ReadsOwnSlots
    decide

/-- Compiled a second time, the function gets slot 1 where it had slot 0. -/
theorem carriesValue_after_itself :
    ¬ CompiledAlike carriesValue [] [carriesValue] := by
  intro alike
  have finishes : (compiledAfter [] carriesValue).isSome ∧
      (compiledAfter [carriesValue] carriesValue).isSome := by decide
  obtain ⟨left, one⟩ := isSome_iff_exists.mp finishes.1
  obtain ⟨right, two⟩ := isSome_iff_exists.mp finishes.2
  have same := (alike left right one two).1
  have differs : (compiledAfter [] carriesValue).map EVMStackAlloc.emitted ≠
      (compiledAfter [carriesValue] carriesValue).map EVMStackAlloc.emitted := by decide
  rw [one, two, map_some, map_some, same] at differs
  exact differs rfl

end EvmBackend.EVMStackAlloc
