/-
The number of local slots the allocator reports for a function.

The frame size is raised only when the slot map grows. A slot that was free in
the map already when the function started is handed out without a report, and
the map is not emptied between functions. Started from an empty map, every
slot the code names lies within the reported size.
-/

import EvmBackend.StackAlloc.SlotConsistency

namespace EvmBackend.EVMStackAlloc

open List Option

def namedSlots (st : EVMStackAlloc) : List Nat :=
  (st.code.filterMap accessOf).map Prod.snd

variable {reg : Register} {slot : Nat} {slots : List Register}

theorem mem_namedSlots {st : EVMStackAlloc} :
    slot ∈ namedSlots st ↔ ∃ reg, Accesses st reg slot := by
  simp only [namedSlots, List.mem_map, mem_filterMap, Prod.exists, Accesses, Names]
  constructor
  · rintro ⟨reg, _, ⟨out, member, access⟩, rfl⟩
    exact ⟨reg, out, member, access⟩
  · rintro ⟨reg, out, member, access⟩
    exact ⟨reg, slot, ⟨out, member, access⟩, rfl⟩

structure MapsWithin (st : EVMStackAlloc) (bound : Nat) : Prop where
  current : st.memoryAssignment.length ≤ bound
  edges : ∀ index entry, st.edgeset2assignment index = some entry → entry.2.length ≤ bound

section Steps

variable {F : MachineFunction} {st next : EVMStackAlloc}

theorem deallocateMemorySlot_length {freed : List Register}
    (done : deallocateMemorySlot reg slots = some freed) : freed.length ≤ slots.length := by
  obtain ⟨index, _, rfl⟩ := map_eq_some_iff.mp done
  calc ((slots.set index 0).rdropWhile (· == 0)).length
      ≤ (slots.set index 0).length := IsPrefix.length_le <| rdropWhile_prefix _ _
    _ = slots.length := length_set

theorem freeDeadSlots_length {dead : Register → Bool} {fuel index : Nat} {freed : List Register}
    (done : freeDeadSlots dead fuel index slots = some freed) : freed.length ≤ slots.length := by
  induction fuel generalizing index slots with
  | zero =>
      cases done
      exact Nat.le_refl _
  | succ fuel ih =>
      unfold freeDeadSlots at done
      split at done
      · cases done
        exact Nat.le_refl _
      · split at done
        · exact ih done
        · split at done
          · obtain ⟨fewer, freeing, later⟩ := bind_eq_some_iff.mp done
            exact (ih later).trans (deallocateMemorySlot_length freeing)
          · exact ih done

theorem takenOver_length {block bound : Nat} {xStack memslots : List Register}
    (within : MapsWithin st bound) (handed : takenOver F block st = some (xStack, memslots)) :
    memslots.length ≤ bound := by
  rcases takenOver_eq_some handed with rfl | ⟨index, entry⟩
  · exact Nat.zero_le _
  · exact within.edges index _ entry

theorem beginOfBlockUpdates_length {block bound : Nat} (within : MapsWithin st bound)
    (done : beginOfBlockUpdates F block st = some next) :
    next.memoryAssignment.length ≤ bound := by
  unfold beginOfBlockUpdates at done
  split at done
  · cases done
    exact within.current
  · obtain ⟨⟨xStack, memslots⟩, handed, done⟩ := bind_eq_some_iff.mp done
    obtain ⟨popped, popping, done⟩ := bind_eq_some_iff.mp done
    obtain ⟨slots, freeing, done⟩ := bind_eq_some_iff.mp done
    cases done
    have kept : popped.memoryAssignment = memslots := by
      apply Runs.run_keeps (fun state => state.memoryAssignment = memslots) _ _ popping
      · intro xreg state after same stepped
        obtain ⟨_, _, rfl, _⟩ := popIfDead_frame stepped
        exact same
      · rfl
    rw [kept] at freeing
    exact (freeDeadSlots_length freeing).trans (takenOver_length within handed)

private theorem MapsWithin.handed (within : MapsWithin st st.memoryFrameSize)
    (placed : SlotHanded reg slot st.memoryAssignment next.memoryAssignment st.memoryFrameSize
      next.memoryFrameSize)
    (edges : next.edgeset2assignment = st.edgeset2assignment) :
    MapsWithin next next.memoryFrameSize := by
  have current := within.current
  have grown := placed.reported
  refine ⟨by omega, fun index entry known => ?_⟩
  rw [edges] at known
  have bounded := within.edges index entry known
  omega

theorem allocStep_mapsWithin {step : AllocStep} (within : MapsWithin st st.memoryFrameSize)
    (done : allocStep F step st = some next) : MapsWithin next next.memoryFrameSize := by
  cases step with
  | emptyBlock =>
      cases done
      exact ⟨within.current, within.edges⟩
  | noInsertionPoint => cases done
  | openBlock block =>
      cases done
      exact ⟨within.current, within.edges⟩
  | stackArg first arg =>
      rcases analyzeStackArg_eq_some done with ⟨_, _, _, _, rfl⟩ | ⟨_, _, rfl⟩ |
        ⟨_, _, _, _, _, _, _, _, _, _, placed, _, _, _, _, rfl⟩
      · exact ⟨within.current, within.edges⟩
      · exact ⟨within.current, within.edges⟩
      · exact within.handed placed rfl
  | beginBlock block =>
      have bounded := beginOfBlockUpdates_length within done
      rcases beginOfBlockUpdates_eq_some done with ⟨_, rfl⟩ | ⟨_, _, _, _, _, _, _, _, _, rfl⟩
      · exact within
      · exact ⟨bounded, within.edges⟩
  | uses ref =>
      obtain ⟨_, _, _, rfl, _⟩ := handleUses_frame done
      exact ⟨within.current, within.edges⟩
  | define ref =>
      rcases handleDef_eq_some done with ⟨_, rfl⟩ | ⟨defReg, _, unused | onStack | inMemory⟩
      · exact within
      · obtain ⟨_, _, _, _, _, rfl⟩ := unused
        exact ⟨within.current, within.edges⟩
      · obtain ⟨_, _, _, rfl⟩ := onStack
        exact ⟨within.current, within.edges⟩
      · obtain ⟨_, rfl⟩ := inMemory
        obtain ⟨slot, taken, size, placed, result⟩ := storeDef_eq ref defReg st
        rw [result]
        exact within.handed placed rfl
  | cleanUp ref =>
      obtain ⟨cleaned, cleaning, rfl⟩ := map_eq_some_iff.mp done
      obtain ⟨_, _, _, rfl, _⟩ := cleanUpDeadRegisters_frame cleaning
      exact ⟨within.current, within.edges⟩
  | endBlock block =>
      obtain ⟨ended, ending, rfl⟩ := map_eq_some_iff.mp done
      rcases endOfBlockUpdates_eq_some ending with ⟨_, rfl⟩ | ⟨_, _, edgeSetIndex, _, _, rfl⟩
      · exact ⟨within.current, within.edges⟩
      · refine ⟨within.current, fun index entry known => ?_⟩
        by_cases written : index = edgeSetIndex
        · rw [written] at known
          simp only [closeBlock, Function.update_self, Option.some.injEq] at known
          rw [← known]
          exact within.current
        · simp only [closeBlock, Function.update_of_ne written] at known
          exact within.edges index entry known

end Steps

/-! ### Whole runs -/

structure Reported (st : EVMStackAlloc) : Prop where
  access : AccessInvariant st
  maps : MapsWithin st st.memoryFrameSize
  named : ∀ reg slot, Accesses st reg slot → slot ≤ st.memoryFrameSize

private theorem SlotHanded.slot_le {sizeBefore size : Nat} {taken : List Register}
    (placed : SlotHanded reg slot slots taken sizeBefore size) (within : taken.length ≤ size) : slot ≤ size := by
  obtain ⟨inside, _⟩ := List.getElem?_eq_some_iff.mp placed.holds
  omega

theorem allocStep_reported {F : MachineFunction} {step : AllocStep} {st next : EVMStackAlloc}
    (holds : Reported st) (done : allocStep F step st = some next) : Reported next := by
  have maps := allocStep_mapsWithin holds.maps done
  refine ⟨allocStep_accessInvariant holds.access done, maps, ?_⟩
  cases allocStep_accessEffect done with
  | loads silent same size kept added =>
      intro reg slot found
      rw [size]
      rcases added reg slot found with earlier | loaded
      · exact holds.named reg slot earlier
      · unfold EVMStackAlloc.lookup at loaded
        cases entry : st.regAssignments reg with
        | none =>
            rw [entry] at loaded
            cases loaded
            exact Nat.zero_le _
        | some held =>
            rw [entry] at loaded
            cases loaded
            exact holds.named reg slot (holds.access.recordedAccessed reg slot entry)
  | records reg assignment silent elsewhere entry size accesses =>
      intro other slot found
      rw [size]
      exact holds.named other slot ((accesses other slot).mp found)
  | stores reg slot stored placed entry accesses =>
      intro other place found
      have grown := placed.reported
      rcases (accesses other place).mp found with earlier | ⟨_, rfl⟩
      · have bounded := holds.named other place earlier
        omega
      · exact placed.slot_le maps.current

variable {F : MachineFunction} {st final : EVMStackAlloc}

theorem namedSlots_le (empty : st.memoryAssignment = [])
    (finished : runOnMachineFunction F st = some final) :
    ∀ slot ∈ namedSlots final, slot ≤ final.memoryFrameSize := by
  rw [runOnMachineFunction_eq_run] at finished
  have start : Reported (startState F st) := by
    refine ⟨accessInvariant_startState st, ⟨?_, ?_⟩, ?_⟩
    · change st.memoryAssignment.length ≤ 0
      rw [empty]
      exact Nat.le_refl 0
    · intro index entry known
      cases known
    · intro reg slot found
      exact absurd found (not_accesses_startState st reg slot)
  have reported : Reported final :=
    Runs.run_keeps Reported (fun _ _ _ => allocStep_reported) start finished
  intro slot member
  obtain ⟨reg, found⟩ := mem_namedSlots.mp member
  exact reported.named reg slot found

section Loads

variable {ref : InstrRef} {next : EVMStackAlloc}

private theorem Prepares.keeps (prepared : Prepares ref st next)
    (found : Names st.before reg slot) : Names next.before reg slot := by
  obtain ⟨inserted, _, _, rfl, _⟩ := prepared.frame
  exact names_append.mpr (Or.inl found)

private theorem names_load (reg : Register) (slot : Nat) (state : EVMStackAlloc) :
    Names (insertLoadFromMemoryBefore reg ref slot state).before reg slot :=
  names_append.mpr (Or.inr (names_cons.mpr (Or.inl rfl)))

private theorem handleBinaryOpcode_loads {reg1 reg2 : Register}
    (done : handleBinaryOpcode F ref reg1 reg2 st = some next) (operand : reg = reg1 ∨ reg = reg2)
    (inMemory : (st.lookup reg).region = .NONSTACK) :
    Names next.before reg (st.lookup reg).slot := by
  unfold handleBinaryOpcode at done
  by_cases memory1 : (st.lookup reg1).region = .NONSTACK
  · by_cases memory2 : (st.lookup reg2).region = .NONSTACK
    · simp only [memory1, memory2, and_self, if_true] at done
      cases done
      rcases operand with rfl | rfl
      · exact names_load _ _ _
      · exact names_append.mpr (Or.inl (names_load _ _ _))
    · simp only [memory1, memory2, and_false, if_true, if_false, bind_eq_bind] at done
      rcases operand with rfl | rfl
      · split at done
        · obtain ⟨middle, _, done⟩ := bind_eq_some_iff.mp done
          cases done
          exact names_load _ _ _
        · obtain ⟨middle, _, done⟩ := bind_eq_some_iff.mp done
          cases done
          exact names_load _ _ _
      · exact absurd inMemory memory2
  · simp only [memory1, false_and, if_false] at done
    rcases operand with rfl | rfl
    · exact absurd inMemory memory1
    · simp only [inMemory, if_true, bind_eq_bind] at done
      split at done
      · obtain ⟨middle, _, done⟩ := bind_eq_some_iff.mp done
        have reached : Prepares ref _ next := SwapRegToTop_prepares done
        exact reached.keeps (names_load _ _ _)
      · have reached : Prepares ref _ next := DupRegToTop_prepares done
        exact reached.keeps (names_load _ _ _)

private theorem handleArbitraryUses_loads {uses : List RegUseType} {use : RegUseType}
    (operands : ∀ use ∈ uses, use.reg ∈ ref.instr.useRegisters)
    (agree : ∀ use ∈ uses, use.isMemUse = true → (st.lookup use.reg).region = .NONSTACK)
    (member : use ∈ uses) (inMemory : use.isMemUse = true)
    (done : Runs.run (handleArbitraryUse ref) uses st = some next) :
    Names next.before use.reg (st.lookup use.reg).slot := by
  induction uses generalizing st with
  | nil => cases member
  | cons first rest ih =>
      obtain ⟨middle, begun, done⟩ := Runs.run_cons_eq_some _ done
      have reached := handleArbitraryUse_prepares (operands first mem_cons_self)
        (agree first mem_cons_self) begun
      have later : ∀ use ∈ rest, use.isMemUse = true → (middle.lookup use.reg).region = .NONSTACK := by
        intro use member
        rw [reached.lookup use.reg]
        exact agree use (mem_cons_of_mem first member)
      have operandsLater := fun use member => operands use (mem_cons_of_mem first member)
      rcases mem_cons.mp member with rfl | deeper
      · unfold handleArbitraryUse at begun
        rw [if_pos inMemory] at begun
        cases begun
        exact (handleArbitraryUses_prepares operandsLater later done).keeps (names_load _ _ _)
      · rw [← reached.lookup use.reg]
        exact ih operandsLater later deeper done

theorem handleUses_loads (done : handleUses F ref st = some next)
    (operand : reg ∈ ref.instr.useRegisters) (inMemory : (st.lookup reg).region = .NONSTACK) :
    Names next.before reg (st.lookup reg).slot := by
  obtain ⟨uses, known, done⟩ := bind_eq_some_iff.mp done
  obtain ⟨names, each⟩ := calculateUseRegs_eq_some known
  have operands := calculateUseRegs_operands known
  have agree := calculateUseRegs_agree known
  rw [← names] at operand
  obtain ⟨use, member, rfl⟩ := List.mem_map.mp operand
  have memUse : use.isMemUse = true := (calculateUse_eq_some (each use member)).2.2.mpr inMemory
  have behind : ∀ {count ready}, popUses count ready = some next →
      Names ready.before use.reg (st.lookup use.reg).slot →
      Names next.before use.reg (st.lookup use.reg).slot := by
    intro count ready popped found
    obtain ⟨_, rfl⟩ := popUses_eq_some popped
    exact found
  match uses, member, operands, agree, done with
  | [only], member, _, _, done =>
      obtain ⟨ready, begun, popped⟩ := bind_eq_some_iff.mp done
      refine behind popped ?_
      obtain rfl := mem_singleton.mp member
      unfold handleUnaryOpcode at begun
      simp only [inMemory, if_true] at begun
      cases begun
      exact names_load _ _ _
  | [use1, use2], member, _, _, done =>
      obtain ⟨ready, begun, popped⟩ := bind_eq_some_iff.mp done
      refine behind popped (handleBinaryOpcode_loads begun ?_ inMemory)
      rcases mem_cons.mp member with rfl | second
      · exact Or.inl rfl
      · obtain rfl := mem_singleton.mp second
        exact Or.inr rfl
  | first :: second :: third :: rest, member, operands, agree, done =>
      obtain ⟨ready, begun, popped⟩ := bind_eq_some_iff.mp done
      refine behind popped (handleArbitraryUses_loads (fun use member => ?_) (fun use member => ?_)
        (mem_reverse.mpr member) memUse begun)
      · exact operands use (mem_reverse.mp member)
      · exact agree use (mem_reverse.mp member)

theorem Prepares.names_cases (prepared : Prepares ref st next)
    (found : Names next.before reg slot) :
    Names st.before reg slot ∨ reg ∈ ref.instr.useRegisters := by
  induction prepared with
  | refl => exact Or.inl found
  | tail _ step ih =>
      cases step with
      | load loaded operand _ =>
          rcases names_append.mp found with earlier | added
          · exact ih earlier
          · rcases names_cons.mp added with here | absent
            · cases here
              exact Or.inr operand
            · exact absurd absent names_nil
      | dup depth done =>
          obtain ⟨copied, _, rfl⟩ := map_eq_some_iff.mp done
          rcases names_append.mp found with earlier | added
          · exact ih earlier
          · exact absurd added (by simp [accessOf])
      | swap depth done =>
          obtain ⟨swapped, _, rfl⟩ := map_eq_some_iff.mp done
          rcases names_append.mp found with earlier | added
          · exact ih earlier
          · exact absurd added (by simp [accessOf])

theorem accesses_of_silent {step : AllocStep} (silent : storedRegister F step st = none)
    (done : allocStep F step st = some next) (found : Accesses next reg slot) :
    Accesses st reg slot ∨ ∃ ref, step = .uses ref ∧ reg ∈ ref.instr.useRegisters := by
  cases step with
  | emptyBlock =>
      cases done
      exact Or.inl ((accesses_closeBlock reg slot).mp found)
  | noInsertionPoint => cases done
  | openBlock block =>
      cases done
      exact Or.inl ((accesses_openBlock block reg slot).mp found)
  | stackArg first arg =>
      rcases analyzeStackArg_eq_some done with ⟨_, _, _, _, rfl⟩ | ⟨_, _, rfl⟩ | ⟨used, shared, _⟩
      · refine Or.inl ?_
        simpa [Accesses, code, names_insertIdx_POP] using found
      · exact Or.inl found
      · simp [storedRegister, used, shared] at silent
  | beginBlock block =>
      rcases beginOfBlockUpdates_eq_some done with
        ⟨_, rfl⟩ | ⟨_, _, slots, inserted, stack, _, _, _, quiet, rfl⟩
      · exact Or.inl found
      · refine Or.inl ?_
        simpa [Accesses, code, not_names_of_silent quiet] using found
  | uses ref =>
      obtain ⟨ready, prepared, popped⟩ := handleUses_eq_some done
      obtain ⟨_, rfl⟩ := popUses_eq_some popped
      have names : Names ready.before reg slot → _ := prepared.names_cases
      obtain ⟨inserted, defs, stack, rfl, _⟩ := prepared.frame
      simp only [Accesses, code, names_append] at found names ⊢
      rcases found with earlier | here | later
      · exact Or.inl (Or.inl earlier)
      · rcases names here with before | operand
        · exact Or.inl (Or.inr (Or.inl before))
        · exact Or.inr ⟨ref, rfl, operand⟩
      · exact Or.inl (Or.inr (Or.inr later))
  | define ref =>
      rcases handleDef_eq_some done with ⟨_, rfl⟩ | ⟨defReg, isDef, unused | onStack | inMemory⟩
      · exact Or.inl found
      · obtain ⟨_, _, _, _, _, rfl⟩ := unused
        refine Or.inl ?_
        simpa [Accesses, code, accessOf] using found
      · obtain ⟨_, _, _, rfl⟩ := onStack
        exact Or.inl found
      · rw [storedRegister_of_shared isDef inMemory.1] at silent
        cases silent
  | cleanUp ref =>
      obtain ⟨cleaned, cleaning, rfl⟩ := map_eq_some_iff.mp done
      obtain ⟨between, after, stack, rfl, same⟩ := cleanUpDeadRegisters_frame cleaning
      have kept := same reg slot
      simp only [names_append] at kept
      simp only [Accesses, code, passInstr, names_append, names_cons, names_nil, accessOf] at found ⊢
      tauto
  | endBlock block =>
      obtain ⟨ended, ending, rfl⟩ := map_eq_some_iff.mp done
      rcases endOfBlockUpdates_eq_some ending with ⟨_, rfl⟩ | ⟨_, _, _, _, _, rfl⟩
      · exact Or.inl ((accesses_closeBlock reg slot).mp found)
      · exact Or.inl ((accesses_closeBlock reg slot).mp found)

end Loads

def StoresNothing (F : MachineFunction) (step : AllocStep) (st : EVMStackAlloc) : Prop :=
  storedRegister F step st = none

def ReadsAssigned : AllocStep → EVMStackAlloc → Prop
  | .uses ref, st => ∀ reg ∈ ref.instr.useRegisters, st.regAssignments reg ≠ none
  | _, _ => True

instance (step : AllocStep) (st : EVMStackAlloc) : Decidable (StoresNothing F step st) :=
  inferInstanceAs (Decidable (_ = _))

instance (step : AllocStep) (st : EVMStackAlloc) : Decidable (ReadsAssigned step st) :=
  match step with
  | .uses _ => inferInstanceAs (Decidable (∀ _ ∈ _, _))
  | .emptyBlock | .noInsertionPoint | .openBlock _ | .stackArg _ _ | .beginBlock _ | .define _
  | .cleanUp _ | .endBlock _ => inferInstanceAs (Decidable True)

/-- Recorded slots lie below the frame size; so do the slots of the code, but
for slot 0, which stands for a register without a place. -/
structure WithinFrame (st : EVMStackAlloc) : Prop where
  maps : MapsWithin st st.memoryFrameSize
  recordedBelow : ∀ reg slot, st.regAssignments reg = some ⟨.NONSTACK, slot⟩ →
    slot < st.memoryFrameSize
  named : ∀ reg slot, Accesses st reg slot → slot < st.memoryFrameSize ∨ slot = 0

section WithinFrame

variable {step : AllocStep} {next : EVMStackAlloc}

private theorem WithinFrame.of_lookup (holds : WithinFrame st)
    (loaded : st.lookup reg = ⟨.NONSTACK, slot⟩) :
    slot < st.memoryFrameSize ∨ (slot = 0 ∧ st.regAssignments reg = none) := by
  unfold EVMStackAlloc.lookup at loaded
  cases entry : st.regAssignments reg with
  | none =>
      rw [entry] at loaded
      cases loaded
      exact Or.inr ⟨rfl, rfl⟩
  | some held =>
      rw [entry] at loaded
      cases loaded
      exact Or.inl (holds.recordedBelow reg slot entry)

theorem allocStep_withinFrame (holds : WithinFrame st) (done : allocStep F step st = some next) :
    WithinFrame next := by
  have maps := allocStep_mapsWithin holds.maps done
  cases allocStep_accessEffect done with
  | loads silent same size kept added =>
      refine ⟨maps, fun reg slot known => ?_, fun reg slot found => ?_⟩
      · rw [same] at known
        rw [size]
        exact holds.recordedBelow reg slot known
      · rw [size]
        rcases added reg slot found with earlier | loaded
        · exact holds.named reg slot earlier
        · exact (holds.of_lookup loaded).imp_right And.left
  | records reg assignment silent elsewhere entry size accesses =>
      refine ⟨maps, fun other slot known => ?_, fun other slot found => ?_⟩
      · rw [size]
        rw [entry] at known
        rcases recorded_cases reg assignment st.regAssignments other with same | ⟨_, _, new⟩
        · rw [same] at known
          exact holds.recordedBelow other slot known
        · rw [new] at known
          cases known
          exact absurd rfl elsewhere
      · rw [size]
        exact holds.named other slot ((accesses other slot).mp found)
  | stores reg slot stored placed entry accesses =>
      have grown : st.memoryFrameSize ≤ next.memoryFrameSize := by
        have reported := placed.reported
        omega
      have inside : slot < next.memoryFrameSize := by
        obtain ⟨short, _⟩ := List.getElem?_eq_some_iff.mp placed.holds
        exact Nat.lt_of_lt_of_le short maps.current
      refine ⟨maps, fun other place known => ?_, fun other place found => ?_⟩
      · rw [entry] at known
        rcases recorded_cases reg ⟨.NONSTACK, slot⟩ st.regAssignments other with same | ⟨_, _, new⟩
        · rw [same] at known
          exact Nat.lt_of_lt_of_le (holds.recordedBelow other place known) grown
        · rw [new] at known
          cases known
          exact inside
      · rcases (accesses other place).mp found with earlier | ⟨_, rfl⟩
        · exact (holds.named other place earlier).imp_left fun below =>
            Nat.lt_of_lt_of_le below grown
        · exact Or.inl inside

theorem allocStep_frameSize_zero (holds : WithinFrame st) (done : allocStep F step st = some next) :
    next.memoryFrameSize = 0 ↔ st.memoryFrameSize = 0 ∧ StoresNothing F step st := by
  unfold StoresNothing
  cases allocStep_accessEffect done with
  | loads silent same size kept added => simp [silent, size]
  | records reg assignment silent elsewhere entry size accesses => simp [silent, size]
  | stores reg slot stored placed entry accesses =>
      have within := (allocStep_mapsWithin holds.maps done).current
      obtain ⟨short, _⟩ := List.getElem?_eq_some_iff.mp placed.holds
      rw [stored]
      constructor
      · intro zero
        omega
      · intro both
        cases both.2

theorem allocStep_unnamed (holds : WithinFrame st) (done : allocStep F step st = some next) :
    (next.memoryFrameSize = 0 ∧ ∀ reg slot, ¬ Accesses next reg slot) ↔
      (st.memoryFrameSize = 0 ∧ ∀ reg slot, ¬ Accesses st reg slot) ∧
        (StoresNothing F step st ∧ ReadsAssigned step st) := by
  rw [allocStep_frameSize_zero holds done]
  constructor
  · rintro ⟨⟨zero, silent⟩, unnamed⟩
    refine ⟨⟨zero, fun reg slot found => ?_⟩, silent, ?_⟩
    · apply unnamed reg slot
      cases allocStep_accessEffect done with
      | loads _ _ _ kept _ => exact kept reg slot found
      | records _ _ _ _ _ _ accesses => exact (accesses reg slot).mpr found
      | stores _ _ _ _ _ accesses => exact (accesses reg slot).mpr (Or.inl found)
    · cases step with
      | uses ref =>
          intro reg operand missing
          have region : (st.lookup reg).region = .NONSTACK := by
            simp [EVMStackAlloc.lookup, missing]
          apply unnamed reg (st.lookup reg).slot
          simp only [Accesses, code, names_append]
          exact Or.inr (Or.inl (handleUses_loads done operand region))
      | _ => trivial
  · rintro ⟨⟨zero, unnamed⟩, silent, assigned⟩
    refine ⟨⟨zero, silent⟩, fun reg slot found => ?_⟩
    rcases accesses_of_silent silent done found with earlier | ⟨ref, rfl, operand⟩
    · exact unnamed reg slot earlier
    · cases allocStep_accessEffect done with
      | loads _ _ _ _ added =>
          rcases added reg slot found with earlier | loaded
          · exact unnamed reg slot earlier
          · rcases holds.of_lookup loaded with below | ⟨_, missing⟩
            · omega
            · exact assigned reg operand missing
      | records _ _ _ _ _ _ accesses => exact unnamed reg slot ((accesses reg slot).mp found)
      | stores other _ stored _ _ _ =>
          rw [StoresNothing, stored] at silent
          cases silent

end WithinFrame

/-- From an empty slot map, every slot the code names is below the frame size
exactly when the function places a register in memory or reads none that has
no place. -/
theorem namedSlots_lt_iff (empty : st.memoryAssignment = [])
    (finished : runOnMachineFunction F st = some final) :
    (∀ slot ∈ namedSlots final, slot < final.memoryFrameSize) ↔
      (Runs.EveryStep (allocStep F) (StoresNothing F) (functionSteps F) (startState F st) →
        Runs.EveryStep (allocStep F) ReadsAssigned (functionSteps F) (startState F st)) := by
  rw [runOnMachineFunction_eq_run] at finished
  have start : WithinFrame (startState F st) := by
    refine ⟨⟨?_, ?_⟩, ?_, ?_⟩
    · change st.memoryAssignment.length ≤ 0
      rw [empty]
      exact Nat.le_refl 0
    · intro index entry known
      cases known
    · intro reg slot known
      cases known
    · intro reg slot found
      exact absurd found (not_accesses_startState st reg slot)
  have holds : WithinFrame final :=
    Runs.run_keeps WithinFrame (fun _ _ _ => allocStep_withinFrame) start finished
  have storesNothing := Runs.run_iff_everyStep WithinFrame (fun state => state.memoryFrameSize = 0)
    (fun _ _ _ => allocStep_withinFrame) (fun _ _ _ => allocStep_frameSize_zero) start finished
  have unnamed := Runs.run_iff_everyStep WithinFrame
    (fun state => state.memoryFrameSize = 0 ∧ ∀ reg slot, ¬ Accesses state reg slot)
    (fun _ _ _ => allocStep_withinFrame) (fun _ _ _ => allocStep_unnamed) start finished
  constructor
  · intro below silent
    have zero := storesNothing.mpr ⟨rfl, silent⟩
    have none : ∀ reg slot, ¬ Accesses final reg slot := by
      intro reg slot found
      have short := below slot (mem_namedSlots.mpr ⟨reg, found⟩)
      omega
    exact (unnamed.mp ⟨zero, none⟩).2.imp fun _ _ => And.right
  · intro assigned slot member
    obtain ⟨reg, found⟩ := mem_namedSlots.mp member
    rcases Nat.eq_zero_or_pos final.memoryFrameSize with zero | positive
    · have silent := (storesNothing.mp zero).2
      have clean : ∀ reg slot, ¬ Accesses (startState F st) reg slot :=
        not_accesses_startState st
      have last := unnamed.mpr ⟨⟨rfl, clean⟩, silent.and (assigned silent)⟩
      exact absurd found (last.2 reg slot)
    · rcases holds.named reg slot found with below | rfl
      · exact below
      · exact positive

end EvmBackend.EVMStackAlloc
