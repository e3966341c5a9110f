/-
The order in which the allocator visits a function: uses and definitions in
layout order, an instruction's uses before its definition, stack arguments
before everything else.

A register has an assignment exactly when a definition of it has been visited,
so where the entries are at a given use is a fact about the layout alone.
-/

import EvmBackend.StackAlloc.Insertions

namespace EvmBackend.EVMStackAlloc

def defRef : AllocStep → Option InstrRef
  | .define ref => some ref
  | .stackArg _ arg => some arg
  | _ => none

def definedBy (step : AllocStep) : Option Register :=
  (defRef step).bind fun ref => ref.instr.defRegister

/-- The instruction of the block body a step works on, and the order of the
three steps of one instruction. -/
def bodyRef : AllocStep → Option (InstrRef × Nat)
  | .uses ref => some (ref, 0)
  | .define ref => some (ref, 1)
  | .cleanUp ref => some (ref, 2)
  | _ => none

variable {F : MachineFunction}

def Precedes (earlier later : InstrRef) : Prop :=
  earlier.block < later.block ∨ (earlier.block = later.block ∧ earlier.index < later.index)

def DefinedBefore (F : MachineFunction) (ref : InstrRef) (reg : Register) : Prop :=
  ∃ earlier ∈ F.allRefs, earlier.instr.defRegister = some reg ∧ Precedes earlier ref

/-! ### Which steps there are -/

theorem instrRefs_eq_stackArgs_append (F : MachineFunction) (block : Nat) :
    F.instrRefs block = stackArgs F block ++ bodyRefs F block := by
  unfold stackArgs bodyRefs
  by_cases entry : block = 0
  · rw [if_pos entry, if_pos entry, List.takeWhile_append_dropWhile]
  · rw [if_neg entry, if_neg entry, List.nil_append]

variable {block : Nat} {arg : InstrRef} {reg : Register} {steps : List AllocStep}
    {last : EVMStackAlloc}

theorem mem_instrRefs_of_stackArgs {ref : InstrRef} (member : ref ∈ stackArgs F block) :
    ref ∈ F.instrRefs block := by
  rw [instrRefs_eq_stackArgs_append]
  exact List.mem_append_left _ member

theorem mem_instrRefs_of_bodyRefs {ref : InstrRef} (member : ref ∈ bodyRefs F block) :
    ref ∈ F.instrRefs block := by
  rw [instrRefs_eq_stackArgs_append]
  exact List.mem_append_right _ member

theorem stackArgs_eq_nil (later : block ≠ 0) : stackArgs F block = [] :=
  if_neg later

theorem defRegister_of_stackArgs (member : arg ∈ stackArgs F block) :
    arg.instr.defRegister = some (argRegister arg) := by
  have proper := MachineFunction.definesProperly_of_mem
    (MachineFunction.mem_allRefs_of_mem_instrRefs (mem_instrRefs_of_stackArgs member))
  have isArg : isStackArg arg = true := by
    unfold stackArgs at member
    split at member
    · exact List.mem_takeWhile_imp member
    · cases member
  unfold isStackArg at isArg
  unfold argRegister
  simp only [MachineInstr.definesProperly, Bool.and_eq_true, Bool.or_eq_true, bne_iff_ne] at proper
  rcases proper.2 with other | present
  · exact absurd (eq_of_beq isArg) other
  · obtain ⟨reg, known⟩ := Option.isSome_iff_exists.mp present
    rw [known, Option.getD_some]

theorem stackArg_of_mem_blockSteps {first : InstrRef}
    (member : .stackArg first arg ∈ blockSteps F block) : block = 0 ∧ arg ∈ stackArgs F block := by
  have isArg : arg ∈ stackArgs F block := by
    unfold blockSteps at member
    split at member
    · simp at member
    · split at member
      · simp at member
      · have found := member
        simp only [argSteps, bodySteps, instrSteps, List.cons_append, List.mem_cons,
          List.mem_append, List.mem_map, List.mem_reverse, List.mem_flatMap, reduceCtorEq,
          AllocStep.stackArg.injEq, List.not_mem_nil, or_false, false_or, and_false,
          exists_false] at found
        obtain ⟨other, present, _, rfl⟩ := found
        exact present
  refine ⟨?_, isArg⟩
  by_contra later
  rw [stackArgs_eq_nil later] at isArg
  cases isArg

theorem bodyRef_of_mem_blockSteps {step : AllocStep} {ref : InstrRef} {rank : Nat}
    (member : step ∈ blockSteps F block) (known : bodyRef step = some (ref, rank)) :
    ref ∈ bodyRefs F block := by
  unfold blockSteps at member
  split at member
  · rw [List.mem_singleton.mp member] at known
    cases known
  · split at member
    · rw [List.mem_singleton.mp member] at known
      cases known
    · simp only [List.cons_append, List.mem_cons, List.mem_append, argSteps, bodySteps,
        List.mem_map, List.mem_flatMap, instrSteps, List.not_mem_nil, or_false, or_assoc] at member
      rcases member with rfl | ⟨arg, _, rfl⟩ | rfl | ⟨other, present, rfl | rfl | rfl⟩ | rfl
      · cases known
      · cases known
      · cases known
      · cases known
        exact present
      · cases known
        exact present
      · cases known
        exact present
      · cases known

theorem mem_blockSteps_of_bodyRefs {step : AllocStep} {ref : InstrRef}
    (present : ref ∈ bodyRefs F block) (inside : step ∈ instrSteps ref) :
    step ∈ blockSteps F block := by
  have nonempty : F.instrs block ≠ [] := by
    intro empty
    have listed := mem_instrRefs_of_bodyRefs present
    simp [MachineFunction.instrRefs, empty] at listed
  unfold blockSteps
  rw [if_neg nonempty]
  cases body : bodyRefs F block with
  | nil =>
      rw [body] at present
      cases present
  | cons first rest =>
      simp only [List.cons_append, List.mem_cons, List.mem_append]
      refine Or.inr (Or.inl (Or.inr (Or.inr ?_)))
      exact List.mem_flatMap.mpr ⟨ref, present, inside⟩

theorem instrs_drop_eq {done rest : List InstrRef} {ref : InstrRef}
    (split : F.instrRefs block = done ++ ref :: rest) :
    ref.block = block ∧ (F.instrs block).drop (ref.index + 1) = rest.map InstrRef.instr := by
  have member : ref ∈ F.instrRefs block := by
    rw [split]
    exact List.mem_append_right _ List.mem_cons_self
  have place : (F.instrRefs block)[done.length]? = some ref := by
    rw [split]
    simp
  have index : ref.index = done.length := by
    unfold MachineFunction.instrRefs at place
    rw [List.getElem?_map, List.getElem?_zipIdx] at place
    obtain ⟨pair, found, rfl⟩ := Option.map_eq_some_iff.mp place
    obtain ⟨instr, _, rfl⟩ := Option.map_eq_some_iff.mp found
    simp
  have instrs : (F.instrRefs block).map InstrRef.instr = F.instrs block := by
    simp [MachineFunction.instrRefs, Function.comp_def]
  refine ⟨(MachineFunction.mem_instrRefs.mp member).1, ?_⟩
  have shifted : done ++ ref :: rest = (done ++ [ref]) ++ rest := by simp
  rw [← instrs, split, shifted, List.map_append, index]
  exact List.drop_left' (by simp)

/-! ### The order of the steps -/

theorem instrRefs_pairwise (F : MachineFunction) (block : Nat) :
    (F.instrRefs block).Pairwise Precedes := by
  rw [List.pairwise_iff_getElem]
  intro left right leftBound rightBound less
  refine Or.inr ⟨?_, ?_⟩
  · simp [MachineFunction.instrRefs]
  · simpa [MachineFunction.instrRefs] using less

theorem Precedes.asymm {left right : InstrRef} (order : Precedes left right) :
    ¬ Precedes right left := by
  unfold Precedes at *
  omega

theorem Precedes.irrefl (ref : InstrRef) : ¬ Precedes ref ref := fun order => order.asymm order

structure Ordered (left right : AllocStep) : Prop where
  body : ∀ ref rank later laterRank, bodyRef left = some (ref, rank) →
    bodyRef right = some (later, laterRank) →
      Precedes ref later ∨ (ref = later ∧ rank < laterRank)
  argBefore : ∀ first arg later laterRank, left = .stackArg first arg →
    bodyRef right = some (later, laterRank) → Precedes arg later
  argFirst : ∀ first arg ref rank, bodyRef left = some (ref, rank) → right ≠ .stackArg first arg

private theorem ordered_of_left {left : AllocStep} (silent : bodyRef left = none)
    (noArg : ∀ first arg, left ≠ .stackArg first arg) (right : AllocStep) : Ordered left right where
  body := fun _ _ _ _ known => by rw [silent] at known; cases known
  argBefore := fun first arg _ _ isArg => absurd isArg (noArg first arg)
  argFirst := fun _ _ _ _ known => by rw [silent] at known; cases known

private theorem ordered_of_right {right : AllocStep} (silent : bodyRef right = none)
    (noArg : ∀ first arg, right ≠ .stackArg first arg) (left : AllocStep) : Ordered left right where
  body := fun _ _ _ _ _ known => by rw [silent] at known; cases known
  argBefore := fun _ _ _ _ _ known => by rw [silent] at known; cases known
  argFirst := fun first arg _ _ _ => noArg first arg

private theorem instrSteps_pairwise (ref : InstrRef) : (instrSteps ref).Pairwise Ordered := by
  have same : ∀ left right : AllocStep, ∀ rank laterRank, bodyRef left = some (ref, rank) →
      bodyRef right = some (ref, laterRank) → rank < laterRank → Ordered left right := by
    intro left right rank laterRank atLeft atRight less
    refine ⟨?_, ?_, ?_⟩
    · intro _ _ _ _ first second
      rw [atLeft] at first
      rw [atRight] at second
      cases first
      cases second
      exact Or.inr ⟨rfl, less⟩
    · rintro _ _ _ _ rfl _
      cases atLeft
    · rintro _ _ _ _ _ rfl
      cases atRight
  simp only [instrSteps, List.pairwise_cons, List.mem_cons, List.not_mem_nil, or_false,
    List.Pairwise.nil, and_true]
  refine ⟨?_, ?_, fun _ absent => absurd absent id⟩
  · rintro step (rfl | rfl)
    · exact same _ _ 0 1 rfl rfl (by omega)
    · exact same _ _ 0 2 rfl rfl (by omega)
  · rintro step rfl
    exact same _ _ 1 2 rfl rfl (by omega)

private theorem bodyRef_of_instrSteps {ref : InstrRef} {step : AllocStep}
    (member : step ∈ instrSteps ref) : ∃ rank, bodyRef step = some (ref, rank) := by
  simp only [instrSteps, List.mem_cons, List.not_mem_nil, or_false] at member
  rcases member with rfl | rfl | rfl
  · exact ⟨0, rfl⟩
  · exact ⟨1, rfl⟩
  · exact ⟨2, rfl⟩

private theorem ordered_of_precedes {left right : AllocStep} {ref later : InstrRef}
    {rank laterRank : Nat} (order : Precedes ref later) (atLeft : bodyRef left = some (ref, rank))
    (atRight : bodyRef right = some (later, laterRank)) : Ordered left right := by
  refine ⟨?_, ?_, ?_⟩
  · intro _ _ _ _ first second
    rw [atLeft] at first
    rw [atRight] at second
    cases first
    cases second
    exact Or.inl order
  · rintro _ _ _ _ rfl _
    cases atLeft
  · rintro _ _ _ _ _ rfl
    cases atRight

private theorem bodySteps_pairwise (F : MachineFunction) (block : Nat) :
    (bodySteps F block).Pairwise Ordered := by
  have layout := instrRefs_pairwise F block
  rw [instrRefs_eq_stackArgs_append] at layout
  refine List.pairwise_flatMap.mpr ⟨fun ref _ => instrSteps_pairwise ref, ?_⟩
  refine (List.pairwise_append.mp layout).2.1.imp ?_
  intro ref later order left leftMember right rightMember
  obtain ⟨rank, atLeft⟩ := bodyRef_of_instrSteps leftMember
  obtain ⟨laterRank, atRight⟩ := bodyRef_of_instrSteps rightMember
  exact ordered_of_precedes order atLeft atRight

private theorem blockSteps_pairwise (F : MachineFunction) (block : Nat) :
    (blockSteps F block).Pairwise Ordered := by
  have layout := instrRefs_pairwise F block
  rw [instrRefs_eq_stackArgs_append] at layout
  have argsFirst := (List.pairwise_append.mp layout).2.2
  unfold blockSteps
  split
  · exact List.pairwise_singleton ..
  · split
    · exact List.pairwise_singleton ..
    · rename_i first rest body
      have ending : (bodySteps F block ++ [AllocStep.endBlock block]).Pairwise Ordered := by
        refine List.pairwise_append.mpr ⟨bodySteps_pairwise F block, List.pairwise_singleton .., ?_⟩
        intro left _ right rightMember
        cases List.mem_singleton.mp rightMember
        exact ordered_of_right rfl (by simp) left
      have started : (AllocStep.beginBlock block ::
          (bodySteps F block ++ [AllocStep.endBlock block])).Pairwise Ordered :=
        List.pairwise_cons.mpr ⟨fun right _ => ordered_of_left rfl (by simp) right, ending⟩
      simp only [List.cons_append, List.append_assoc]
      refine List.pairwise_cons.mpr ⟨fun right _ => ordered_of_left rfl (by simp) right, ?_⟩
      refine List.pairwise_append.mpr ⟨?_, started, ?_⟩
      · refine List.pairwise_of_forall_mem_list ?_
        intro left leftMember right rightMember
        obtain ⟨arg, _, rfl⟩ := List.mem_map.mp leftMember
        obtain ⟨other, _, rfl⟩ := List.mem_map.mp rightMember
        refine ⟨?_, ?_, ?_⟩
        · intro _ _ _ _ impossible
          cases impossible
        · intro _ _ _ _ _ impossible
          cases impossible
        · intro _ _ _ _ impossible
          cases impossible
      · intro left leftMember right rightMember
        obtain ⟨arg, argMember, rfl⟩ := List.mem_map.mp leftMember
        simp only [List.mem_cons, List.mem_append, List.not_mem_nil, or_false] at rightMember
        rcases rightMember with rfl | inBody | rfl
        · exact ordered_of_right rfl (by simp) _
        · obtain ⟨ref, present, inside⟩ := List.mem_flatMap.mp inBody
          obtain ⟨rank, known⟩ := bodyRef_of_instrSteps inside
          refine ⟨?_, ?_, ?_⟩
          · intro _ _ _ _ impossible
            cases impossible
          · intro _ _ later laterRank same found
            cases same
            rw [known] at found
            cases found
            exact argsFirst arg (List.mem_reverse.mp argMember) ref present
          · intro _ _ _ _ impossible
            cases impossible
        · exact ordered_of_right rfl (by simp) _

theorem block_of_bodyRefs {ref : InstrRef} (member : ref ∈ bodyRefs F block) :
    ref.block = block :=
  (MachineFunction.mem_instrRefs.mp (mem_instrRefs_of_bodyRefs member)).1

theorem functionSteps_pairwise (F : MachineFunction) : (functionSteps F).Pairwise Ordered := by
  refine List.pairwise_flatMap.mpr ⟨fun block _ => blockSteps_pairwise F block, ?_⟩
  refine List.pairwise_lt_range.imp ?_
  intro block other less left leftMember right rightMember
  refine ⟨?_, ?_, ?_⟩
  · intro ref rank later laterRank atLeft atRight
    have leftBlock := block_of_bodyRefs (bodyRef_of_mem_blockSteps leftMember atLeft)
    have rightBlock := block_of_bodyRefs (bodyRef_of_mem_blockSteps rightMember atRight)
    exact Or.inl (Or.inl (by omega))
  · rintro first arg later laterRank rfl atRight
    obtain ⟨_, isArg⟩ := stackArg_of_mem_blockSteps leftMember
    have leftBlock := (MachineFunction.mem_instrRefs.mp (mem_instrRefs_of_stackArgs isArg)).1
    have rightBlock := block_of_bodyRefs (bodyRef_of_mem_blockSteps rightMember atRight)
    exact Or.inl (by omega)
  · rintro first arg ref rank _ rfl
    obtain ⟨isEntry, _⟩ := stackArg_of_mem_blockSteps rightMember
    omega

/-! ### Entries and visited definitions -/

theorem mem_functionSteps {step : AllocStep} :
    step ∈ functionSteps F ↔ ∃ block < F.blocks.length, step ∈ blockSteps F block := by
  simp only [functionSteps, blocksSteps, List.mem_flatMap, List.mem_range]

theorem stackArg_of_mem_functionSteps {first : InstrRef}
    (member : .stackArg first arg ∈ functionSteps F) : arg ∈ stackArgs F 0 := by
  obtain ⟨block, _, inside⟩ := mem_functionSteps.mp member
  obtain ⟨rfl, isArg⟩ := stackArg_of_mem_blockSteps inside
  exact isArg

theorem bodyRef_of_mem_functionSteps {step : AllocStep} {ref : InstrRef} {rank : Nat}
    (member : step ∈ functionSteps F) (known : bodyRef step = some (ref, rank)) :
    ref ∈ bodyRefs F ref.block := by
  obtain ⟨block, _, inside⟩ := mem_functionSteps.mp member
  have present := bodyRef_of_mem_blockSteps inside known
  rwa [block_of_bodyRefs present]

theorem allRefs_of_bodyRefs {ref : InstrRef} (member : ref ∈ bodyRefs F block) :
    ref ∈ F.allRefs :=
  MachineFunction.mem_allRefs_of_mem_instrRefs (mem_instrRefs_of_bodyRefs member)

theorem defRef_mem_allRefs {step : AllocStep} {ref : InstrRef} (member : step ∈ functionSteps F)
    (known : defRef step = some ref) : ref ∈ F.allRefs := by
  cases step with
  | define other =>
      cases known
      exact allRefs_of_bodyRefs (bodyRef_of_mem_functionSteps member rfl)
  | stackArg first arg =>
      cases known
      exact MachineFunction.mem_allRefs_of_mem_instrRefs
        (mem_instrRefs_of_stackArgs (stackArg_of_mem_functionSteps member))
  | emptyBlock => cases known
  | noInsertionPoint | openBlock | beginBlock | uses | cleanUp | endBlock => cases known

private theorem recorded_isSome_iff (reg : Register) (assignment : StackAssignment)
    (entries : Register → Option StackAssignment) (other : Register) :
    (recorded reg assignment entries other).isSome = true ↔
      (entries other).isSome = true ∨ reg = other := by
  rcases recorded_cases reg assignment entries other with same | ⟨rfl, missing, new⟩
  · rw [same]
    refine ⟨Or.inl, fun known => known.elim id ?_⟩
    rintro rfl
    obtain ⟨held, present⟩ := recorded_isSome reg assignment entries
    rw [← same, present]
    rfl
  · rw [new]
    exact ⟨fun _ => Or.inr rfl, fun _ => rfl⟩

theorem allocStep_assigned {step : AllocStep} {st next : EVMStackAlloc}
    (member : step ∈ functionSteps F) (done : allocStep F step st = some next) (reg : Register) :
    (next.regAssignments reg).isSome = true ↔
      (st.regAssignments reg).isSome = true ∨ definedBy step = some reg := by
  cases step with
  | emptyBlock =>
      cases done
      simp [definedBy, defRef, closeBlock]
  | noInsertionPoint => cases done
  | openBlock block =>
      cases done
      simp [definedBy, defRef, openBlock]
  | stackArg first arg =>
      have defined := defRegister_of_stackArgs (stackArg_of_mem_functionSteps member)
      simp only [definedBy, defRef, Option.bind_some, defined, Option.some.injEq]
      rcases analyzeStackArg_eq_some done with ⟨_, _, _, _, rfl⟩ | ⟨_, _, rfl⟩ |
        ⟨_, _, _, _, _, _, _, _, _, _, _, _, _, _, _, rfl⟩
      · exact recorded_isSome_iff ..
      · exact recorded_isSome_iff ..
      · exact recorded_isSome_iff ..
  | beginBlock block =>
      rcases beginOfBlockUpdates_eq_some done with ⟨_, rfl⟩ | ⟨_, _, _, _, _, _, _, _, _, rfl⟩
      · simp [definedBy, defRef]
      · simp [definedBy, defRef]
  | uses ref =>
      obtain ⟨_, _, _, rfl, _⟩ := handleUses_frame done
      simp [definedBy, defRef]
  | define ref =>
      rcases handleDef_eq_some done with ⟨noDef, rfl⟩ | ⟨defReg, isDef, unused | onStack | inMemory⟩
      · simp [definedBy, defRef, noDef]
      · obtain ⟨_, _, _, _, _, rfl⟩ := unused
        simp only [definedBy, defRef, Option.bind_some, isDef, Option.some.injEq]
        exact recorded_isSome_iff ..
      · obtain ⟨_, _, _, rfl⟩ := onStack
        simp only [definedBy, defRef, Option.bind_some, isDef, Option.some.injEq]
        exact recorded_isSome_iff ..
      · obtain ⟨_, rfl⟩ := inMemory
        obtain ⟨_, _, _, _, result⟩ := storeDef_eq ref defReg st
        rw [result]
        simp only [definedBy, defRef, Option.bind_some, isDef, Option.some.injEq]
        exact recorded_isSome_iff ..
  | cleanUp ref =>
      obtain ⟨cleaned, cleaning, rfl⟩ := Option.map_eq_some_iff.mp done
      obtain ⟨_, _, _, rfl, _⟩ := cleanUpDeadRegisters_frame cleaning
      simp [definedBy, defRef, passInstr]
  | endBlock block =>
      obtain ⟨ended, ending, rfl⟩ := Option.map_eq_some_iff.mp done
      rcases endOfBlockUpdates_eq_some ending with ⟨_, rfl⟩ | ⟨_, _, _, _, _, rfl⟩
      · simp [definedBy, defRef, closeBlock]
      · simp [definedBy, defRef, closeBlock]

theorem run_assigned {st : EVMStackAlloc} (members : ∀ step ∈ steps, step ∈ functionSteps F)
    (finished : Runs.run (allocStep F) steps st = some last) (reg : Register) :
    (last.regAssignments reg).isSome = true ↔
      (st.regAssignments reg).isSome = true ∨ ∃ step ∈ steps, definedBy step = some reg := by
  induction steps generalizing st with
  | nil =>
      cases finished
      simp
  | cons first rest ih =>
      obtain ⟨next, stepped, remaining⟩ := Runs.run_cons_eq_some _ finished
      rw [ih (fun step inside => members step (List.mem_cons_of_mem first inside)) remaining,
        allocStep_assigned (members first List.mem_cons_self) stepped reg, or_assoc]
      simp

theorem noInsertionPoint_not_mem {st : EVMStackAlloc}
    (finished : Runs.run (allocStep F) steps st = some last) : .noInsertionPoint ∉ steps := by
  induction steps generalizing st with
  | nil => exact List.not_mem_nil
  | cons first rest ih =>
      obtain ⟨next, stepped, remaining⟩ := Runs.run_cons_eq_some _ finished
      intro member
      rcases List.mem_cons.mp member with rfl | deeper
      · cases stepped
      · exact ih remaining deeper

section Reached

variable {st middle : EVMStackAlloc} {done rest : List AllocStep} {step : AllocStep}
variable {ref : InstrRef} {rank : Nat}

theorem definedBefore_of_assigned (split : functionSteps F = done ++ step :: rest)
    (here : bodyRef step = some (ref, rank)) (beforeCleanUp : rank ≤ 1)
    (reached : Runs.run (allocStep F) done (startState F st) = some middle)
    (assigned : (middle.regAssignments reg).isSome = true) : DefinedBefore F ref reg := by
  have members : ∀ visited ∈ done, visited ∈ functionSteps F := by
    intro visited inside
    rw [split]
    exact List.mem_append_left _ inside
  rcases (run_assigned members reached reg).mp assigned with fromStart | ⟨visited, inside, defines⟩
  · cases fromStart
  · have ordered := functionSteps_pairwise F
    rw [split] at ordered
    have before := (List.pairwise_append.mp ordered).2.2 visited inside step List.mem_cons_self
    obtain ⟨earlier, known, defined⟩ := Option.bind_eq_some_iff.mp defines
    refine ⟨earlier, defRef_mem_allRefs (members visited inside) known, defined, ?_⟩
    cases visited with
    | define other =>
        cases known
        rcases before.body earlier 1 ref rank rfl here with order | ⟨_, less⟩
        · exact order
        · omega
    | stackArg first arg =>
        cases known
        exact before.argBefore first earlier ref rank rfl here
    | emptyBlock => cases known
    | noInsertionPoint | openBlock | beginBlock | uses | cleanUp | endBlock => cases known

private theorem instrs_ne_nil_of_stackArgs (isArg : arg ∈ stackArgs F block) : F.instrs block ≠ [] := by
  intro none
  have listed := mem_instrRefs_of_stackArgs isArg
  simp [MachineFunction.instrRefs, none] at listed

private theorem bodyRefs_entry_ne_nil (split : functionSteps F = done ++ step :: rest)
    (here : bodyRef step = some (ref, rank))
    (reached : Runs.run (allocStep F) done (startState F st) = some middle)
    (isArg : arg ∈ stackArgs F 0) : bodyRefs F 0 ≠ [] := by
  intro empty
  have entrySteps : blockSteps F 0 = [.noInsertionPoint] := by
    unfold blockSteps
    rw [if_neg (instrs_ne_nil_of_stackArgs isArg), empty]
  obtain ⟨count, _, firstStep⟩ := functionSteps_eq_entry F
  rw [entrySteps, List.singleton_append] at firstStep
  rw [firstStep] at split
  cases done with
  | nil =>
      cases split
      cases here
  | cons first others =>
      obtain ⟨rfl, _⟩ := List.cons.inj split
      exact noInsertionPoint_not_mem reached List.mem_cons_self

theorem assigned_of_definedBefore (split : functionSteps F = done ++ step :: rest)
    (here : bodyRef step = some (ref, rank))
    (reached : Runs.run (allocStep F) done (startState F st) = some middle)
    (defined : DefinedBefore F ref reg) : (middle.regAssignments reg).isSome = true := by
  obtain ⟨earlier, member, defines, order⟩ := defined
  have members : ∀ visited ∈ done, visited ∈ functionSteps F := by
    intro visited inside
    rw [split]
    exact List.mem_append_left _ inside
  have ordered := functionSteps_pairwise F
  rw [split] at ordered
  have after := (List.pairwise_cons.mp (List.pairwise_append.mp ordered).2.1).1
  refine (run_assigned members reached reg).mpr (Or.inr ?_)
  have found := MachineFunction.mem_allRefs.mp member
  have listed : earlier ∈ F.instrRefs earlier.block :=
    MachineFunction.mem_instrRefs.mpr ⟨rfl, found⟩
  have bound := MachineFunction.lt_of_mem_instrRefs listed
  rw [instrRefs_eq_stackArgs_append] at listed
  rcases List.mem_append.mp listed with isArg | inBody
  · have entry : earlier.block = 0 := by
      by_contra later
      rw [stackArgs_eq_nil later] at isArg
      cases isArg
    rw [entry] at isArg bound
    obtain ⟨first, others, body⟩ := List.exists_cons_of_ne_nil
      (bodyRefs_entry_ne_nil split here reached isArg)
    have present : AllocStep.stackArg first earlier ∈ functionSteps F := by
      refine mem_functionSteps.mpr ⟨0, bound, ?_⟩
      unfold blockSteps
      rw [if_neg (instrs_ne_nil_of_stackArgs isArg), body]
      simp only [List.cons_append, List.mem_cons, List.mem_append]
      refine Or.inr (Or.inl (Or.inl ?_))
      exact List.mem_map.mpr ⟨earlier, List.mem_reverse.mpr isArg, rfl⟩
    rw [split] at present
    rcases List.mem_append.mp present with inside | later
    · exact ⟨_, inside, defines⟩
    · rcases List.mem_cons.mp later with same | deeper
      · rw [← same] at here
        cases here
      · exact absurd rfl ((after _ deeper).argFirst first earlier ref rank here)
  · have present : AllocStep.define earlier ∈ functionSteps F :=
      mem_functionSteps.mpr ⟨earlier.block, bound,
        mem_blockSteps_of_bodyRefs inBody (by simp [instrSteps])⟩
    rw [split] at present
    rcases List.mem_append.mp present with inside | later
    · exact ⟨_, inside, defines⟩
    · rcases List.mem_cons.mp later with same | deeper
      · rw [← same] at here
        cases here
        exact absurd order (Precedes.irrefl _)
      · rcases (after _ deeper).body ref rank earlier 1 here rfl with reverse | ⟨rfl, _⟩
        · exact absurd order reverse.asymm
        · exact absurd order (Precedes.irrefl ref)

end Reached

/-! ### Operand lists along the run -/

theorem allocStep_MRI {step : AllocStep} {st next : EVMStackAlloc}
    (done : allocStep F step st = some next) :
    ∃ uses defs, next.MRI = ⟨st.MRI.uses ++ uses, st.MRI.defs ++ defs⟩ := by
  have unchanged : ∃ uses defs, st.MRI = ⟨st.MRI.uses ++ uses, st.MRI.defs ++ defs⟩ :=
    ⟨[], [], by simp⟩
  cases step with
  | emptyBlock =>
      cases done
      exact unchanged
  | noInsertionPoint => cases done
  | openBlock block =>
      cases done
      exact unchanged
  | stackArg first arg =>
      rcases analyzeStackArg_eq_some done with ⟨_, _, _, _, rfl⟩ | ⟨_, _, rfl⟩ |
        ⟨_, _, _, _, _, _, _, _, _, _, _, _, _, _, _, rfl⟩
      · exact unchanged
      · exact unchanged
      · exact ⟨[(argRegister arg, first.slotBefore.getRegSlot)], [], by simp⟩
  | beginBlock block =>
      rcases beginOfBlockUpdates_eq_some done with ⟨_, rfl⟩ | ⟨_, _, _, _, _, _, _, _, _, rfl⟩
      · exact unchanged
      · exact unchanged
  | uses ref =>
      obtain ⟨_, defs, _, rfl, _⟩ := handleUses_frame done
      exact ⟨[], defs, by simp⟩
  | define ref =>
      rcases handleDef_eq_some done with ⟨_, rfl⟩ | ⟨defReg, _, unused | onStack | inMemory⟩
      · exact unchanged
      · obtain ⟨_, _, _, _, _, rfl⟩ := unused
        exact unchanged
      · obtain ⟨_, _, _, rfl⟩ := onStack
        exact unchanged
      · obtain ⟨_, rfl⟩ := inMemory
        obtain ⟨_, _, _, _, result⟩ := storeDef_eq ref defReg st
        rw [result]
        exact ⟨[(defReg, ref.slotAfter.getRegSlot)], [], by simp⟩
  | cleanUp ref =>
      obtain ⟨cleaned, cleaning, rfl⟩ := Option.map_eq_some_iff.mp done
      obtain ⟨_, _, _, rfl, _⟩ := cleanUpDeadRegisters_frame cleaning
      exact unchanged
  | endBlock block =>
      obtain ⟨ended, ending, rfl⟩ := Option.map_eq_some_iff.mp done
      rcases endOfBlockUpdates_eq_some ending with ⟨_, rfl⟩ | ⟨_, _, _, _, _, rfl⟩
      · exact unchanged
      · exact unchanged

theorem run_MRI {st : EVMStackAlloc} (finished : Runs.run (allocStep F) steps st = some last) :
    ∃ uses defs, last.MRI = ⟨st.MRI.uses ++ uses, st.MRI.defs ++ defs⟩ := by
  induction steps generalizing st with
  | nil =>
      cases finished
      exact ⟨[], [], by simp⟩
  | cons first rest ih =>
      obtain ⟨next, stepped, remaining⟩ := Runs.run_cons_eq_some _ finished
      obtain ⟨uses, defs, operands⟩ := allocStep_MRI stepped
      obtain ⟨moreUses, moreDefs, all⟩ := ih remaining
      refine ⟨uses ++ moreUses, defs ++ moreDefs, ?_⟩
      rw [all, operands]
      simp

private theorem mem_regInfo_defs {ref : InstrRef} (member : ref ∈ F.allRefs)
    (defines : ref.instr.defRegister = some reg) :
    (reg, ref.slotIndex.getRegSlot) ∈ F.regInfo.defs := by
  refine List.mem_flatMap.mpr ⟨ref, member, ?_⟩
  simp [defines]

theorem hasOneDef_eq_false {MRI : MachineRegisterInfo} {earlier later : InstrRef}
    (listed : ∀ operand ∈ F.regInfo.defs, operand ∈ MRI.defs) (atEarlier : earlier ∈ F.allRefs)
    (definesEarlier : earlier.instr.defRegister = some reg) (atLater : later ∈ F.allRefs)
    (definesLater : later.instr.defRegister = some reg) (order : Precedes earlier later) :
      MRI.hasOneDef reg = false := by
  have operand : ∀ ref ∈ F.allRefs, ref.instr.defRegister = some reg →
      ref.slotIndex.getRegSlot ∈ MRI.defOperands reg := by
    intro ref member defines
    refine List.mem_map.mpr ⟨(reg, ref.slotIndex.getRegSlot), List.mem_filter.mpr ⟨?_, ?_⟩, rfl⟩
    · exact listed _ (mem_regInfo_defs member defines)
    · exact decide_eq_true rfl
  have first := operand earlier atEarlier definesEarlier
  have second := operand later atLater definesLater
  unfold MachineRegisterInfo.hasOneDef
  rw [beq_eq_false_iff_ne]
  intro single
  obtain ⟨only, alone⟩ := List.length_eq_one_iff.mp single
  rw [alone, List.mem_singleton] at first second
  rw [← second] at first
  simp only [InstrRef.slotIndex, SlotIndex.getRegSlot, SlotIndex.mk.injEq] at first
  unfold Precedes at order
  omega

theorem redefined_hasOneDef (F : MachineFunction) (st : EVMStackAlloc) :
    Runs.EveryStep (allocStep F)
      (fun step current => ∀ ref reg, step = .define ref → ref.instr.defRegister = some reg →
        (current.regAssignments reg).isSome = true → current.MRI.hasOneDef reg = false)
      (functionSteps F) (startState F st) := by
  rw [Runs.everyStep_iff_reached]
  rintro done _ rest middle split reached ref reg rfl defines assigned
  obtain ⟨earlier, member, alsoDefines, order⟩ :=
    definedBefore_of_assigned split rfl (Nat.le_refl 1) reached assigned
  have present : AllocStep.define ref ∈ functionSteps F := by
    rw [split]
    exact List.mem_append_right _ List.mem_cons_self
  obtain ⟨uses, defs, operands⟩ := run_MRI reached
  refine hasOneDef_eq_false ?_ member alsoDefines (defRef_mem_allRefs present rfl) defines order
  intro operand listed
  rw [operands]
  exact List.mem_append_left _ listed

end EvmBackend.EVMStackAlloc
