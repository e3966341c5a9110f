/-
The allocator as one run of small steps: opening a block, its stack arguments,
the updates at its start, the uses, definition and clean-up of every
instruction, and the updates at its end.

Each kind of step gets one lemma that says what it can do. Results about the
allocator are proved from these lemmas and from the rules for runs.
-/

import EvmBackend.StackAlloc.SlotMap
import Mathlib.Logic.Relation

namespace EvmBackend

inductive AllocStep
  | emptyBlock
  | noInsertionPoint
  | openBlock (block : Nat)
  | stackArg (first arg : InstrRef)
  | beginBlock (block : Nat)
  | uses (ref : InstrRef)
  | define (ref : InstrRef)
  | cleanUp (ref : InstrRef)
  | endBlock (block : Nat)
  deriving DecidableEq, Repr

variable {reg : Register} {slot : Nat}

namespace EVMStackAlloc

def allocStep (F : MachineFunction) : AllocStep → EVMStackAlloc → Option EVMStackAlloc
  | .emptyBlock, st => some (closeBlock st)
  | .noInsertionPoint, _ => none
  | .openBlock block, st => some (openBlock F block st)
  | .stackArg first arg, st => analyzeStackArg F first arg st
  | .beginBlock block, st => beginOfBlockUpdates F block st
  | .uses ref, st => handleUses F ref st
  | .define ref, st => handleDef F ref st
  | .cleanUp ref, st => (cleanUpDeadRegisters F ref st).map (passInstr ref)
  | .endBlock block, st => (endOfBlockUpdates F block st).map closeBlock

def instrSteps (ref : InstrRef) : List AllocStep := [.uses ref, .define ref, .cleanUp ref]

def bodySteps (F : MachineFunction) (block : Nat) : List AllocStep :=
  (bodyRefs F block).flatMap instrSteps

def argSteps (F : MachineFunction) (block : Nat) (first : InstrRef) : List AllocStep :=
  (stackArgs F block).reverse.map (.stackArg first)

def blockSteps (F : MachineFunction) (block : Nat) : List AllocStep :=
  if F.instrs block = [] then [.emptyBlock]
  else match bodyRefs F block with
    | [] => [.noInsertionPoint]
    | first :: _ =>
        .openBlock block :: argSteps F block first ++
          .beginBlock block :: bodySteps F block ++ [.endBlock block]

def blocksSteps (F : MachineFunction) (blocks : List Nat) : List AllocStep :=
  blocks.flatMap (blockSteps F)

def functionSteps (F : MachineFunction) : List AllocStep :=
  blocksSteps F (List.range F.blocks.length)

section

variable (F : MachineFunction)

include F

theorem blockSteps_cases (block : Nat) :
    (F.instrs block = [] ∧ blockSteps F block = [.emptyBlock]) ∨
    (F.instrs block ≠ [] ∧ bodyRefs F block = [] ∧ blockSteps F block = [.noInsertionPoint]) ∨
    ∃ first rest, bodyRefs F block = first :: rest ∧ F.instrs block ≠ [] ∧
      blockSteps F block = .openBlock block :: (argSteps F block first ++
        .beginBlock block :: (bodySteps F block ++ [.endBlock block])) := by
  unfold blockSteps
  by_cases empty : F.instrs block = []
  · exact Or.inl ⟨empty, if_pos empty⟩
  · rw [if_neg empty]
    cases body : bodyRefs F block with
    | nil => exact Or.inr (Or.inl ⟨empty, rfl, rfl⟩)
    | cons first rest =>
        exact Or.inr (Or.inr ⟨first, rest, rfl, empty,
          by simp only [List.cons_append, List.append_assoc]⟩)

theorem functionSteps_eq_entry :
    ∃ count, F.blocks.length = count + 1 ∧
      functionSteps F = blockSteps F 0 ++ blocksSteps F ((List.range count).map Nat.succ) := by
  obtain ⟨count, size⟩ := Nat.exists_eq_succ_of_ne_zero
    (fun zero => F.hasEntry (List.length_eq_zero_iff.mp zero))
  refine ⟨count, size, ?_⟩
  unfold functionSteps blocksSteps
  rw [size, Nat.succ_eq_add_one, List.range_succ_eq_map, List.flatMap_cons]

theorem analyzeInstr_eq_run (ref : InstrRef) (st : EVMStackAlloc) :
    analyzeInstr F ref st = Runs.run (allocStep F) (instrSteps ref) st := by
  simp only [analyzeInstr, instrSteps, Runs.run_cons, allocStep, Option.bind_eq_bind]
  congr 1
  funext used
  congr 1
  funext defined
  rw [Runs.run_cons, allocStep]
  cases cleanUpDeadRegisters F ref defined <;> rfl

theorem run_bodySteps (block : Nat) (st : EVMStackAlloc) :
    Runs.run (allocStep F) (bodySteps F block) st =
      Runs.run (analyzeInstr F) (bodyRefs F block) st := by
  have expanded : (fun ref => Runs.run (allocStep F) (instrSteps ref)) = analyzeInstr F := by
    funext ref state
    exact (analyzeInstr_eq_run F ref state).symm
  rw [bodySteps, Runs.run_flatMap, expanded]

theorem analyzeBasicBlock_eq_run (block : Nat) (st : EVMStackAlloc) :
    analyzeBasicBlock F block st = Runs.run (allocStep F) (blockSteps F block) st := by
  unfold analyzeBasicBlock blockSteps
  by_cases empty : F.instrs block = []
  · rw [if_pos empty, if_pos empty]
    rfl
  · rw [if_neg empty, if_neg empty]
    unfold tryToAnalyzeStackArgs
    cases body : bodyRefs F block with
    | nil => rfl
    | cons first rest =>
        simp only [List.cons_append, List.append_assoc, Runs.run_cons, Runs.run_append, allocStep,
          Option.bind_some, argSteps, Runs.run_map, Option.bind_eq_bind]
        congr 1
        funext argued
        congr 1
        funext started
        rw [Runs.run_append, run_bodySteps, body]
        congr 1
        funext walked
        rw [Runs.run_cons, allocStep]
        cases endOfBlockUpdates F block walked <;> rfl

theorem run_blocksSteps (blocks : List Nat) (st : EVMStackAlloc) :
    Runs.run (allocStep F) (blocksSteps F blocks) st =
      Runs.run (analyzeBasicBlock F) blocks st := by
  have expanded : (fun block => Runs.run (allocStep F) (blockSteps F block)) =
      analyzeBasicBlock F := by
    funext block state
    exact (analyzeBasicBlock_eq_run F block state).symm
  rw [blocksSteps, Runs.run_flatMap, expanded]

end

/-- What the run over a function's blocks starts from. The edge sets are always
there. -/
def startState (F : MachineFunction) (st : EVMStackAlloc) : EVMStackAlloc :=
  { initializePass { st with MRI := F.regInfo, memoryFrameSize := 0 } with
    edgeSets := (EdgeSets.computeEdgeSets F).getD ⟨[], []⟩ }

theorem runOnMachineFunction_eq_run (F : MachineFunction) (st : EVMStackAlloc) :
    runOnMachineFunction F st = Runs.run (allocStep F) (functionSteps F) (startState F st) := by
  obtain ⟨edgeSets, computed⟩ := EdgeSets.computeEdgeSets_isSome F
  rw [functionSteps, run_blocksSteps]
  unfold runOnMachineFunction allocateRegistersToStack startState
  rw [computed]
  rfl

def accessOf : OutInstr → Option (Register × Nat)
  | .pGETLOCAL_r register slot => some (register, slot)
  | .pPUTLOCAL_r register slot => some (register, slot)
  | _ => none

def Names (code : List OutInstr) (reg : Register) (slot : Nat) : Prop :=
  ∃ out ∈ code, accessOf out = some (reg, slot)

@[simp]
theorem names_append {left right : List OutInstr} :
    Names (left ++ right) reg slot ↔ Names left reg slot ∨ Names right reg slot := by
  simp only [Names, List.mem_append, or_and_right, exists_or]

@[simp]
theorem names_cons {first : OutInstr} {rest : List OutInstr} :
    Names (first :: rest) reg slot ↔ accessOf first = some (reg, slot) ∨ Names rest reg slot := by
  simp only [Names, List.mem_cons, or_and_right, exists_or, exists_eq_left]

@[simp]
theorem names_nil : ¬ Names [] reg slot := by
  simp [Names]

theorem not_names_of_silent {code : List OutInstr} (silent : ∀ out ∈ code, accessOf out = none) :
    ¬ Names code reg slot := by
  rintro ⟨out, member, found⟩
  rw [silent out member] at found
  cases found

/-- Everything left behind so far, in the finished blocks and in the current one. -/
def code (st : EVMStackAlloc) : List OutInstr :=
  st.emitted.flatten ++ (st.before ++ (st.between ++ st.after))

def Accesses (st : EVMStackAlloc) (reg : Register) (slot : Nat) : Prop :=
  Names st.code reg slot

end EVMStackAlloc

end EvmBackend
