/-
How the map of local slots travels along control-flow edges: one entry for each
edge set, overwritten by every block that ends in the set, read at the start of
every block the set leads to.

The map a block starts from is therefore the one of the last such block in the
layout, whichever predecessor control comes from.
-/

import EvmBackend.StackAlloc.LiveSlots

namespace EvmBackend.EVMStackAlloc

open Option

def stateAfter (F : MachineFunction) (st : EVMStackAlloc) (count : Nat) : Option EVMStackAlloc :=
  Runs.run (analyzeBasicBlock F) (List.range count) (startState F st)

/-- The pass object right after the updates at the start of a block; a block
without instructions has none. -/
def stateAtStart (F : MachineFunction) (st : EVMStackAlloc) (block : Nat) :
    Option EVMStackAlloc :=
  if F.instrs block = [] then none
  else (stateAfter F st block).bind fun reached =>
    (tryToAnalyzeStackArgs F block reached).bind (beginOfBlockUpdates F block)

def outSlots (F : MachineFunction) (st : EVMStackAlloc) (block : Nat) : List Register :=
  ((stateAfter F st (block + 1)).map memoryAssignment).getD []

def functionEdgeSets (F : MachineFunction) : EdgeSets :=
  (EdgeSets.computeEdgeSets F).getD ⟨[], []⟩

def writesEntry (F : MachineFunction) (edgeSet : Nat) (block : Nat) : Bool :=
  !(F.instrs block).isEmpty &&
    match F.successors block with
    | [] => false
    | later :: _ => (functionEdgeSets F).getEdgeSetIndex (realEdge block later) == some edgeSet

def lastWriterOf (F : MachineFunction) (edgeSet : Nat) : Nat → Option Nat
  | 0 => none
  | count + 1 => if writesEntry F edgeSet count then some count else lastWriterOf F edgeSet count

def lastWriter (F : MachineFunction) (block : Nat) : Option Nat :=
  match F.predecessors block with
  | [] => none
  | pred :: _ =>
      ((functionEdgeSets F).getEdgeSetIndex (realEdge pred block)).bind fun edgeSet =>
        lastWriterOf F edgeSet block

variable {F : MachineFunction}

variable {st reached : EVMStackAlloc} {block count : Nat}

theorem lastWriterOf_lt {edgeSet writer : Nat} (last : lastWriterOf F edgeSet count = some writer) :
    writer < count := by
  induction count with
  | zero => cases last
  | succ count ih =>
      unfold lastWriterOf at last
      split at last
      · cases last
        exact Nat.lt_succ_self _
      · exact (ih last).trans (Nat.lt_succ_self _)

theorem lastWriter_lt {writer : Nat} (last : lastWriter F block = some writer) :
    writer < block := by
  unfold lastWriter at last
  cases preds : F.predecessors block with
  | nil =>
      rw [preds] at last
      cases last
  | cons pred others =>
      rw [preds] at last
      obtain ⟨edgeSet, _, last⟩ := bind_eq_some_iff.mp last
      exact lastWriterOf_lt last

theorem stateAfter_succ (F : MachineFunction) (st : EVMStackAlloc) (count : Nat) :
    stateAfter F st (count + 1) = (stateAfter F st count).bind (analyzeBasicBlock F count) := by
  unfold stateAfter
  rw [List.range_succ, Runs.run_append]
  congr 1
  funext reached
  cases done : analyzeBasicBlock F count reached <;> simp [done]

/-! ### Which steps touch the entries -/

theorem allocStep_entries {step : AllocStep} {next : EVMStackAlloc}
    (notEnd : ∀ block, step ≠ .endBlock block) (done : allocStep F step st = some next) :
    next.edgeset2assignment = st.edgeset2assignment ∧ next.edgeSets = st.edgeSets := by
  cases step with
  | emptyBlock =>
      cases done
      exact ⟨rfl, rfl⟩
  | noInsertionPoint => cases done
  | openBlock block =>
      cases done
      exact ⟨rfl, rfl⟩
  | stackArg first arg =>
      rcases analyzeStackArg_eq_some done with ⟨_, _, _, _, rfl⟩ | ⟨_, _, rfl⟩ |
        ⟨_, _, _, _, _, _, _, _, _, _, _, _, _, _, _, rfl⟩
      · exact ⟨rfl, rfl⟩
      · exact ⟨rfl, rfl⟩
      · exact ⟨rfl, rfl⟩
  | beginBlock block =>
      rcases beginOfBlockUpdates_eq_some done with ⟨_, rfl⟩ | ⟨_, _, _, _, _, _, _, _, _, rfl⟩
      · exact ⟨rfl, rfl⟩
      · exact ⟨rfl, rfl⟩
  | uses ref =>
      obtain ⟨_, _, _, rfl, _⟩ := handleUses_frame done
      exact ⟨rfl, rfl⟩
  | define ref =>
      rcases handleDef_eq_some done with ⟨_, rfl⟩ | ⟨defReg, _, unused | onStack | inMemory⟩
      · exact ⟨rfl, rfl⟩
      · obtain ⟨_, _, _, _, _, rfl⟩ := unused
        exact ⟨rfl, rfl⟩
      · obtain ⟨_, _, _, rfl⟩ := onStack
        exact ⟨rfl, rfl⟩
      · obtain ⟨_, rfl⟩ := inMemory
        obtain ⟨_, _, _, _, result⟩ := storeDef_eq ref defReg st
        rw [result]
        exact ⟨rfl, rfl⟩
  | cleanUp ref =>
      obtain ⟨cleaned, cleaning, rfl⟩ := map_eq_some_iff.mp done
      obtain ⟨_, _, _, rfl, _⟩ := cleanUpDeadRegisters_frame cleaning
      exact ⟨rfl, rfl⟩
  | endBlock block => exact absurd rfl (notEnd block)

theorem run_entries {steps : List AllocStep} {last : EVMStackAlloc}
    (notEnd : ∀ step ∈ steps, ∀ block, step ≠ .endBlock block)
    (finished : Runs.run (allocStep F) steps st = some last) :
    last.edgeset2assignment = st.edgeset2assignment ∧ last.edgeSets = st.edgeSets := by
  induction steps generalizing st with
  | nil =>
      cases finished
      exact ⟨rfl, rfl⟩
  | cons first rest ih =>
      obtain ⟨next, stepped, remaining⟩ := Runs.run_cons_eq_some _ finished
      obtain ⟨entries, sets⟩ := allocStep_entries (notEnd first List.mem_cons_self) stepped
      obtain ⟨laterEntries, laterSets⟩ :=
        ih (fun step member => notEnd step (List.mem_cons_of_mem first member)) remaining
      exact ⟨laterEntries.trans entries, laterSets.trans sets⟩

theorem analyzeBasicBlock_entries {next : EVMStackAlloc}
    (done : analyzeBasicBlock F block st = some next) :
    next.edgeSets = st.edgeSets ∧
      ((next.edgeset2assignment = st.edgeset2assignment ∧
          (F.instrs block = [] ∨ F.successors block = [])) ∨
        ∃ later rest edgeSet stack, F.instrs block ≠ [] ∧ F.successors block = later :: rest ∧
          st.edgeSets.getEdgeSetIndex (realEdge block later) = some edgeSet ∧
          next.edgeset2assignment = Function.update st.edgeset2assignment edgeSet
            (some (stack, next.memoryAssignment))) := by
  rw [analyzeBasicBlock_eq_run] at done
  rcases blockSteps_cases F block with
    ⟨empty, steps⟩ | ⟨_, _, steps⟩ | ⟨first, rest, _, nonempty, steps⟩
  · rw [steps] at done
    cases done
    exact ⟨rfl, Or.inl ⟨rfl, Or.inl empty⟩⟩
  · rw [steps] at done
    cases done
  · have listed : blockSteps F block = (.openBlock block :: (argSteps F block first ++
        .beginBlock block :: bodySteps F block)) ++ [.endBlock block] := by
      rw [steps]
      simp
    rw [listed, Runs.run_append] at done
    obtain ⟨walked, walking, ended⟩ := bind_eq_some_iff.mp done
    have quiet : ∀ step ∈ AllocStep.openBlock block :: (argSteps F block first ++
        .beginBlock block :: bodySteps F block), ∀ other, step ≠ .endBlock other := by
      intro step member other
      simp only [List.mem_cons, List.mem_append, argSteps, List.mem_map, bodySteps,
        List.mem_flatMap, instrSteps, List.not_mem_nil, or_false] at member
      rcases member with rfl | ⟨_, _, rfl⟩ | rfl | ⟨_, _, rfl | rfl | rfl⟩ <;> simp
    obtain ⟨entries, sets⟩ := run_entries quiet walking
    obtain ⟨closed, closing, remaining⟩ := Runs.run_cons_eq_some _ ended
    cases remaining
    obtain ⟨updated, updating, rfl⟩ := map_eq_some_iff.mp closing
    rcases endOfBlockUpdates_eq_some updating with
      ⟨noSuccessor, rfl⟩ | ⟨later, others, edgeSet, edges, known, rfl⟩
    · exact ⟨sets, Or.inl ⟨entries, Or.inr noSuccessor⟩⟩
    · refine ⟨sets, Or.inr ⟨later, others, edgeSet, walked.stack, nonempty, edges, ?_, ?_⟩⟩
      · rw [← sets]
        exact known
      · simp only [closeBlock, entries]

theorem stateAfter_edgeSets (known : stateAfter F st count = some reached) :
    reached.edgeSets = functionEdgeSets F := by
  induction count generalizing reached with
  | zero =>
      cases known
      rfl
  | succ count ih =>
      rw [stateAfter_succ] at known
      obtain ⟨before, earlier, stepped⟩ := bind_eq_some_iff.mp known
      exact (analyzeBasicBlock_entries stepped).1.trans (ih earlier)

theorem entry_eq_lastWriterOf (known : stateAfter F st count = some reached) (edgeSet : Nat) :
    (reached.edgeset2assignment edgeSet).map Prod.snd =
      (lastWriterOf F edgeSet count).map (outSlots F st) := by
  induction count generalizing reached with
  | zero =>
      cases known
      rfl
  | succ count ih =>
      have whole := known
      rw [stateAfter_succ] at known
      obtain ⟨before, earlier, stepped⟩ := bind_eq_some_iff.mp known
      have out : outSlots F st count = reached.memoryAssignment := by
        unfold outSlots
        rw [whole]
        rfl
      have sets := stateAfter_edgeSets earlier
      obtain ⟨_, ⟨entries, silent⟩ | ⟨later, rest, written, stack, nonempty, edges, index, entries⟩⟩ :=
        analyzeBasicBlock_entries stepped
      · have noWrite : writesEntry F edgeSet count = false := by
          rcases silent with empty | noSuccessor
          · simp [writesEntry, empty]
          · simp [writesEntry, noSuccessor]
        rw [entries, ih earlier, lastWriterOf, noWrite]
        rfl
      · rw [sets] at index
        have writes : writesEntry F edgeSet count = true ↔ written = edgeSet := by
          simp [writesEntry, edges, index, nonempty]
        rw [entries, lastWriterOf]
        by_cases same : written = edgeSet
        · rw [if_pos (writes.mpr same), ← same, Function.update_self]
          simp [out]
        · rw [if_neg (fun wrote => same (writes.mp wrote)),
            Function.update_of_ne (Ne.symm same), ih earlier]

/-! ### The map a block starts from -/

theorem takenOver_eq_lastWriter (known : stateAfter F st block = some reached)
    {xStack memslots : List Register}
    (handed : takenOver F block reached = some (xStack, memslots)) :
    memslots = ((lastWriter F block).map (outSlots F st)).getD [] := by
  unfold takenOver at handed
  unfold lastWriter
  cases preds : F.predecessors block with
  | nil => simp [preds] at handed
  | cons pred others =>
      simp only [preds] at handed
      obtain ⟨edgeSet, index, taken⟩ := map_eq_some_iff.mp handed
      rw [stateAfter_edgeSets known] at index
      have entry := entry_eq_lastWriterOf known edgeSet
      simp only [index, bind_some]
      rw [← entry]
      cases held : reached.edgeset2assignment edgeSet with
      | none | some =>
          rw [held] at taken
          cases taken
          rfl

theorem stateAtStart_eq_some {started : EVMStackAlloc} (later : block ≠ 0)
    (known : stateAtStart F st block = some started) :
    ∃ reached, stateAfter F st block = some reached ∧
      beginOfBlockUpdates F block (openBlock F block reached) = some started := by
  unfold stateAtStart at known
  split at known
  · cases known
  · obtain ⟨reached, earlier, known⟩ := bind_eq_some_iff.mp known
    obtain ⟨argued, arguing, starting⟩ := bind_eq_some_iff.mp known
    refine ⟨reached, earlier, ?_⟩
    unfold tryToAnalyzeStackArgs at arguing
    split at arguing
    · cases arguing
    · rw [stackArgs_eq_nil later] at arguing
      cases arguing
      exact starting

/-- What is in a slot at the start of a block: what the last writer left there,
unless it is judged dead. -/
theorem startSlots_iff {started : EVMStackAlloc} (later : block ≠ 0)
    (hasPred : F.predecessors block ≠ []) (known : stateAtStart F st block = some started)
    (reg : Register) (slot : Nat) (nonzero : reg ≠ 0) :
    started.memoryAssignment[slot]? = some reg ↔
      (∃ writer, lastWriter F block = some writer ∧ (outSlots F st writer)[slot]? = some reg) ∧
        NearUse F started.MRI reg block := by
  obtain ⟨reached, earlier, starting⟩ := stateAtStart_eq_some later known
  rcases beginOfBlockUpdates_eq_some starting with
    ⟨noPred, _⟩ | ⟨xStack, memslots, slots, _, _, _, handed, exactly, _, rfl⟩
  · exact absurd noPred hasPred
  · have taken := takenOver_eq_lastWriter earlier handed
    rw [exactly slot reg nonzero, regIsDeadAtBeginningOfMBB_eq_false, taken]
    cases lastWriter F block with
    | none | some => simp [openBlock]

/-- Every register a block leaves in a slot and that is live into the target of
an edge is in the same slot once the target is started. -/
def EdgeKeepsSlots (F : MachineFunction) (st : EVMStackAlloc) (source target : Nat)
    (started : EVMStackAlloc) : Prop :=
  ∀ (reg : Register) (slot : Nat), reg ≠ 0 → (outSlots F st source)[slot]? = some reg →
    F.LiveIn reg target → started.memoryAssignment[slot]? = some reg

/-- The last block before the target that wrote the entry of its edge set left
each of these registers in the same slot, and each has a use near the target. -/
def WriterAgrees (F : MachineFunction) (st : EVMStackAlloc) (source target : Nat)
    (started : EVMStackAlloc) : Prop :=
  ∀ (reg : Register) (slot : Nat), reg ≠ 0 → (outSlots F st source)[slot]? = some reg →
    F.LiveIn reg target →
      (∃ writer, lastWriter F target = some writer ∧
        (outSlots F st writer)[slot]? = some reg) ∧ NearUse F started.MRI reg target

/-- Live registers keep their slots across an edge from an earlier block exactly
when the last writer agrees with that block about them. -/
theorem edgeKeepsSlots_iff_writerAgrees (F : MachineFunction) (st started : EVMStackAlloc)
    (source target : Nat) (edge : target ∈ F.successors source) (earlier : source < target)
    (known : stateAtStart F st target = some started) :
    EdgeKeepsSlots F st source target started ↔ WriterAgrees F st source target started := by
  have hasPred : F.predecessors target ≠ [] :=
    List.ne_nil_of_mem (MachineFunction.mem_successors_iff.mp edge)
  have notEntry : target ≠ 0 := by omega
  constructor
  · intro keeps reg slot nonzero occupied live
    exact (startSlots_iff notEntry hasPred known reg slot nonzero).mp
      (keeps reg slot nonzero occupied live)
  · intro agrees reg slot nonzero occupied live
    exact (startSlots_iff notEntry hasPred known reg slot nonzero).mpr
      (agrees reg slot nonzero occupied live)

/-- Two blocks that define the same register on the way to a third; the second
of them needs another slot first. -/
def joinedDefinitions : MachineFunction where
  blocks := [
    ⟨[⟨.inst 0x57, none, [.mbb 1]⟩], [1, 2], []⟩,
    ⟨[⟨.inst 0x60, some 1, [.imm 1]⟩], [3], [0]⟩,
    ⟨[⟨.inst 0x60, some 2, [.imm 2]⟩, ⟨.inst 0x60, some 1, [.imm 3]⟩], [3, 4], [0]⟩,
    ⟨[⟨.inst 0xf3, none, [.reg 1]⟩], [], [1, 2]⟩,
    ⟨[⟨.inst 0xf3, none, [.reg 2]⟩], [], [2]⟩]
  getInterval := fun reg =>
    if reg = 1 then
      ⟨[(⟨1, 2, 2⟩, ⟨2, 0, 0⟩), (⟨2, 5, 2⟩, ⟨3, 0, 0⟩), (⟨3, 0, 0⟩, ⟨3, 2, 2⟩)], by simp⟩
    else ⟨[(⟨2, 2, 2⟩, ⟨3, 0, 0⟩), (⟨4, 0, 0⟩, ⟨4, 2, 2⟩)], by simp⟩
  hasEntry := by simp
  edges := by decide
  nonzero := by decide

theorem edgeKeepsSlots_joinedDefinitions :
    ∃ started, stateAtStart joinedDefinitions fresh 3 = some started ∧
      (EdgeKeepsSlots joinedDefinitions fresh 2 3 started ↔
        WriterAgrees joinedDefinitions fresh 2 3 started) := by
  have starts : (stateAtStart joinedDefinitions fresh 3).isSome = true := by decide
  obtain ⟨started, known⟩ := isSome_iff_exists.mp starts
  exact ⟨started, known, edgeKeepsSlots_iff_writerAgrees joinedDefinitions fresh started 2 3
    (by decide) (by decide) known⟩

/-- The first of the two blocks leaves the register in slot 0; the target finds
it in slot 1 and slot 0 free. -/
theorem joinedDefinitions_loses_slot :
    ∃ started, stateAtStart joinedDefinitions fresh 3 = some started ∧
      3 ∈ joinedDefinitions.successors 1 ∧
      ¬ EdgeKeepsSlots joinedDefinitions fresh 1 3 started := by
  have starts : (stateAtStart joinedDefinitions fresh 3).isSome = true := by decide
  obtain ⟨started, known⟩ := isSome_iff_exists.mp starts
  have observed : (stateAtStart joinedDefinitions fresh 3).map memoryAssignment =
      some [0, 1] := by decide
  rw [known, map_some, Option.some.injEq] at observed
  refine ⟨started, known, by decide, fun keeps => ?_⟩
  have live : joinedDefinitions.LiveIn 1 3 :=
    .here (Or.inl (by decide : 1 ∈ MachineInstr.useRegisters ⟨.inst 0xf3, none, [.reg 1]⟩))
  have kept := keeps 1 0 (by decide) (by decide) live
  rw [observed] at kept
  cases kept

end EvmBackend.EVMStackAlloc
