/-
The arguments at the start of the -O2 entry block. The markers stand in
descending order, so the symbolic stack starts with argument 0 on top, as the
caller leaves the run-time stack.

Arguments are taken from the top on. One that is local to the block stays, any
other is exchanged with the top and stored; the exchange permutes what is left,
and both stacks undergo it.
-/

import EvmBackend.StackAlloc.Simulation
import EvmBackend.ArgumentMove

namespace EvmBackend.EVMStackAlloc

open List Function

open EVMArgumentMove (stackArg)

def argumentRun (count : Nat) (arg : Nat → Register) : List MachineInstr :=
  (List.range count).reverse.map fun index => stackArg (arg index) index

def argumentRef (count : Nat) (arg : Nat → Register) (index : Nat) : InstrRef :=
  ⟨0, count - 1 - index, stackArg (arg index) index⟩

def isLocalArgument (F : MachineFunction) (count : Nat) (arg : Nat → Register) (index : Nat) : Bool :=
  defIsLocal F (argumentRef count arg index) (arg index)

/-- The allocator at the entry block of a function whose block starts with the
run, every argument being read somewhere. -/
structure AtArguments (F : MachineFunction) (st : EVMStackAlloc) (count : Nat)
    (arg : Nat → Register) (rest : List MachineInstr) : Prop where
  entry : F.instrs 0 = argumentRun count arg ++ rest
  run : ∀ instr ∈ rest.head?, instr.opcode ≠ .pSTACKARG_r
  distinct : ∀ left < count, ∀ right < count, arg left = arg right → left = right
  used : ∀ index < count, st.MRI.useEmpty (arg index) = false
  unassigned : ∀ index < count, st.regAssignments (arg index) = none
  empty : st.memoryAssignment = []

/-- The inserted code takes the arguments from a run-time stack that holds them
with the first on top: what is left is the symbolic stack of the local ones, and
every other argument is in the slot recorded for it. -/
def TakesArgumentsFromStack (F : MachineFunction) (st : EVMStackAlloc) (count : Nat)
    (arg : Nat → Register) : Prop :=
  ∃ next inserted, tryToAnalyzeStackArgs F 0 st = some next ∧
    next.before = st.before ++ (stackArgs F 0).map .original ++ inserted ∧
    next.stack.Nodup ∧
    (∀ reg, reg ∈ next.stack ↔
      ∃ index < count, isLocalArgument F count arg index = true ∧ reg = arg index) ∧
    (∀ index < count, isLocalArgument F count arg index = false →
      ∃ slot, next.regAssignments (arg index) = some ⟨.NONSTACK, slot⟩) ∧
    (∀ left < count, ∀ right < count, ∀ slot,
      next.regAssignments (arg left) = some ⟨.NONSTACK, slot⟩ →
        next.regAssignments (arg right) = some ⟨.NONSTACK, slot⟩ → left = right) ∧
    ∀ {Value World : Type} (sem : MachineInstr → List Value → World → Value × World)
      (value : Register → Value) (base : List Value) (locals : Nat → Value) (world : World),
      ∃ after, execCode sem inserted
          ⟨(List.range count).map (fun index => value (arg index)) ++ base, locals, world⟩ =
            some ⟨next.stack.map value ++ base, after, world⟩ ∧
        ∀ index < count, ∀ slot, next.regAssignments (arg index) = some ⟨.NONSTACK, slot⟩ →
          after slot = value (arg index)

section Markers

variable {F : MachineFunction} {st : EVMStackAlloc} {count : Nat} {arg : Nat → Register}
  {rest : List MachineInstr}

private theorem instrRefs_eq (entry : F.instrs 0 = argumentRun count arg ++ rest) :
    F.instrRefs 0 = ((List.range count).map (argumentRef count arg)).reverse ++
      (rest.zipIdx count).map fun pair => ⟨0, pair.2, pair.1⟩ := by
  unfold MachineFunction.instrRefs
  rw [entry, zipIdx_append, map_append]
  congr 1
  · apply ext_getElem
    · simp [argumentRun]
    · intro index inLeft inRight
      have bound : index < count := by simpa using inRight
      simp [argumentRun, argumentRef]
      omega
  · simp [argumentRun]

theorem AtArguments.stackArgs (given : AtArguments F st count arg rest) :
    EVMStackAlloc.stackArgs F 0 = ((List.range count).map (argumentRef count arg)).reverse := by
  unfold EVMStackAlloc.stackArgs
  rw [if_pos rfl, instrRefs_eq given.entry, takeWhile_append_of_pos]
  · cases rest with
    | nil => simp
    | cons first others =>
        have plain := given.run first rfl
        simp [isStackArg, plain]
  · intro ref member
    obtain ⟨index, _, rfl⟩ := List.mem_map.mp (mem_reverse.mp member)
    rfl

theorem AtArguments.bodyRefs_eq_nil_iff (given : AtArguments F st count arg rest) :
    bodyRefs F 0 = [] ↔ rest = [] := by
  unfold bodyRefs
  rw [if_pos rfl, instrRefs_eq given.entry, dropWhile_append_of_pos]
  · cases rest with
    | nil => simp
    | cons first others =>
        have plain := given.run first rfl
        simp [isStackArg, plain]
  · intro ref member
    obtain ⟨index, _, rfl⟩ := List.mem_map.mp (mem_reverse.mp member)
    rfl

theorem AtArguments.nonzero (given : AtArguments F st count arg rest) {index : Nat}
    (inside : index < count) : arg index ≠ 0 := by
  have member : argumentRef count arg index ∈ F.instrRefs 0 := by
    rw [instrRefs_eq given.entry]
    exact mem_append_left _ (mem_reverse.mpr
      (List.mem_map.mpr ⟨index, mem_range.mpr inside, rfl⟩))
  have proper := MachineFunction.definesProperly_of_mem
    (MachineFunction.mem_allRefs_of_mem_instrRefs member)
  intro isZero
  simp [MachineInstr.definesProperly, argumentRef, isZero] at proper

end Markers

section Steps

variable {F : MachineFunction} {count : Nat} {arg : Nat → Register}

/-- The allocator and its code when the first arguments have been dealt with. -/
structure Taken (F : MachineFunction) (count : Nat) (arg : Nat → Register) (done : Nat)
    (st : EVMStackAlloc) (front code : List OutInstr) : Prop where
  before : st.before = front ++ code
  stack : st.stack.Perm (((List.range count).filter fun index =>
    decide (done ≤ index) || isLocalArgument F count arg index).map arg)
  slots : st.memoryAssignment = ((List.range done).filter fun index =>
    !isLocalArgument F count arg index).map arg
  stored : ∀ index < done, isLocalArgument F count arg index = false →
    ∃ slot, st.regAssignments (arg index) = some ⟨.NONSTACK, slot⟩ ∧
      st.memoryAssignment[slot]? = some (arg index)
  kept : ∀ index < done, isLocalArgument F count arg index = true →
    st.regAssignments (arg index) = some ⟨.L_STACK, 0⟩
  unassigned : ∀ index < count, done ≤ index → st.regAssignments (arg index) = none
  used : ∀ index < count, st.MRI.useEmpty (arg index) = false
  runs : ∀ {Value World : Type} (sem : MachineInstr → List Value → World → Value × World)
    (value : Register → Value) (base : List Value) (locals : Nat → Value) (world : World),
    ∃ after, execCode sem code
        ⟨(List.range count).map (fun index => value (arg index)) ++ base, locals, world⟩ =
          some ⟨st.stack.map value ++ base, after, world⟩ ∧
      ∀ slot reg, st.memoryAssignment[slot]? = some reg → after slot = value reg

variable {st : EVMStackAlloc} {front code : List OutInstr} {done : Nat}

theorem allocateMemorySlot_full (reg : Register) (full : 0 ∉ st.memoryAssignment) :
    ∃ size, allocateMemorySlot reg st =
      ({ st with memoryAssignment := st.memoryAssignment ++ [reg], memoryFrameSize := size },
        st.memoryAssignment.length) := by
  have none : st.memoryAssignment.findIdx? (· == 0) = none := by
    rw [findIdx?_eq_none_iff]
    intro other member
    simp only [beq_eq_false_iff_ne]
    rintro rfl
    exact full member
  unfold allocateMemorySlot
  simp only [none, Option.getD_none, if_true]
  exact ⟨_, by rw [length_append, length_singleton, Nat.add_sub_cancel]; rfl⟩

private theorem useEmpty_append {MRI : MachineRegisterInfo} {reg : Register}
    (used : MRI.useEmpty reg = false) (more : List (Register × SlotIndex)) :
    ({ MRI with uses := MRI.uses ++ more } : MachineRegisterInfo).useEmpty reg = false := by
  unfold MachineRegisterInfo.useEmpty MachineRegisterInfo.useOperands at used ⊢
  simp only [isEmpty_eq_false_iff, ne_eq, map_eq_nil_iff, filter_append,
    append_eq_nil_iff] at used ⊢
  exact fun both => used both.1

theorem recorded_of_none {entries : Register → Option StackAssignment} {reg : Register}
    (missing : entries reg = none) (assignment : StackAssignment) :
    recorded reg assignment entries = update entries reg (some assignment) := by
  unfold recorded
  rw [missing]

private theorem filter_taken (inside : done < count)
    (stored : isLocalArgument F count arg done = false) :
    ((List.range count).filter fun index =>
        decide (done ≤ index) || isLocalArgument F count arg index).Perm
      (done :: (List.range count).filter fun index =>
        decide (done + 1 ≤ index) || isLocalArgument F count arg index) := by
  refine (perm_ext_iff_of_nodup (nodup_range.filter _) ?_).mpr ?_
  · refine nodup_cons.mpr ⟨?_, nodup_range.filter _⟩
    simp [stored]
  · intro index
    simp only [mem_filter, mem_range, Bool.or_eq_true, decide_eq_true_eq, mem_cons]
    constructor
    · rintro ⟨bound, later | isLocal⟩
      · by_cases same : index = done
        · exact .inl same
        · exact .inr ⟨bound, .inl (by omega)⟩
      · exact .inr ⟨bound, .inr isLocal⟩
    · rintro (rfl | ⟨bound, later | isLocal⟩)
      · exact ⟨inside, .inl (Nat.le_refl _)⟩
      · exact ⟨bound, .inl (by omega)⟩
      · exact ⟨bound, .inr isLocal⟩

private theorem filter_kept (isLocal : isLocalArgument F count arg done = true) :
    ((List.range count).filter fun index =>
        decide (done + 1 ≤ index) || isLocalArgument F count arg index) =
      (List.range count).filter fun index =>
        decide (done ≤ index) || isLocalArgument F count arg index := by
  apply filter_congr
  intro index _
  by_cases same : index = done
  · subst same
    simp [isLocal]
  · have sameTest : decide (done + 1 ≤ index) = decide (done ≤ index) := by
      rw [decide_eq_decide]
      omega
    rw [sameTest]

theorem Taken.keep (taken : Taken F count arg done st front code) (inside : done < count)
    (distinct : ∀ left < count, ∀ right < count, arg left = arg right → left = right)
    (isLocal : isLocalArgument F count arg done = true) (first : InstrRef) :
    ∃ next, analyzeStackArg F first (argumentRef count arg done) st = some next ∧
      Taken F count arg (done + 1) next front code := by
  have reg : argRegister (argumentRef count arg done) = arg done := rfl
  refine ⟨insertAssignment (arg done) ⟨.L_STACK, 0⟩ st, ?_, ?_⟩
  · have stays : defIsLocal F (argumentRef count arg done) (arg done) = true := isLocal
    unfold analyzeStackArg
    simp only [reg]
    rw [if_neg (by rw [taken.used done inside]; decide), if_pos stays]
  · rw [insertAssignment_eq, recorded_of_none (taken.unassigned done inside (Nat.le_refl _))]
    have others : ∀ index < count, index ≠ done → update st.regAssignments (arg done)
        (some ⟨.L_STACK, 0⟩) (arg index) = st.regAssignments (arg index) := by
      intro index bound apart
      exact update_of_ne (fun same => apart (distinct _ bound _ inside same)) _ _
    refine ⟨taken.before, ?_, ?_, ?_, ?_, ?_, taken.used, taken.runs⟩
    · rw [filter_kept isLocal]
      exact taken.stack
    · rw [range_succ, filter_append, filter_cons_of_neg (by simp [isLocal]),
        filter_nil, append_nil]
      exact taken.slots
    · intro index bound stored
      have apart : index ≠ done := by
        rintro rfl
        rw [isLocal] at stored
        cases stored
      obtain ⟨slot, recordedAt, holds⟩ := taken.stored index (by omega) stored
      exact ⟨slot, (others index (by omega) apart).trans recordedAt, holds⟩
    · intro index bound keeps
      by_cases same : index = done
      · rw [same]
        exact update_self _ _ _
      · exact (others index (by omega) same).trans (taken.kept index (by omega) keeps)
    · intro index bound later
      exact (others index bound (by omega)).trans (taken.unassigned index bound (by omega))

private theorem execCode_store {Value World : Type}
    (sem : MachineInstr → List Value → World → Value × World) {depth : Nat} {reg : Register}
    {stack rest : List Register} (slot : Nat) (value : Register → Value) (base : List Value)
    (exchanged : Stacks.swapTop depth stack = some (reg :: rest)) (locals : Nat → Value)
    (world : World) :
    execCode sem ((if depth ≠ 0 then [.SWAP_r depth] else []) ++ [.pPUTLOCAL_r reg slot])
        ⟨stack.map value ++ base, locals, world⟩ =
      some ⟨rest.map value ++ base, update locals slot (value reg), world⟩ := by
  have onMapped : Stacks.swapTop depth (stack.map value) = some ((reg :: rest).map value) := by
    rw [Stacks.swapTop_map, exchanged]
    rfl
  have onValues : Stacks.swapTop depth (stack.map value ++ base) =
      some (value reg :: (rest.map value ++ base)) := Stacks.swapTop_append base onMapped
  unfold execCode
  by_cases deep : depth ≠ 0
  · rw [if_pos deep, List.cons_append, nil_append, Runs.run_cons, execOut, onValues]
    rfl
  · have zero : depth = 0 := by omega
    rw [if_neg deep, nil_append, Runs.run_cons]
    rw [zero] at onValues
    simp only [execOut, popValue]
    rw [show stack.map value ++ base = value reg :: (rest.map value ++ base) from
      Option.some.inj onValues]
    rfl

theorem Taken.store (taken : Taken F count arg done st front code) (inside : done < count)
    (distinct : ∀ left < count, ∀ right < count, arg left = arg right → left = right)
    (nonzero : ∀ index < count, arg index ≠ 0)
    (stored : isLocalArgument F count arg done = false) (first : InstrRef) :
    ∃ next more, analyzeStackArg F first (argumentRef count arg done) st = some next ∧
      Taken F count arg (done + 1) next front (code ++ more) := by
  have reg : argRegister (argumentRef count arg done) = arg done := rfl
  have notLocal : ¬defIsLocal F (argumentRef count arg done) (arg done) = true :=
    Bool.eq_false_iff.mp stored
  have full : 0 ∉ st.memoryAssignment := by
    rw [taken.slots]
    intro member
    obtain ⟨index, kept, isZero⟩ := List.mem_map.mp member
    have bound := mem_range.mp (mem_filter.mp kept).1
    exact nonzero index (by omega) isZero
  obtain ⟨size, allocated⟩ := allocateMemorySlot_full (arg done) full
  have onStack : st.stack.Perm (arg done :: ((List.range count).filter fun index =>
      decide (done + 1 ≤ index) || isLocalArgument F count arg index).map arg) :=
    taken.stack.trans ((filter_taken inside stored).map arg)
  obtain ⟨depth, found⟩ := Stacks.depthOf_isSome (onStack.mem_iff.mpr mem_cons_self)
  obtain ⟨swapped, exchanged⟩ := Stacks.swapTop_isSome (Stacks.depthOf_lt found)
  have onTop := Stacks.swapTop_getElem? exchanged 0
  rw [if_pos rfl, (Stacks.depthOf_eq_some found).1] at onTop
  obtain ⟨rest, rfl⟩ : ∃ rest, swapped = arg done :: rest := by
    cases swapped with
    | nil => cases onTop
    | cons top rest => exact ⟨rest, by rw [Option.some.inj onTop]⟩
  have left : rest.Perm (((List.range count).filter fun index =>
      decide (done + 1 ≤ index) || isLocalArgument F count arg index).map arg) :=
    ((Stacks.swapTop_perm exchanged).trans onStack).cons_inv
  let exchange : List OutInstr := if depth ≠ 0 then [.SWAP_r depth] else []
  refine ⟨{ st with
    regAssignments := update st.regAssignments (arg done)
      (some ⟨.NONSTACK, st.memoryAssignment.length⟩)
    memoryAssignment := st.memoryAssignment ++ [arg done]
    memoryFrameSize := size
    MRI := { st.MRI with uses := st.MRI.uses ++ [(arg done, first.slotBefore.getRegSlot)] }
    before := st.before ++ (exchange ++ [.pPUTLOCAL_r (arg done) st.memoryAssignment.length])
    stack := rest }, exchange ++ [.pPUTLOCAL_r (arg done) st.memoryAssignment.length], ?_, ?_⟩
  · unfold analyzeStackArg
    simp only [reg]
    rw [if_neg (by rw [taken.used done inside]; decide), if_neg notLocal, allocated]
    simp only [insertAssignment_eq,
      recorded_of_none (taken.unassigned done inside (Nat.le_refl _)), findRegDepth, found,
      Option.bind_eq_bind, Option.bind_some]
    by_cases deep : depth ≠ 0
    · simp only [exchange, if_pos deep, insertSwapBefore, exchanged, Option.map_some,
        Option.bind_some, insertStoreToMemoryBefore, pop, List.append_assoc]
    · have zero : depth = 0 := by omega
      have same : st.stack = arg done :: rest := by
        rw [zero] at exchanged
        exact Option.some.inj exchanged
      simp only [exchange, if_neg deep, insertStoreToMemoryBefore, pop, same, nil_append]
  · have others : ∀ index < count, index ≠ done → update st.regAssignments (arg done)
        (some ⟨.NONSTACK, st.memoryAssignment.length⟩) (arg index) =
          st.regAssignments (arg index) := by
      intro index bound apart
      exact update_of_ne (fun same => apart (distinct _ bound _ inside same)) _ _
    refine ⟨?_, left, ?_, ?_, ?_, ?_, ?_, ?_⟩
    · simp only [taken.before, List.append_assoc]
    · rw [range_succ, filter_append, filter_cons_of_pos (by simp [stored]),
        filter_nil, map_append, ← taken.slots]
      rfl
    · intro index bound isStored
      by_cases same : index = done
      · refine ⟨st.memoryAssignment.length, ?_, ?_⟩
        · rw [same]
          exact update_self _ _ _
        · rw [same]
          exact getElem?_concat_length
      · obtain ⟨slot, recordedAt, holds⟩ := taken.stored index (by omega) isStored
        refine ⟨slot, (others index (by omega) same).trans recordedAt, ?_⟩
        rw [getElem?_append_left (List.getElem?_eq_some_iff.mp holds).1]
        exact holds
    · intro index bound keeps
      have apart : index ≠ done := by
        rintro rfl
        rw [stored] at keeps
        cases keeps
      exact (others index (by omega) apart).trans (taken.kept index (by omega) keeps)
    · intro index bound later
      exact (others index bound (by omega)).trans (taken.unassigned index bound (by omega))
    · intro index bound
      exact useEmpty_append (taken.used index bound) _
    · intro Value World sem value base locals world
      obtain ⟨after, executed, holds⟩ := taken.runs sem value base locals world
      refine ⟨update after st.memoryAssignment.length (value (arg done)), ?_, ?_⟩
      · have next := execCode_store sem st.memoryAssignment.length value base exchanged after world
        unfold execCode at executed next ⊢
        rw [Runs.run_append, executed]
        exact next
      · intro slot register occupied
        by_cases last : slot = st.memoryAssignment.length
        · rw [last, getElem?_concat_length] at occupied
          rw [last, update_self, Option.some.inj occupied]
        · have within : slot < st.memoryAssignment.length := by
            have bound := (List.getElem?_eq_some_iff.mp occupied).1
            rw [length_append, length_singleton] at bound
            omega
          rw [getElem?_append_left within] at occupied
          rw [update_of_ne last]
          exact holds slot register occupied

theorem Taken.run (taken : Taken F count arg done st front code)
    (distinct : ∀ left < count, ∀ right < count, arg left = arg right → left = right)
    (nonzero : ∀ index < count, arg index ≠ 0) (first : InstrRef) (left : Nat)
    (all : done + left = count) :
    ∃ next more, Runs.run (analyzeStackArg F first)
        ((List.range' done left).map (argumentRef count arg)) st = some next ∧
      Taken F count arg count next front (code ++ more) := by
  induction left generalizing done st code with
  | zero =>
      rw [Nat.add_zero] at all
      subst all
      exact ⟨st, [], rfl, by rw [append_nil]; exact taken⟩
  | succ left ih =>
      have inside : done < count := by omega
      obtain ⟨middle, more, stepped, grown⟩ : ∃ middle more,
          analyzeStackArg F first (argumentRef count arg done) st = some middle ∧
            Taken F count arg (done + 1) middle front (code ++ more) := by
        cases isLocal : isLocalArgument F count arg done with
        | true =>
            obtain ⟨middle, stepped, grown⟩ := taken.keep inside distinct isLocal first
            exact ⟨middle, [], stepped, by rw [append_nil]; exact grown⟩
        | false => exact taken.store inside distinct nonzero isLocal first
      obtain ⟨next, later, ran, final⟩ := ih grown (by omega)
      refine ⟨next, more ++ later, ?_, by rw [← List.append_assoc]; exact final⟩
      rw [range'_succ, map_cons, Runs.run_cons, stepped]
      exact ran

end Steps

section Prologue

variable {F : MachineFunction} {st : EVMStackAlloc} {count : Nat} {arg : Nat → Register}
  {rest : List MachineInstr}

theorem AtArguments.start (given : AtArguments F st count arg rest) :
    Taken F count arg 0 (openBlock F 0 st)
      (st.before ++ (EVMStackAlloc.stackArgs F 0).map .original) [] := by
  have stack : (openBlock F 0 st).stack = (List.range count).map arg := by
    unfold openBlock
    rw [given.stackArgs, ← map_reverse, reverse_reverse, List.map_map]
    rfl
  have everything : ((List.range count).filter fun index =>
      decide (0 ≤ index) || isLocalArgument F count arg index) = List.range count := by
    rw [filter_eq_self]
    intro index _
    simp
  refine ⟨by simp [openBlock], ?_, given.empty, ?_, ?_, ?_, given.used, ?_⟩
  · rw [everything, stack]
  · intro index absurd
    cases absurd
  · intro index absurd
    cases absurd
  · intro index bound _
    exact given.unassigned index bound
  · intro Value World sem value base locals world
    refine ⟨locals, ?_, ?_⟩
    · rw [stack, List.map_map]
      rfl
    · intro slot reg occupied
      have empty : (openBlock F 0 st).memoryAssignment = [] := given.empty
      rw [empty] at occupied
      cases occupied

/-- The arguments are taken from the stack exactly if some instruction follows
their markers: the code is inserted before that instruction. -/
theorem takesArgumentsFromStack_iff (given : AtArguments F st count arg rest) :
    TakesArgumentsFromStack F st count arg ↔ rest ≠ [] := by
  constructor
  · rintro ⟨next, _, done, _⟩ none
    unfold tryToAnalyzeStackArgs at done
    rw [given.bodyRefs_eq_nil_iff.mpr none] at done
    cases done
  · intro some
    have nonzero : ∀ index < count, arg index ≠ 0 := fun index inside => given.nonzero inside
    cases body : bodyRefs F 0 with
    | nil => exact absurd (given.bodyRefs_eq_nil_iff.mp body) some
    | cons first others =>
        obtain ⟨next, inserted, ran, taken⟩ :=
          given.start.run given.distinct nonzero first count (Nat.zero_add count)
        rw [nil_append] at taken
        have locals : ∀ index < count, isLocalArgument F count arg index = true ∨
            isLocalArgument F count arg index = false := by
          intro index _
          cases isLocalArgument F count arg index
          · exact .inr rfl
          · exact .inl rfl
        have slotOf : ∀ index < count, ∀ slot,
            next.regAssignments (arg index) = Option.some ⟨.NONSTACK, slot⟩ →
              next.memoryAssignment[slot]? = Option.some (arg index) := by
          intro index inside slot isRecorded
          rcases locals index inside with isLocal | stored
          · rw [taken.kept index inside isLocal] at isRecorded
            cases isRecorded
          · obtain ⟨known, recordedAt, holds⟩ := taken.stored index inside stored
            rw [recordedAt] at isRecorded
            cases isRecorded
            exact holds
        refine ⟨next, inserted, ?_, taken.before, ?_, ?_, ?_, ?_, ?_⟩
        · unfold tryToAnalyzeStackArgs
          rw [body]
          simp only
          rw [given.stackArgs, reverse_reverse, range_eq_range']
          exact ran
        · refine taken.stack.nodup_iff.mpr ((nodup_range.filter _).map_on ?_)
          intro left inLeft right inRight same
          exact given.distinct left (mem_range.mp (mem_filter.mp inLeft).1) right
            (mem_range.mp (mem_filter.mp inRight).1) same
        · intro reg
          rw [taken.stack.mem_iff]
          simp only [List.mem_map, mem_filter, mem_range, Bool.or_eq_true,
            decide_eq_true_eq]
          constructor
          · rintro ⟨index, ⟨bound, late | isLocal⟩, rfl⟩
            · omega
            · exact ⟨index, bound, isLocal, rfl⟩
          · rintro ⟨index, bound, isLocal, rfl⟩
            exact ⟨index, ⟨bound, .inr isLocal⟩, rfl⟩
        · intro index inside stored
          obtain ⟨slot, recordedAt, _⟩ := taken.stored index inside stored
          exact ⟨slot, recordedAt⟩
        · intro left inLeft right inRight slot atLeft atRight
          have holdsLeft := slotOf left inLeft slot atLeft
          rw [slotOf right inRight slot atRight] at holdsLeft
          exact given.distinct left inLeft right inRight (Option.some.inj holdsLeft).symm
        · intro Value World sem value base before world
          obtain ⟨after, executed, holds⟩ := taken.runs sem value base before world
          refine ⟨after, executed, ?_⟩
          intro index inside slot isRecorded
          exact holds slot (arg index) (slotOf index inside slot isRecorded)

/-- Two arguments: the first is read in the entry block only, the second one in
the block behind it. -/
def twoArguments : MachineFunction where
  blocks := [
    ⟨[stackArg 2 1, stackArg 1 0, ⟨.inst 0x55, none, [.reg 1, .reg 1]⟩,
      ⟨.inst 0x52, none, [.reg 1, .reg 1]⟩], [1], []⟩,
    ⟨[⟨.inst 0x55, none, [.reg 2, .reg 2]⟩], [], [0]⟩]
  getInterval := fun reg =>
    if reg = 1 then ⟨[(⟨0, 5, 2⟩, ⟨0, 11, 2⟩)], cons_ne_nil _ _⟩
    else ⟨[(⟨0, 2, 2⟩, ⟨1, 2, 2⟩)], cons_ne_nil _ _⟩
  hasEntry := cons_ne_nil _ _
  edges := rfl
  nonzero := rfl

theorem twoArguments_taken :
    isLocalArgument twoArguments 2 (· + 1) 0 = true ∧
      isLocalArgument twoArguments 2 (· + 1) 1 = false ∧
      TakesArgumentsFromStack twoArguments { fresh with MRI := twoArguments.regInfo } 2 (· + 1) := by
  refine ⟨by decide, by decide, (takesArgumentsFromStack_iff
    ⟨rfl, ?_, ?_, by decide, fun _ _ => rfl, rfl⟩).mpr (cons_ne_nil _ _)⟩
  · intro instr isFirst
    cases isFirst
    decide
  · intro left _ right _ same
    exact Nat.succ.inj same

/-- One argument that is read behind an entry block with nothing but its marker. -/
def lonelyArgument : MachineFunction where
  blocks := [⟨[stackArg 1 0], [1], []⟩, ⟨[⟨.inst 0x55, none, [.reg 1, .reg 1]⟩], [], [0]⟩]
  getInterval := fun _ => ⟨[(⟨0, 2, 2⟩, ⟨1, 2, 2⟩)], cons_ne_nil _ _⟩
  hasEntry := cons_ne_nil _ _
  edges := rfl
  nonzero := rfl

theorem lonelyArgument_not_taken :
    AtArguments lonelyArgument { fresh with MRI := lonelyArgument.regInfo } 1 (· + 1) [] ∧
      ¬TakesArgumentsFromStack lonelyArgument { fresh with MRI := lonelyArgument.regInfo } 1
        (· + 1) := by
  constructor
  · refine ⟨rfl, fun _ absent => (by cases absent), ?_, by decide, fun _ _ => rfl, rfl⟩
    intro left _ right _ same
    exact Nat.succ.inj same
  · rintro ⟨next, _, done, _⟩
    cases done

end Prologue

end EvmBackend.EVMStackAlloc
