/-
When an analysed branch can be put back. Removing and inserting work for every
block the analysis accepts; what can go wrong is the analysis itself, which
without permission to modify the block lets later jumps overwrite the first one.
-/

import EvmBackend.Branches
import Mathlib.Data.List.TakeWhile

namespace EvmBackend.Branches

open List Option

/-- The last jump without a condition. A conditional jump starts over: behind it
only its own false destination or the next block counts. -/
def lastTarget (layoutSuccessor : Option Nat) : Option Nat → List BlockInstr → Option Nat
  | known, [] => known
  | _, .pJUMPTO_r target :: rest => lastTarget layoutSuccessor target rest
  | _, .pJUMPIF_r _ _ :: rest => lastTarget layoutSuccessor layoutSuccessor rest
  | known, _ :: rest => lastTarget layoutSuccessor known rest

def hasTarget : BlockInstr → Bool
  | .pJUMPTO_r target => target.isSome
  | .pJUMPIF_r _ target => target.isSome
  | _ => false

def isConditional : BlockInstr → Bool
  | .pJUMPIF_r _ _ => true
  | _ => false

/-- Only jumps to blocks, at most one of them conditional. -/
def Understood (instrs : List BlockInstr) : Prop :=
  (∀ instr ∈ instrs, hasTarget instr = true) ∧ instrs.countP isConditional ≤ 1

/-- Whatever stands behind the first unconditional jump leads where it leads. -/
def DeadJumpsAgree (layoutSuccessor : Option Nat) (instrs : List BlockInstr) : Prop :=
  ∀ before target after, instrs = before ++ .pJUMPTO_r (some target) :: after →
    (∀ other, .pJUMPTO_r other ∉ before) →
      (∀ condition other, .pJUMPIF_r condition other ∈ after → other = some target) ∧
        lastTarget layoutSuccessor (some target) after = some target

def body (block : List BlockInstr) : List BlockInstr := block.take (getFirstTerminator block)

/-- Nothing at the end of these instructions is a terminator, so terminators
appended to them are found again. -/
def EndsPlainly (instrs : List BlockInstr) : Prop :=
  ∀ instr ∈ trailing instrs, instr.isTerminator = false

def isTrailing (instr : BlockInstr) : Bool := instr.isTerminator || instr.isDebugInstr

variable {front instrs kept jumps : List BlockInstr} {state last : AnalysisState} {target : Nat}

theorem trailing_append {run : List BlockInstr} (inRun : ∀ instr ∈ run, isTrailing instr = true) :
    trailing (front ++ run) = trailing front ++ run := by
  unfold trailing
  rw [List.reverse_append, takeWhile_append_of_pos, List.reverse_append, reverse_reverse]
  intro instr member
  exact inRun instr (mem_reverse.mp member)

theorem terminators_append (plain : EndsPlainly front)
    (terminate : ∀ instr ∈ jumps, instr.isTerminator = true) :
    terminators (front ++ jumps) = jumps := by
  unfold terminators
  have inRun : ∀ instr ∈ jumps, isTrailing instr = true := fun instr member => by
    rw [isTrailing, terminate instr member, Bool.true_or]
  rw [trailing_append inRun, dropWhile_append_of_pos]
  · cases jumps with
    | nil => rfl
    | cons first rest =>
        rw [dropWhile_cons_of_neg]
        rw [terminate first mem_cons_self]
        decide
  · intro instr member
    rw [plain instr member]
    rfl

/-- A block is what the walk back from its end stops at, the debug instructions
in front of the first terminator, and the terminators. -/
theorem block_parts (block : List BlockInstr) :
    ∃ front debugs, block = front ++ debugs ++ terminators block ∧ trailing front = [] ∧
      (∀ instr ∈ debugs, isTrailing instr = true ∧ instr.isTerminator = false) := by
  let front := (block.reverse.dropWhile isTrailing).reverse
  let debugs := (trailing block).takeWhile fun instr => !instr.isTerminator
  have whole : front ++ trailing block = block := by
    have back : block.reverse.takeWhile isTrailing ++ block.reverse.dropWhile isTrailing =
        block.reverse := takeWhile_append_dropWhile
    have reversed := congrArg List.reverse back
    rw [List.reverse_append, reverse_reverse] at reversed
    exact reversed
  have parts : debugs ++ terminators block = trailing block := takeWhile_append_dropWhile
  refine ⟨front, debugs, ?_, ?_, ?_⟩
  · rw [List.append_assoc, parts, whole]
  · change (front.reverse.takeWhile isTrailing).reverse = []
    rw [reverse_eq_nil_iff, reverse_reverse]
    cases stopped : block.reverse.dropWhile isTrailing with
    | nil => rfl
    | cons first rest =>
        have headIs := head_dropWhile_not isTrailing (l := block.reverse)
          (by rw [stopped]; exact cons_ne_nil _ _)
        simp only [stopped, head_cons] at headIs
        rw [takeWhile_cons_of_neg (by rw [headIs]; decide)]
  · intro instr member
    have inTrailing : instr ∈ trailing block := (takeWhile_sublist _).subset member
    constructor
    · exact mem_takeWhile_imp (mem_reverse.mp inTrailing)
    · simpa using mem_takeWhile_imp member

theorem body_eq {block : List BlockInstr} (whole : block = front ++ terminators block) :
    body block = front := by
  have lengths : getFirstTerminator block = front.length := by
    unfold getFirstTerminator
    have total := congrArg List.length whole
    rw [length_append] at total
    omega
  unfold body
  rw [lengths]
  conv_lhs => rw [whole]
  exact take_left

theorem body_endsPlainly (block : List BlockInstr) : EndsPlainly (body block) := by
  obtain ⟨front, debugs, whole, stops, plain⟩ := block_parts block
  intro instr member
  rw [body_eq whole, trailing_append fun instr member => (plain instr member).1, stops,
    nil_append] at member
  exact (plain instr member).2

theorem isTerminator_of_isJump {instr : BlockInstr} (jump : instr.isJump = true) :
    instr.isTerminator = true := by
  cases instr with
  | pJUMPTO_r | pJUMPIF_r | terminator => rfl
  | debugInstr | inst => cases jump

section

variable (plain : EndsPlainly front)

include plain

theorem terminators_of_jumps
    (allJumps : ∀ instr ∈ jumps, instr.isJump = true) : terminators (front ++ jumps) = jumps :=
  terminators_append plain fun instr member => isTerminator_of_isJump (allJumps instr member)

theorem terminators_of_plain : terminators front = [] := by
  have nothing : ∀ instr ∈ ([] : List BlockInstr), instr.isTerminator = true :=
    fun _ absent => by cases absent
  have none := terminators_append plain nothing
  rw [append_nil] at none
  exact none

private theorem eraseFirstJump_cons {first : BlockInstr}
    (allJumps : ∀ instr ∈ first :: jumps, instr.isJump = true) :
    eraseFirstJump (front ++ first :: jumps) = some (front ++ jumps) := by
  have found := terminators_of_jumps plain allJumps
  have place : getFirstTerminator (front ++ first :: jumps) = front.length := by
    unfold getFirstTerminator
    rw [found, length_append, Nat.add_sub_cancel]
  have atFirst : (first :: jumps).findIdx? BlockInstr.isJump = some 0 := by
    rw [findIdx?_cons, if_pos (allJumps first mem_cons_self)]
  unfold eraseFirstJump
  rw [found, place, atFirst, map_some, Nat.add_zero,
    eraseIdx_append_of_length_le (Nat.le_refl _), Nat.sub_self, eraseIdx_cons_zero]

theorem removeLoop_jumps (jumps : List BlockInstr)
    (allJumps : ∀ instr ∈ jumps, instr.isJump = true) (passes Count : Nat)
    (enough : jumps.length ≤ passes) :
    removeLoop passes (front ++ jumps) Count = (front, Count + jumps.length) := by
  induction jumps generalizing passes Count with
  | nil =>
      have stays : eraseFirstJump front = none := by
        unfold eraseFirstJump
        rw [terminators_of_plain plain]
        rfl
      rw [append_nil]
      cases passes with
      | zero => rfl
      | succ passes => simp only [removeLoop, stays, length_nil, Nat.add_zero]
  | cons first rest ih =>
      obtain ⟨passes, rfl⟩ : ∃ fewer, passes = fewer + 1 :=
        ⟨passes - 1, by simp only [length_cons] at enough; omega⟩
      simp only [removeLoop, eraseFirstJump_cons plain allJumps]
      rw [ih (fun instr member => allJumps instr (mem_cons_of_mem first member)) passes
        (Count + 1) (by simp only [length_cons] at enough; omega)]
      simp only [length_cons, Prod.mk.injEq, true_and]
      omega

theorem removeBranch_jumps
    (allJumps : ∀ instr ∈ jumps, instr.isJump = true) :
    removeBranch (front ++ jumps) = (front, jumps.length) := by
  unfold removeBranch
  rw [removeLoop_jumps plain jumps allJumps _ _ (by rw [length_append]; omega), Nat.zero_add]

end

/-- Either no conditional jump was seen and only one destination is known, or
the condition is complete. -/
def Consistent (state : AnalysisState) : Prop :=
  (state.HaveCond = false ∧ state.Cond = [] ∧ state.FBB = none) ∨
    (state.HaveCond = true ∧ ∃ condition target,
      state.Cond = [.imm 1, condition] ∧ state.TBB = some target)

theorem Consistent.jumpTo (consistent : Consistent state) (TMBB : Nat) :
    Consistent (state.jumpTo TMBB) := by
  unfold AnalysisState.jumpTo
  rcases consistent with ⟨without, empty, single⟩ | ⟨present, condition, target, cond, known⟩
  · rw [if_neg (by rw [without]; decide)]
    exact .inl ⟨without, empty, single⟩
  · rw [if_pos present]
    exact .inr ⟨present, condition, target, cond, known⟩

theorem Consistent.jumpIf (consistent : Consistent state) (first : state.HaveCond = false)
    (condition : MachineOperand) (jumpTarget : Nat) :
    Consistent (state.jumpIf condition jumpTarget) := by
  rcases consistent with ⟨_, empty, _⟩ | ⟨present, _⟩
  · refine .inr ⟨rfl, condition, jumpTarget, ?_, rfl⟩
    simp only [AnalysisState.jumpIf, empty, nil_append]
  · rw [first] at present
    cases present

theorem analyzeLoop_consistent {AllowModify : Bool}
    (done : analyzeLoop AllowModify instrs state = some (last, kept)) (start : Consistent state) :
    Consistent last ∧ ∀ instr ∈ kept, instr.isJump = true := by
  induction instrs generalizing state last kept with
  | nil =>
      cases done
      exact ⟨start, fun _ absent => by cases absent⟩
  | cons MI rest ih =>
      unfold analyzeLoop at done
      split at done
      · exact ih done start
      · split at done
        · obtain ⟨⟨later, others⟩, looped, same⟩ := map_eq_some_iff.mp done
          cases same
          obtain ⟨consistent, jumps⟩ := ih looped (start.jumpTo _)
          exact ⟨consistent, forall_mem_cons.mpr ⟨rfl, jumps⟩⟩
        · split at done
          · cases done
          · rename_i first
            obtain ⟨⟨later, others⟩, looped, same⟩ := map_eq_some_iff.mp done
            cases same
            obtain ⟨consistent, jumps⟩ :=
              ih looped (start.jumpIf (Bool.of_not_eq_true first) _ _)
            exact ⟨consistent, forall_mem_cons.mpr ⟨rfl, jumps⟩⟩
        · cases done

def planned (layoutSuccessor : Option Nat) (value : MachineOperand → Nat)
    (branch : AnalyzedBranch) : Control :=
  match branch.Cond with
  | [_, condition] =>
      if value condition = 0 then .fallThrough (branch.FBB.or layoutSuccessor)
      else .fallThrough branch.TBB
  | _ => .fallThrough (branch.TBB.or layoutSuccessor)

theorem rewriteBranch_consistent (consistent : Consistent state) (front : List BlockInstr)
    (layoutSuccessor : Option Nat) :
    ∃ jumps, rewriteBranch front state.toAnalyzedBranch = some (front ++ jumps, jumps.length) ∧
      (∀ instr ∈ jumps, instr.isJump = true) ∧
      ∀ value, follow layoutSuccessor value jumps =
        planned layoutSuccessor value state.toAnalyzedBranch := by
  obtain ⟨⟨TBB, FBB, Cond⟩, HaveCond, lastJump⟩ := state
  rcases consistent with ⟨_, empty, single⟩ | ⟨_, condition, target, cond, known⟩
  · cases empty
    cases single
    cases TBB with
    | none => exact ⟨[], by simp [rewriteBranch], by simp, fun _ => rfl⟩
    | some target =>
        exact ⟨[.pJUMPTO_r (some target)], by simp [rewriteBranch, insertBranch],
          by simp [BlockInstr.isJump], fun _ => rfl⟩
  · cases cond
    cases known
    cases FBB with
    | none =>
        exact ⟨[.pJUMPIF_r condition (some target)], by simp [rewriteBranch, insertBranch],
          by simp [BlockInstr.isJump], fun _ => rfl⟩
    | some other =>
        exact ⟨[.pJUMPIF_r condition (some target), .pJUMPTO_r (some other)],
          by simp [rewriteBranch, insertBranch], by simp [BlockInstr.isJump], fun _ => rfl⟩

/-- Removing and inserting are always right about an accepted block, so the round
trip depends on the analysis alone. -/
theorem roundTrip_iff_planned (AllowModify : Bool) (layoutSuccessor : Option Nat)
    (block : List BlockInstr) :
    RoundTrip AllowModify layoutSuccessor block ↔
      ∀ last kept, analyzeLoop AllowModify (terminators block) initialState = some (last, kept) →
        ∀ value, planned layoutSuccessor value last.toAnalyzedBranch =
          follow layoutSuccessor value (terminators block) := by
  have plain := body_endsPlainly block
  have start : Consistent initialState := .inl ⟨rfl, rfl, rfl⟩
  constructor
  · intro trip last kept looped value
    have analyzed : analyzeBranch AllowModify block =
        some (last.toAnalyzedBranch, body block ++ kept) := by
      unfold analyzeBranch
      rw [looped]
      rfl
    obtain ⟨consistent, allKept⟩ := analyzeLoop_consistent looped start
    obtain ⟨jumps, rewritten, allJumps, followed⟩ :=
      rewriteBranch_consistent consistent (body block) layoutSuccessor
    obtain ⟨inserted, added, again, _, _, same⟩ := trip _ _ analyzed
    rw [removeBranch_jumps plain allKept, rewritten] at again
    cases again
    have goes := same value
    unfold transfer at goes
    rw [terminators_of_jumps plain allJumps, followed value] at goes
    exact goes
  · intro agrees branch analyzed done
    obtain ⟨⟨last, kept⟩, looped, same⟩ := map_eq_some_iff.mp done
    cases same
    obtain ⟨consistent, allKept⟩ := analyzeLoop_consistent looped start
    obtain ⟨jumps, rewritten, allJumps, followed⟩ :=
      rewriteBranch_consistent consistent (body block) layoutSuccessor
    have removed : removeBranch (block.take (getFirstTerminator block) ++ kept) =
        (body block, kept.length) := removeBranch_jumps plain allKept
    have keptFound : terminators (block.take (getFirstTerminator block) ++ kept) = kept :=
      terminators_of_jumps plain allKept
    rw [removed]
    refine ⟨body block ++ jumps, jumps.length, rewritten, ?_, ?_, ?_⟩
    · rw [keptFound, terminators_of_plain plain]
      simp
    · rw [terminators_of_jumps plain allJumps, terminators_of_plain plain]
      simp
    · intro value
      unfold transfer
      rw [terminators_of_jumps plain allJumps, followed value]
      exact agrees last kept looped value

section Modifying

private theorem analyzeLoop_erases (jumped : state.lastJump = true) (instrs : List BlockInstr) :
    analyzeLoop true instrs state = some (state, []) := by
  induction instrs with
  | nil => rfl
  | cons MI rest ih =>
      unfold analyzeLoop
      rw [if_pos (by rw [jumped]; rfl)]
      exact ih

/-- With permission to modify, everything behind the first unconditional jump is
erased and the analysis is right about the rest. -/
theorem planned_of_allowModify (looped : analyzeLoop true instrs initialState = some (last, kept))
    (layoutSuccessor : Option Nat) (value : MachineOperand → Nat) :
    planned layoutSuccessor value last.toAnalyzedBranch = follow layoutSuccessor value instrs := by
  cases instrs with
  | nil =>
      cases looped
      rfl
  | cons first rest =>
      cases first with
      | pJUMPTO_r target =>
          cases target with
          | none => cases looped
          | some target =>
              have erased : analyzeLoop true rest (initialState.jumpTo target) =
                  some (initialState.jumpTo target, []) := analyzeLoop_erases rfl rest
              change (analyzeLoop true rest (initialState.jumpTo target)).map _ = _ at looped
              rw [erased] at looped
              cases looped
              rfl
      | pJUMPIF_r condition target =>
          cases target with
          | none => cases looped
          | some target =>
              change (analyzeLoop true rest (initialState.jumpIf condition target)).map _ = _
                at looped
              cases rest with
              | nil =>
                  cases looped
                  rfl
              | cons second rest =>
                  cases second with
                  | pJUMPTO_r other =>
                      cases other with
                      | none => cases looped
                      | some other =>
                          have erased : analyzeLoop true rest
                              ((initialState.jumpIf condition target).jumpTo other) =
                                some ((initialState.jumpIf condition target).jumpTo other, []) :=
                            analyzeLoop_erases rfl rest
                          change Option.map _ ((analyzeLoop true rest
                            ((initialState.jumpIf condition target).jumpTo other)).map _) = _
                            at looped
                          rw [erased] at looped
                          cases looped
                          rfl
                  | pJUMPIF_r => cases ‹Option Nat› <;> cases looped
                  | terminator | debugInstr | inst => cases looped
      | terminator | debugInstr | inst => cases looped

end Modifying

section Reading

private theorem analyzeLoop_jumpTo (state : AnalysisState) (target : Nat)
    (rest : List BlockInstr) :
    analyzeLoop false (.pJUMPTO_r (some target) :: rest) state =
      (analyzeLoop false rest (state.jumpTo target)).map
        fun result => (result.1, .pJUMPTO_r (some target) :: result.2) := rfl

private theorem analyzeLoop_jumpIf (without : state.HaveCond = false) (condition : MachineOperand)
    (target : Nat) (rest : List BlockInstr) :
    analyzeLoop false (.pJUMPIF_r condition (some target) :: rest) state =
      (analyzeLoop false rest (state.jumpIf condition target)).map
        fun result => (result.1, .pJUMPIF_r condition (some target) :: result.2) := by
  rw [analyzeLoop.eq_def]
  simp only [Bool.false_and, Bool.false_eq_true, if_false, without]

theorem analyzeLoop_isSome_iff (instrs : List BlockInstr) (state : AnalysisState) :
    (analyzeLoop false instrs state).isSome = true ↔
      (∀ instr ∈ instrs, hasTarget instr = true) ∧
        instrs.countP isConditional + state.HaveCond.toNat ≤ 1 := by
  induction instrs generalizing state with
  | nil =>
      cases state.HaveCond <;> simp [analyzeLoop]
  | cons first rest ih =>
      cases first with
      | pJUMPTO_r target =>
          cases target with
          | none => simp [analyzeLoop, hasTarget]
          | some target =>
              have same : (state.jumpTo target).HaveCond = state.HaveCond := by
                unfold AnalysisState.jumpTo
                split <;> rfl
              rw [analyzeLoop_jumpTo, isSome_map, ih, same]
              simp [hasTarget, isConditional]
      | pJUMPIF_r condition target =>
          cases target with
          | none => simp [analyzeLoop, hasTarget]
          | some target =>
              cases without : state.HaveCond with
              | true =>
                  simp [analyzeLoop, without, isConditional]
              | false =>
                  have seen : (state.jumpIf condition target).HaveCond = true := rfl
                  rw [analyzeLoop_jumpIf without, isSome_map, ih, seen, forall_mem_cons,
                    countP_cons_of_pos rfl]
                  simp only [hasTarget, isSome_some, true_and, Bool.toNat_true,
                    Bool.toNat_false, Nat.add_zero]
      | terminator | debugInstr | inst => simp [analyzeLoop, hasTarget]

theorem understood_iff (instrs : List BlockInstr) :
    Understood instrs ↔ (analyzeLoop false instrs initialState).isSome = true := by
  rw [analyzeLoop_isSome_iff]
  rfl

theorem analyzeLoop_after_condition (looped : analyzeLoop false instrs state = some (last, kept))
    (seen : state.HaveCond = true) (layoutSuccessor : Option Nat) :
    last.TBB = state.TBB ∧ last.Cond = state.Cond ∧
      last.FBB.or layoutSuccessor =
        lastTarget layoutSuccessor (state.FBB.or layoutSuccessor) instrs ∧
      ∀ condition target, .pJUMPIF_r condition target ∉ instrs := by
  induction instrs generalizing state last kept with
  | nil =>
      cases looped
      exact ⟨rfl, rfl, rfl, fun _ _ absent => by cases absent⟩
  | cons first rest ih =>
      cases first with
      | pJUMPTO_r target =>
          cases target with
          | none => cases looped
          | some target =>
              rw [analyzeLoop_jumpTo] at looped
              obtain ⟨⟨later, others⟩, deeper, same⟩ := map_eq_some_iff.mp looped
              cases same
              have jumped : state.jumpTo target =
                  { state with FBB := some target, lastJump := true } := if_pos seen
              rw [jumped] at deeper
              obtain ⟨sameTBB, sameCond, lastFBB, noCondition⟩ := ih deeper seen
              refine ⟨sameTBB, sameCond, lastFBB, ?_⟩
              intro condition other member
              rcases mem_cons.mp member with isFirst | inRest
              · cases isFirst
              · exact noCondition condition other inRest
      | pJUMPIF_r condition target =>
          cases target with
          | none => cases looped
          | some target => simp [analyzeLoop, seen] at looped
      | terminator | debugInstr | inst => cases looped

private theorem fallThrough_eq_block_iff {next : Option Nat} :
    Control.fallThrough next = .block target ↔ next = some target := by
  cases next with
  | none | some => simp [Control.fallThrough]

private theorem planned_conditional_iff {branch : AnalyzedBranch} {flag condition : MachineOperand}
    (cond : branch.Cond = [flag, condition]) (layoutSuccessor : Option Nat) (target : Nat) :
    (∀ value, planned layoutSuccessor value branch = .block target) ↔
      branch.TBB = some target ∧ branch.FBB.or layoutSuccessor = some target := by
  simp only [planned, cond]
  constructor
  · intro always
    have zero := always fun _ => 0
    have one := always fun _ => 1
    rw [if_pos rfl, fallThrough_eq_block_iff] at zero
    rw [if_neg Nat.one_ne_zero, fallThrough_eq_block_iff] at one
    exact ⟨one, zero⟩
  · rintro ⟨onTrue, onFalse⟩ value
    split
    · exact fallThrough_eq_block_iff.mpr onFalse
    · exact fallThrough_eq_block_iff.mpr onTrue

/-- Once a destination is known without a condition, the analysis ends with the
plan to go to one block exactly if all later jumps count for that block. -/
theorem analyzeLoop_before_condition (looped : analyzeLoop false instrs state = some (last, kept))
    {known : Nat} (without : state.HaveCond = false) (empty : state.Cond = [])
    (single : state.FBB = none) (knows : state.TBB = some known) (layoutSuccessor : Option Nat)
    (target : Nat) :
    (∀ value, planned layoutSuccessor value last.toAnalyzedBranch = .block target) ↔
      (∀ condition other, .pJUMPIF_r condition other ∈ instrs → other = some target) ∧
        lastTarget layoutSuccessor (some known) instrs = some target := by
  induction instrs generalizing state last kept known with
  | nil =>
      cases looped
      simp [planned, empty, knows, fallThrough_eq_block_iff, lastTarget]
  | cons first rest ih =>
      cases first with
      | pJUMPTO_r other =>
          cases other with
          | none => cases looped
          | some other =>
              rw [analyzeLoop_jumpTo] at looped
              obtain ⟨⟨later, others⟩, deeper, same⟩ := map_eq_some_iff.mp looped
              cases same
              have jumped : state.jumpTo other =
                  { state with TBB := some other, lastJump := true } :=
                if_neg (by rw [without]; decide)
              rw [jumped] at deeper
              rw [ih deeper without empty single rfl]
              simp [lastTarget]
      | pJUMPIF_r condition other =>
          cases other with
          | none => cases looped
          | some other =>
              rw [analyzeLoop_jumpIf without] at looped
              obtain ⟨⟨later, others⟩, deeper, same⟩ := map_eq_some_iff.mp looped
              cases same
              obtain ⟨sameTBB, sameCond, lastFBB, noCondition⟩ :=
                analyzeLoop_after_condition deeper rfl layoutSuccessor
              have cond : later.Cond = [.imm 1, condition] := by
                rw [sameCond]
                simp only [AnalysisState.jumpIf, empty, nil_append]
              have noFalse : (state.jumpIf condition other).FBB = none := single
              rw [planned_conditional_iff cond, sameTBB, lastFBB, noFalse, none_or]
              simp only [AnalysisState.jumpIf, lastTarget]
              refine and_congr_left fun _ => ?_
              constructor
              · intro isTarget condition' other' member
                rcases mem_cons.mp member with isFirst | inRest
                · cases isFirst
                  exact isTarget
                · exact absurd inRest (noCondition condition' other')
              · intro all
                exact all condition (some other) mem_cons_self
      | terminator | debugInstr | inst => cases looped

private theorem first_jump_unique {instr : BlockInstr} {rest before after : List BlockInstr}
    {first : Nat} (isJump : instr = .pJUMPTO_r (some first))
    (same : instr :: rest = before ++ .pJUMPTO_r (some target) :: after)
    (none : ∀ other, .pJUMPTO_r other ∉ before) : before = [] ∧ first = target ∧ rest = after := by
  cases before with
  | nil =>
      rw [nil_append, isJump] at same
      cases same
      exact ⟨rfl, rfl, rfl⟩
  | cons head tail =>
      rw [List.cons_append] at same
      injection same with isHead _
      exact absurd (isHead ▸ isJump ▸ mem_cons_self) (none (some first))

private theorem deadJumpsAgree_jumpTo (layoutSuccessor : Option Nat) (target : Nat)
    (rest : List BlockInstr) :
    DeadJumpsAgree layoutSuccessor (.pJUMPTO_r (some target) :: rest) ↔
      (∀ condition other, .pJUMPIF_r condition other ∈ rest → other = some target) ∧
        lastTarget layoutSuccessor (some target) rest = some target := by
  constructor
  · intro agree
    exact agree [] target rest rfl fun _ absent => by cases absent
  · intro agree before other after same none
    obtain ⟨_, rfl, rfl⟩ := first_jump_unique rfl same none
    exact agree

private theorem deadJumpsAgree_jumpIf (layoutSuccessor : Option Nat) (condition : MachineOperand)
    (target : Option Nat) (rest : List BlockInstr) :
    DeadJumpsAgree layoutSuccessor (.pJUMPIF_r condition target :: rest) ↔
      DeadJumpsAgree layoutSuccessor rest := by
  constructor
  · intro agree before other after same none
    refine agree (.pJUMPIF_r condition target :: before) other after (by rw [same]; rfl) ?_
    intro jump member
    rcases mem_cons.mp member with isFirst | inRest
    · cases isFirst
    · exact none jump inRest
  · intro agree before other after same none
    cases before with
    | nil => cases same
    | cons head tail =>
        rw [List.cons_append] at same
        injection same with _ sameRest
        exact agree tail other after sameRest fun jump member =>
          none jump (mem_cons_of_mem head member)

private theorem planned_after_condition_iff {rest others : List BlockInstr}
    {later : AnalysisState} {condition : MachineOperand}
    (deeper : analyzeLoop false rest (initialState.jumpIf condition target) = some (later, others))
    (layoutSuccessor : Option Nat) :
    (∀ value, planned layoutSuccessor value later.toAnalyzedBranch =
        follow layoutSuccessor value (.pJUMPIF_r condition (some target) :: rest)) ↔
      DeadJumpsAgree layoutSuccessor rest := by
  obtain ⟨sameTBB, sameCond, lastFBB, noCondition⟩ :=
    analyzeLoop_after_condition deeper rfl layoutSuccessor
  have cond : later.Cond = [.imm 1, condition] := sameCond
  have known : later.TBB = some target := sameTBB
  have fallback : later.FBB.or layoutSuccessor =
      lastTarget layoutSuccessor layoutSuccessor rest := lastFBB
  have onFalse : (∀ value, planned layoutSuccessor value later.toAnalyzedBranch =
        follow layoutSuccessor value (.pJUMPIF_r condition (some target) :: rest)) ↔
      ∀ value, value condition = 0 →
        Control.fallThrough (lastTarget layoutSuccessor layoutSuccessor rest) =
          follow layoutSuccessor value rest := by
    simp only [planned, cond, known, fallback, follow]
    constructor
    · intro all value zero
      have here := all value
      rw [if_pos zero, if_pos zero] at here
      exact here
    · intro all value
      by_cases zero : value condition = 0
      · rw [if_pos zero, if_pos zero]
        exact all value zero
      · rw [if_neg zero, if_neg zero]
        rfl
  rw [onFalse]
  cases rest with
  | nil =>
      constructor
      · intro _ before jump after same
        simp at same
      · intro _ value _
        rfl
  | cons first rest =>
      cases first with
      | pJUMPTO_r jump =>
          cases jump with
          | none => cases deeper
          | some jump =>
              rw [deadJumpsAgree_jumpTo]
              constructor
              · intro all
                refine ⟨fun condition' other member => ?_, ?_⟩
                · exact absurd (mem_cons_of_mem _ member) (noCondition condition' other)
                · exact fallThrough_eq_block_iff.mp (all (fun _ => 0) rfl)
              · rintro ⟨_, isLast⟩ value _
                exact fallThrough_eq_block_iff.mpr isLast
      | pJUMPIF_r condition' other =>
          exact absurd mem_cons_self (noCondition condition' other)
      | terminator | debugInstr | inst => cases deeper

/-- Without permission to modify, the analysis of accepted terminators is right
exactly if the jumps behind the first unconditional one agree with it. -/
theorem planned_iff_deadJumpsAgree
    (looped : analyzeLoop false instrs initialState = some (last, kept))
    (layoutSuccessor : Option Nat) :
    (∀ value, planned layoutSuccessor value last.toAnalyzedBranch =
        follow layoutSuccessor value instrs) ↔ DeadJumpsAgree layoutSuccessor instrs := by
  cases instrs with
  | nil =>
      cases looped
      constructor
      · intro _ before target after same
        simp at same
      · intro _ value
        rfl
  | cons first rest =>
      cases first with
      | pJUMPTO_r target =>
          cases target with
          | none => cases looped
          | some target =>
              rw [analyzeLoop_jumpTo] at looped
              obtain ⟨⟨later, others⟩, deeper, same⟩ := map_eq_some_iff.mp looped
              cases same
              rw [deadJumpsAgree_jumpTo]
              exact analyzeLoop_before_condition deeper rfl rfl rfl rfl layoutSuccessor target
      | pJUMPIF_r condition target =>
          cases target with
          | none => cases looped
          | some target =>
              rw [analyzeLoop_jumpIf rfl] at looped
              obtain ⟨⟨later, others⟩, deeper, same⟩ := map_eq_some_iff.mp looped
              cases same
              rw [deadJumpsAgree_jumpIf]
              exact planned_after_condition_iff deeper layoutSuccessor
      | terminator | debugInstr | inst => cases looped

/-- The analysis can be put back exactly if it may modify the block, gives up on
it, or finds nothing behind the first unconditional jump that leads elsewhere. -/
theorem branches_roundTrip_iff (AllowModify : Bool) (layoutSuccessor : Option Nat)
    (block : List BlockInstr) :
    RoundTrip AllowModify layoutSuccessor block ↔
      AllowModify = true ∨ ¬Understood (terminators block) ∨
        DeadJumpsAgree layoutSuccessor (terminators block) := by
  rw [roundTrip_iff_planned]
  cases AllowModify with
  | true =>
      constructor
      · intro _
        exact .inl rfl
      · intro _ last kept looped value
        exact planned_of_allowModify looped layoutSuccessor value
  | false =>
      rw [understood_iff]
      cases looped : analyzeLoop false (terminators block) initialState with
      | none => simp
      | some result =>
          obtain ⟨last, kept⟩ := result
          have exactly := planned_iff_deadJumpsAgree looped layoutSuccessor
          constructor
          · intro agrees
            exact .inr (.inr (exactly.mp (agrees last kept rfl)))
          · intro condition last' kept' same
            cases same
            rcases condition with absurd | notSome | agree
            · cases absurd
            · exact absurd rfl notSome
            · exact exactly.mpr agree

/-- Two unconditional jumps: the block goes to the first target, the analysis
reports the second. -/
theorem two_jumps_not_roundTrip :
    ¬RoundTrip false none [.inst 0, .pJUMPTO_r (some 1), .pJUMPTO_r (some 2)] := by
  intro trip
  have analyzed : analyzeBranch false [.inst 0, .pJUMPTO_r (some 1), .pJUMPTO_r (some 2)] =
      some (⟨some 2, none, []⟩, [.inst 0, .pJUMPTO_r (some 1), .pJUMPTO_r (some 2)]) := by decide
  obtain ⟨inserted, added, rewritten, _, _, same⟩ := trip _ _ analyzed
  have isLast : rewriteBranch (removeBranch [.inst 0, .pJUMPTO_r (some 1), .pJUMPTO_r (some 2)]).1
      ⟨some 2, none, []⟩ = some ([.inst 0, .pJUMPTO_r (some 2)], 1) := by decide
  rw [isLast] at rewritten
  cases rewritten
  have goes := same fun _ => 0
  revert goes
  decide

end Reading

end EvmBackend.Branches
