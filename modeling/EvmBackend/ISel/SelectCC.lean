/-
The select: LowerSELECT_CC, the pseudo instruction, and the diamond of blocks
that the custom inserter puts in its place.

Machine code is in register form with PHIs. Blocks are in layout order and known
by their numbers; new blocks and registers take the next free number. What the
inserter is told about falling through is a parameter.
-/

import EvmBackend.ISel
import EvmBackend.MachineFunction

namespace EvmBackend.ISel

open EVM ByteMemory List Option Function

/-- `other` stands for the instructions that the inserter neither makes nor
reads. -/
inductive MInstr
  | inst (opcode : StackOpcode) (dst : Register) (uses : List Register)
  | phi (dst : Register) (incoming : List (Register × Nat))
  | pJUMPIF_r (src : Register) (dst : Nat)
  | pJUMPTO_r (dst : Nat)
  | selectcc (operands : List MachineOperand)
  | other (identifier : Nat)
  deriving DecidableEq, Repr

structure MBlock where
  number : Nat
  instrs : List MInstr
  successors : List Nat
  deriving DecidableEq, Repr

structure MFunction where
  blocks : List MBlock
  nextBlock : Nat
  nextRegister : Register
  deriving DecidableEq, Repr

def MFunction.blockAt (F : MFunction) (number : Nat) : Option MBlock :=
  F.blocks.find? (·.number = number)

/-- A point of the execution; `previous` is the block control came from. -/
structure MState where
  block : Nat
  index : Nat
  previous : Nat
  regs : Register → Word
  memory : Memory

def MState.next (state : MState) : MState := { state with index := state.index + 1 }

def MState.set (state : MState) (reg : Register) (value : Word) : MState :=
  { state with regs := update state.regs reg value }

def MState.enter (state : MState) (block : Nat) : MState :=
  { state with block := block, index := 0, previous := state.block }

def MInstr.exec (instr : MInstr) (state : MState) : Option MState :=
  match instr with
  | .inst opcode dst uses =>
      (resultOf opcode (uses.map state.regs) state.memory).map fun value =>
        (state.set dst value).next
  | .phi dst incoming =>
      (incoming.find? (·.2 = state.previous)).map fun pair =>
        (state.set dst (state.regs pair.1)).next
  | .pJUMPIF_r src dst => some (if state.regs src = 0 then state.next else state.enter dst)
  | .pJUMPTO_r dst => some (state.enter dst)
  | _ => none

def MFunction.step (F : MFunction) (state : MState) : Option MState := do
  let block ← F.blockAt state.block
  let instr ← block.instrs[state.index]?
  instr.exec state

def MFunction.runTo (F : MFunction) (point : Nat × Nat) : Nat → MState → Option MState
  | 0, _ => none
  | fuel + 1, state =>
      if (state.block, state.index) = point then some state
      else (F.step state).bind (F.runTo point fuel)

/-- A select_cc node: the registers of its four values, its code, and the width
of the compared type. -/
structure SelectCC where
  lhs : Register
  rhs : Register
  trueV : Register
  falseV : Register
  cc : CondCode
  bits : Nat
  deriving DecidableEq, Repr

/-- An operand of a machine node: a register or a constant with its width. -/
inductive SDOperand
  | reg (register : Register)
  | constant (value bits : Nat)
  deriving DecidableEq, Repr

/-- The operands of the EVMISD::SELECTCC node; the code becomes a constant of the
compared type. -/
def LowerSELECT_CC (node : SelectCC) : List SDOperand :=
  let TargetCC := SDOperand.constant node.cc.number node.bits
  [.reg node.lhs, .reg node.rhs, TargetCC, .reg node.trueV, .reg node.falseV]

/-- Only a constant of at most 64 bits becomes a plain immediate. -/
def AddOperand : SDOperand → MachineOperand
  | .reg register => .reg register
  | .constant value bits => if bits > 64 then .cimm value else .imm value

/-- The pseudo instruction selected for the node, the result its operand 0. -/
def Selectcc (dst : Register) (node : SelectCC) : MInstr :=
  .selectcc (.reg dst :: (LowerSELECT_CC node).map AddOperand)

/-! ### The inserter -/

def getReg (operands : List MachineOperand) (index : Nat) : Option Register :=
  operands[index]?.bind MachineOperand.register?

/-- The accessor asserts that the operand is a plain immediate. -/
def getImm (operands : List MachineOperand) (index : Nat) : Option Int :=
  match operands[index]? with
  | some (.imm value) => some value
  | _ => none

/-- The switch over the code: the comparison into `rvreg`, some through `reg` and
a negation. -/
def buildComparison (CC : Int) (rvreg reg LHS RHS : Register) : Option (List MInstr) :=
  if CC = CondCode.SETEQ.number then some [.inst .EQ rvreg [LHS, RHS]]
  else if CC = CondCode.SETNE.number then
    some [.inst .EQ reg [LHS, RHS], .inst .ISZERO rvreg [reg]]
  else if CC = CondCode.SETLT.number then some [.inst .SLT rvreg [LHS, RHS]]
  else if CC = CondCode.SETLE.number then
    some [.inst .SGT reg [LHS, RHS], .inst .ISZERO rvreg [reg]]
  else if CC = CondCode.SETGT.number then some [.inst .SGT rvreg [LHS, RHS]]
  else if CC = CondCode.SETGE.number then
    some [.inst .SLT reg [LHS, RHS], .inst .ISZERO rvreg [reg]]
  else if CC = CondCode.SETULT.number then some [.inst .LT rvreg [LHS, RHS]]
  else if CC = CondCode.SETULE.number then
    some [.inst .GT reg [LHS, RHS], .inst .ISZERO rvreg [reg]]
  else if CC = CondCode.SETUGT.number then some [.inst .GT rvreg [LHS, RHS]]
  else if CC = CondCode.SETUGE.number then
    some [.inst .LT reg [LHS, RHS], .inst .ISZERO rvreg [reg]]
  else none

def replacePhiUsesWith (old new : Nat) : List MInstr → List MInstr
  | .phi dst incoming :: rest =>
      .phi dst (incoming.map fun pair => if pair.2 = old then (pair.1, new) else pair) ::
        replacePhiUsesWith old new rest
  | instrs => instrs

def updatePHIs (successors : List Nat) (old new : Nat) (block : MBlock) : MBlock :=
  if block.number ∈ successors then
    { block with instrs := replacePhiUsesWith old new block.instrs }
  else block

/-- The block up to the pseudo instruction, with the comparison and the branches. -/
def branchBlock (block : MBlock) (position falseMBB trueMBB : Nat) (comparison : List MInstr)
    (rvreg : Register) : MBlock :=
  let head := updatePHIs block.successors block.number trueMBB
    { block with instrs := block.instrs.take position }
  ⟨block.number, head.instrs ++ comparison ++ [.pJUMPIF_r rvreg trueMBB, .pJUMPTO_r falseMBB],
    [falseMBB, trueMBB]⟩

def falseBlock (falseMBB trueMBB : Nat) : MBlock :=
  ⟨falseMBB, [.pJUMPTO_r trueMBB], [trueMBB]⟩

def trueBlock (block : MBlock) (position : Nat) (fallThrough : Option Nat) (falseMBB trueMBB : Nat)
    (SelectedValue LHS RHS : Register) : MBlock :=
  let tail := block.instrs.drop (position + 1) ++ fallThrough.toList.map .pJUMPTO_r
  ⟨trueMBB, .phi SelectedValue [(LHS, block.number), (RHS, falseMBB)] :: tail, block.successors⟩

def withDiamond (F : MFunction) (block : MBlock) (position : Nat) (fallThrough : Option Nat)
    (comparison : List MInstr) (SelectedValue LHS RHS : Register) : MFunction :=
  let falseMBB := F.nextBlock
  let trueMBB := F.nextBlock + 1
  { blocks := F.blocks.flatMap fun other =>
      if other.number = block.number then
        [branchBlock block position falseMBB trueMBB comparison F.nextRegister,
          falseBlock falseMBB trueMBB,
          trueBlock block position fallThrough falseMBB trueMBB SelectedValue LHS RHS]
      else [updatePHIs block.successors block.number trueMBB other]
    nextBlock := F.nextBlock + 2
    nextRegister := F.nextRegister + comparison.length }

def insertSELECTCC (F : MFunction) (MBB position : Nat) (fallThrough : Option Nat) :
    Option MFunction := do
  let block ← F.blockAt MBB
  match block.instrs[position]? with
  | some (.selectcc operands) => do
      let SelectedValue ← getReg operands 0
      let LHS ← getReg operands 1
      let RHS ← getReg operands 2
      let CC ← getImm operands 3
      let comparison ← buildComparison CC F.nextRegister (F.nextRegister + 1) LHS RHS
      some (withDiamond F block position fallThrough comparison SelectedValue LHS RHS)
  | _ => none

def MInstr.registers : MInstr → List Register
  | .inst _ dst uses => dst :: uses
  | .phi dst incoming => dst :: incoming.map Prod.fst
  | .pJUMPIF_r src _ => [src]
  | .pJUMPTO_r _ => []
  | .selectcc operands => operands.filterMap MachineOperand.register?
  | .other _ => []

structure MFunction.Valid (F : MFunction) : Prop where
  blocks : ∀ block ∈ F.blocks, block.number < F.nextBlock
  registers : ∀ block ∈ F.blocks, ∀ instr ∈ block.instrs, ∀ reg ∈ instr.registers,
    reg < F.nextRegister

section Execution

variable {F : MFunction} {point : Nat × Nat} {state next final : MState}

theorem runTo_step (fuel : Nat) (away : (state.block, state.index) ≠ point)
    (stepped : F.step state = some next) :
    F.runTo point (fuel + 1) state = F.runTo point fuel next := by
  rw [MFunction.runTo, if_neg away, stepped, bind_some]

theorem runTo_arrived (fuel : Nat) (arrived : (state.block, state.index) = point) :
    F.runTo point (fuel + 1) state = some state := by
  rw [MFunction.runTo, if_pos arrived]

theorem runTo_add {fuel : Nat} (reached : F.runTo point fuel state = some final) (more : Nat) :
    F.runTo point (fuel + more) state = some final := by
  induction fuel generalizing state with
  | zero => cases reached
  | succ fuel ih =>
      rw [Nat.succ_add]
      by_cases arrived : (state.block, state.index) = point
      · rw [runTo_arrived _ arrived] at reached ⊢
        exact reached
      · rw [MFunction.runTo, if_neg arrived] at reached ⊢
        obtain ⟨middle, stepped, rest⟩ := bind_eq_some_iff.mp reached
        rw [stepped, bind_some]
        exact ih rest

theorem runTo_unique {left right : Nat} {one two : MState}
    (first : F.runTo point left state = some one) (second : F.runTo point right state = some two) :
    one = two := by
  have longer := runTo_add first right
  rw [Nat.add_comm, runTo_add second left] at longer
  exact (Option.some.inj longer).symm

theorem step_of_instr {block : MBlock} {instr : MInstr} (here : F.blockAt state.block = some block)
    (held : block.instrs[state.index]? = some instr) : F.step state = instr.exec state := by
  rw [MFunction.step, here]
  simp only [bind_eq_bind, bind_some, held]

theorem runTo_straight {block : MBlock} {before code after : List MInstr} (point : Nat × Nat)
    (fuel : Nat)
    (here : F.blockAt state.block = some block) (instrs : block.instrs = before ++ code ++ after)
    (start : state.index = before.length) (away : state.block ≠ point.1)
    (straight : ∀ instr ∈ code, ∃ opcode dst uses, instr = .inst opcode dst uses)
    (ran : Runs.run MInstr.exec code state = some final) :
    F.runTo point (fuel + code.length) state = F.runTo point fuel final ∧
      final.block = state.block ∧ final.index = state.index + code.length := by
  induction code generalizing state before with
  | nil =>
      cases ran
      exact ⟨rfl, rfl, rfl⟩
  | cons instr rest ih =>
      obtain ⟨middle, executed, remaining⟩ := Runs.run_cons_eq_some _ ran
      have held : block.instrs[state.index]? = some instr := by
        rw [instrs, start, List.append_assoc, getElem?_append_right (Nat.le_refl _),
          Nat.sub_self]
        rfl
      have stepped : F.step state = some middle := by rw [step_of_instr here held, executed]
      obtain ⟨opcode, dst, uses, rfl⟩ := straight instr mem_cons_self
      obtain ⟨value, _, rfl⟩ := map_eq_some_iff.mp executed
      have notThere : (state.block, state.index) ≠ point := fun same => away (congrArg Prod.fst same)
      have moved : ((state.set dst value).next).index =
          (before ++ [MInstr.inst opcode dst uses]).length := by
        rw [length_append]
        exact congrArg (· + 1) start
      have hereStill : F.blockAt ((state.set dst value).next).block = some block := here
      have split : block.instrs = before ++ [MInstr.inst opcode dst uses] ++ rest ++ after := by
        rw [instrs]
        simp
      obtain ⟨later, block', index'⟩ := ih hereStill split moved away
        (fun other inRest => straight other (mem_cons_of_mem _ inRest)) remaining
      refine ⟨?_, block', ?_⟩
      · rw [length_cons, ← Nat.add_assoc, runTo_step _ notThere stepped, later]
      · rw [index', length_cons]
        change state.index + 1 + rest.length = _
        omega

end Execution

/-- What the built comparison leaves: the truth of the condition in `rvreg`, and
every register but the two new ones as it was. -/
structure Compares (rvreg reg : Register) (holds : Bool) (comparison : List MInstr)
    (state final : MState) : Prop where
  ran : Runs.run MInstr.exec comparison state = some final
  condition : final.regs rvreg = truth holds
  kept : ∀ other, other ≠ rvreg → other ≠ reg → final.regs other = state.regs other
  straight : ∀ instr ∈ comparison, ∃ opcode dst uses, instr = .inst opcode dst uses

section Comparison

variable {rvreg reg LHS RHS : Register} {state : MState} {holds : Bool} {opcode : StackOpcode}

theorem compares_direct
    (computed : resultOf opcode [state.regs LHS, state.regs RHS] state.memory =
      some (truth holds)) :
    ∃ final, Compares rvreg reg holds [.inst opcode rvreg [LHS, RHS]] state final := by
  refine ⟨(state.set rvreg (truth holds)).next, ?_, ?_, ?_, by simp⟩
  · simp only [Runs.run, MInstr.exec, map_cons, map_nil, computed, map_some,
      bind_some]
  · exact update_self ..
  · intro other different _
    exact update_of_ne different ..

theorem compares_negated
    (computed : resultOf opcode [state.regs LHS, state.regs RHS] state.memory =
      some (truth (!holds))) :
    ∃ final, Compares rvreg reg holds
      [.inst opcode reg [LHS, RHS], .inst .ISZERO rvreg [reg]] state final := by
  refine ⟨((state.set reg (truth (!holds))).next.set rvreg (truth holds)).next, ?_, ?_, ?_, by simp⟩
  · have negation := resultOf_ISZERO (!holds) state.memory
    rw [Bool.not_not] at negation
    have stored : (state.set reg (truth (!holds))).next.regs reg = truth (!holds) :=
      update_self ..
    simp only [Runs.run, MInstr.exec, map_cons, map_nil, computed, map_some,
      bind_some, stored]
    rw [show (state.set reg (truth (!holds))).next.memory = state.memory from rfl, negation]
    rfl
  · exact update_self ..
  · intro other different apart
    change update (update state.regs reg _) rvreg _ other = _
    rw [update_of_ne different, update_of_ne apart]

theorem buildComparison_compares (rvreg reg : Register) {cc : CondCode}
    (decided : cc.decides (state.regs LHS) (state.regs RHS) = some holds) :
    ∃ comparison final, buildComparison cc.number rvreg reg LHS RHS = some comparison ∧
      Compares rvreg reg holds comparison state final := by
  have direct : ∀ opcode, (cc, opcode) ∈ directComparisons →
      ∃ final, Compares rvreg reg holds [.inst opcode rvreg [LHS, RHS]] state final :=
    fun opcode member => compares_direct (resultOf_direct state.memory member decided)
  have negated : ∀ opcode, (cc, opcode) ∈ negatedComparisons → ∃ final, Compares rvreg reg holds
      [.inst opcode reg [LHS, RHS], .inst .ISZERO rvreg [reg]] state final :=
    fun opcode member => compares_negated (resultOf_negated state.memory member decided)
  cases cc
  case SETEQ => exact ⟨_, (direct .EQ (by decide)).imp fun _ compares => ⟨rfl, compares⟩⟩
  case SETNE => exact ⟨_, (negated .EQ (by decide)).imp fun _ compares => ⟨rfl, compares⟩⟩
  case SETLT => exact ⟨_, (direct .SLT (by decide)).imp fun _ compares => ⟨rfl, compares⟩⟩
  case SETLE => exact ⟨_, (negated .SGT (by decide)).imp fun _ compares => ⟨rfl, compares⟩⟩
  case SETGT => exact ⟨_, (direct .SGT (by decide)).imp fun _ compares => ⟨rfl, compares⟩⟩
  case SETGE => exact ⟨_, (negated .SLT (by decide)).imp fun _ compares => ⟨rfl, compares⟩⟩
  case SETULT => exact ⟨_, (direct .LT (by decide)).imp fun _ compares => ⟨rfl, compares⟩⟩
  case SETULE => exact ⟨_, (negated .GT (by decide)).imp fun _ compares => ⟨rfl, compares⟩⟩
  case SETUGT => exact ⟨_, (direct .GT (by decide)).imp fun _ compares => ⟨rfl, compares⟩⟩
  case SETUGE => exact ⟨_, (negated .LT (by decide)).imp fun _ compares => ⟨rfl, compares⟩⟩
  all_goals cases decided

end Comparison

/-! ### The blocks of the diamond -/

theorem length_replacePhiUsesWith (old new : Nat) (instrs : List MInstr) :
    (replacePhiUsesWith old new instrs).length = instrs.length := by
  fun_induction replacePhiUsesWith old new instrs with
  | case1 dst incoming rest ih => rw [length_cons, length_cons, ih]
  | case2 instrs => rfl

theorem length_updatePHIs (successors : List Nat) (old new : Nat) (block : MBlock) :
    (updatePHIs successors old new block).instrs.length = block.instrs.length := by
  unfold updatePHIs
  split
  · exact length_replacePhiUsesWith old new block.instrs
  · rfl

theorem number_updatePHIs (successors : List Nat) (old new : Nat) (block : MBlock) :
    (updatePHIs successors old new block).number = block.number := by
  unfold updatePHIs
  split <;> rfl

theorem number_of_blockAt {F : MFunction} {MBB : Nat} {block : MBlock}
    (found : F.blockAt MBB = some block) : block.number = MBB := by
  have matched := find?_some found
  exact of_decide_eq_true matched

theorem length_head {block : MBlock} {position : Nat} {instr : MInstr} (trueMBB : Nat)
    (held : block.instrs[position]? = some instr) :
    (updatePHIs block.successors block.number trueMBB
      { block with instrs := block.instrs.take position }).instrs.length = position := by
  obtain ⟨within, _⟩ := List.getElem?_eq_some_iff.mp held
  rw [length_updatePHIs, length_take, Nat.min_eq_left within.le]

section Inserted

variable {F : MFunction} {MBB position dst : Nat} {block : MBlock} {node : SelectCC}
  {fallThrough : Option Nat} {comparison : List MInstr}

theorem insertSELECTCC_eq (found : F.blockAt MBB = some block)
    (held : block.instrs[position]? = some (Selectcc dst node)) (narrow : node.bits ≤ 64)
    (built : buildComparison node.cc.number F.nextRegister (F.nextRegister + 1) node.lhs node.rhs =
      some comparison) :
    insertSELECTCC F MBB position fallThrough =
      some (withDiamond F block position fallThrough comparison dst node.lhs node.rhs) := by
  have read : getImm (.reg dst :: (LowerSELECT_CC node).map AddOperand) 3 =
      some (node.cc.number : Int) := by
    simp only [getImm, LowerSELECT_CC, map_cons, AddOperand, if_neg (Nat.not_lt.mpr narrow)]
    rfl
  rw [insertSELECTCC, found]
  simp only [bind_eq_bind, bind_some, held, Selectcc, read]
  rw [show getReg (.reg dst :: (LowerSELECT_CC node).map AddOperand) 0 = some dst from rfl,
    show getReg (.reg dst :: (LowerSELECT_CC node).map AddOperand) 1 = some node.lhs from rfl,
    show getReg (.reg dst :: (LowerSELECT_CC node).map AddOperand) 2 = some node.rhs from rfl]
  simp only [bind_some, built]

theorem insertSELECTCC_wide (found : F.blockAt MBB = some block)
    (held : block.instrs[position]? = some (Selectcc dst node)) (wide : 64 < node.bits) :
    insertSELECTCC F MBB position fallThrough = none := by
  have read : getImm (.reg dst :: (LowerSELECT_CC node).map AddOperand) 3 = none := by
    simp only [getImm, LowerSELECT_CC, map_cons, AddOperand, if_pos wide]
    rfl
  rw [insertSELECTCC, found]
  simp only [bind_eq_bind, bind_some, held, Selectcc, read, bind_none,
    bind_fun_none]

theorem blockAt_withDiamond {number : Nat} {one : MBlock} (SelectedValue LHS RHS : Register)
    (found : F.blockAt MBB = some block)
    (fresh : ∀ other ∈ F.blocks, other.number ≠ MBB → other.number ≠ number)
    (member : [branchBlock block position F.nextBlock (F.nextBlock + 1) comparison F.nextRegister,
      falseBlock F.nextBlock (F.nextBlock + 1), trueBlock block position fallThrough F.nextBlock
        (F.nextBlock + 1) SelectedValue LHS RHS].find? (·.number = number) = some one) :
    (withDiamond F block position fallThrough comparison SelectedValue LHS RHS).blockAt number =
      some one := by
  have named := number_of_blockAt found
  obtain ⟨_, left, right, split, before⟩ := find?_eq_some_iff_append.mp found
  rw [MFunction.blockAt, withDiamond]
  simp only [split, flatMap_append, flatMap_cons, if_true]
  rw [find?_append, find?_append, member]
  have skipped : ∀ new ∈ left.flatMap (fun other => if other.number = block.number then
      [branchBlock block position F.nextBlock (F.nextBlock + 1) comparison F.nextRegister,
        falseBlock F.nextBlock (F.nextBlock + 1), trueBlock block position fallThrough F.nextBlock
          (F.nextBlock + 1) SelectedValue LHS RHS]
      else [updatePHIs block.successors block.number (F.nextBlock + 1) other]),
      new.number ≠ number := by
    intro new inNew
    obtain ⟨other, inLeft, produced⟩ := mem_flatMap.mp inNew
    have apart : other.number ≠ MBB := by simpa using before other inLeft
    have inF : other ∈ F.blocks := by
      rw [split]
      exact mem_append_left _ inLeft
    rw [if_neg (by rw [named]; exact apart)] at produced
    rw [mem_singleton.mp produced, number_updatePHIs]
    exact fresh other inF apart
  rw [find?_eq_none.mpr (by simpa using skipped)]
  rfl

section Found

variable (position fallThrough comparison)
variable (valid : F.Valid) (found : F.blockAt MBB = some block) (SelectedValue LHS RHS : Register)

include found in
theorem blockAt_branchBlock :
    (withDiamond F block position fallThrough comparison SelectedValue LHS RHS).blockAt MBB =
      some (branchBlock block position F.nextBlock (F.nextBlock + 1) comparison F.nextRegister) := by
  have named := number_of_blockAt found
  apply blockAt_withDiamond SelectedValue LHS RHS found (fun _ _ apart => apart)
  simp only [find?_cons, branchBlock, named, decide_true]

include valid found in
theorem blockAt_falseBlock :
    (withDiamond F block position fallThrough comparison SelectedValue LHS RHS).blockAt F.nextBlock =
      some (falseBlock F.nextBlock (F.nextBlock + 1)) := by
  have below := valid.blocks block (mem_of_find?_eq_some found)
  have apart : block.number ≠ F.nextBlock := by omega
  apply blockAt_withDiamond SelectedValue LHS RHS found
  · intro other inF _
    have := valid.blocks other inF
    omega
  · simp only [find?_cons, branchBlock, falseBlock, apart, decide_false, decide_true]

include valid found in
theorem blockAt_trueBlock :
    (withDiamond F block position fallThrough comparison SelectedValue LHS RHS).blockAt
        (F.nextBlock + 1) =
      some (trueBlock block position fallThrough F.nextBlock (F.nextBlock + 1) SelectedValue LHS
        RHS) := by
  have below := valid.blocks block (mem_of_find?_eq_some found)
  have apart : block.number ≠ F.nextBlock + 1 := by omega
  have later : F.nextBlock ≠ F.nextBlock + 1 := by omega
  apply blockAt_withDiamond SelectedValue LHS RHS found
  · intro other inF _
    have := valid.blocks other inF
    omega
  · simp only [find?_cons, branchBlock, falseBlock, trueBlock, apart, later, decide_false,
      decide_true]

end Found

end Inserted

section Selected

variable {F : MFunction} {block : MBlock} {state : MState} {dst : Register} {node : SelectCC}
  {comparison : List MInstr} {holds : Bool} {compared : MState}

theorem runTo_phi {new : MFunction} {trueMBB : Nat} {rest : List MInstr} {after : List Nat}
    {incoming : List (Register × Nat)} {pair : Register × Nat} (fuel : Nat)
    (found : new.blockAt trueMBB = some ⟨trueMBB, .phi dst incoming :: rest, after⟩)
    (here : state.block = trueMBB) (start : state.index = 0)
    (from_ : incoming.find? (·.2 = state.previous) = some pair) :
    ∃ final, new.runTo (trueMBB, 1) (fuel + 2) state = some final ∧
      final.regs dst = state.regs pair.1 := by
  have away : (state.block, state.index) ≠ (trueMBB, 1) := by
    rw [start]
    intro same
    cases same
  have stepped : new.step state = some (state.set dst (state.regs pair.1)).next := by
    rw [← here] at found
    rw [step_of_instr found (by rw [start]; rfl), MInstr.exec, from_]
    rfl
  refine ⟨(state.set dst (state.regs pair.1)).next, ?_, update_self ..⟩
  rw [runTo_step _ away stepped]
  apply runTo_arrived
  change (state.block, state.index + 1) = _
  rw [here, start]

theorem operand_lt (valid : F.Valid) (found : F.blockAt state.block = some block)
    (held : block.instrs[state.index]? = some (Selectcc dst node)) {reg : Register}
    (operand : reg ∈ (Selectcc dst node).registers) : reg < F.nextRegister :=
  valid.registers block (mem_of_find?_eq_some found) _ (mem_of_getElem? held) reg operand

/-- Behind the comparison: a jump to the true block where the condition holds, and
through the false block where it does not. -/
theorem runTo_branches (valid : F.Valid) (fallThrough : Option Nat)
    (found : F.blockAt state.block = some block)
    (held : block.instrs[state.index]? = some (Selectcc dst node))
    (place : compared.block = state.block)
    (index : compared.index = state.index + comparison.length)
    (condition : compared.regs F.nextRegister = truth holds) :
    ∃ final, (withDiamond F block state.index fallThrough comparison dst node.lhs
        node.rhs).runTo (F.nextBlock + 1, 1) 5 compared = some final ∧
      final.regs dst = compared.regs (if holds then node.lhs else node.rhs) := by
  have named := number_of_blockAt found
  have below := valid.blocks block (mem_of_find?_eq_some found)
  have branching :=
    blockAt_branchBlock state.index fallThrough comparison found dst node.lhs node.rhs
  have atFalse :=
    blockAt_falseBlock state.index fallThrough comparison valid found dst node.lhs node.rhs
  have atTrue :=
    blockAt_trueBlock state.index fallThrough comparison valid found dst node.lhs node.rhs
  rw [← place] at branching
  have jumps : ∀ offset, (branchBlock block state.index F.nextBlock (F.nextBlock + 1) comparison
      F.nextRegister).instrs[compared.index + offset]? =
        [MInstr.pJUMPIF_r F.nextRegister (F.nextBlock + 1), .pJUMPTO_r F.nextBlock][offset]? := by
    intro offset
    rw [index, branchBlock, getElem?_append_right] <;>
      rw [length_append, length_head _ held]
    · congr 1
      omega
    · omega
  have away : ∀ {place : MState}, place.block ≠ F.nextBlock + 1 →
      (place.block, place.index) ≠ (F.nextBlock + 1, 1) :=
    fun apart same => apart (congrArg Prod.fst same)
  have elsewhere : compared.block ≠ F.nextBlock + 1 := by omega
  have decided := step_of_instr branching (jumps 0)
  cases holds with
  | true =>
      have taken : compared.regs F.nextRegister ≠ 0 := by rw [condition]; decide
      rw [MInstr.exec, if_neg taken] at decided
      rw [runTo_step _ (away elsewhere) decided]
      have source : [(node.lhs, block.number), (node.rhs, F.nextBlock)].find?
          (·.2 = (compared.enter (F.nextBlock + 1)).previous) = some (node.lhs, block.number) := by
        rw [find?_cons_of_pos]
        exact decide_eq_true (by rw [named, ← place]; rfl)
      exact runTo_phi 2 atTrue rfl rfl source
  | false =>
      have skipped : compared.regs F.nextRegister = 0 := condition
      rw [MInstr.exec, if_pos skipped] at decided
      have following : (withDiamond F block state.index fallThrough comparison dst node.lhs
          node.rhs).blockAt compared.next.block = _ := branching
      have onward := step_of_instr following (jumps 1)
      have entered : (withDiamond F block state.index fallThrough comparison dst node.lhs
          node.rhs).blockAt (compared.next.enter F.nextBlock).block = _ := atFalse
      have back := step_of_instr entered (show _ = some (.pJUMPTO_r (F.nextBlock + 1)) from rfl)
      have passing : (compared.next.block, compared.next.index) ≠ (F.nextBlock + 1, 1) :=
        away elsewhere
      rw [runTo_step _ (away elsewhere) decided, runTo_step _ passing onward,
        runTo_step _ (away (Nat.ne_of_lt (Nat.lt_succ_self _))) back]
      have source : [(node.lhs, block.number), (node.rhs, F.nextBlock)].find?
          (·.2 = ((compared.next.enter F.nextBlock).enter (F.nextBlock + 1)).previous) =
            some (node.rhs, F.nextBlock) := by
        have apart : block.number ≠ F.nextBlock := by omega
        rw [find?_cons_of_neg (by simp [MState.enter, apart]), find?_cons_of_pos]
        exact decide_eq_true rfl
      exact runTo_phi 0 atTrue rfl rfl source

/-- The inserted code, executed from the place of the pseudo instruction to behind
the PHI, leaves the wanted word in the result. -/
def Selects (F : MFunction) (fallThrough : Option Nat) (dst : Register) (state : MState)
    (wanted : Word) : Prop :=
  ∃ new fuel final, insertSELECTCC F state.block state.index fallThrough = some new ∧
    new.runTo (F.nextBlock + 1, 1) fuel state = some final ∧ final.regs dst = wanted

/-- A code of at most 64 bits is inserted; the result is the left compared value
where the condition holds and the right one where it does not. -/
theorem selects_compared (valid : F.Valid) (fallThrough : Option Nat)
    (found : F.blockAt state.block = some block)
    (held : block.instrs[state.index]? = some (Selectcc dst node)) (narrow : node.bits ≤ 64)
    (decided : node.cc.decides (state.regs node.lhs) (state.regs node.rhs) = some holds) :
    Selects F fallThrough dst state (state.regs (if holds then node.lhs else node.rhs)) := by
  obtain ⟨comparison, compared, built, compares⟩ :=
    buildComparison_compares F.nextRegister (F.nextRegister + 1) decided
  have branching :=
    blockAt_branchBlock state.index fallThrough comparison found dst node.lhs node.rhs
  have below := valid.blocks block (mem_of_find?_eq_some found)
  have elsewhere : state.block ≠ F.nextBlock + 1 := by
    rw [← number_of_blockAt found]
    omega
  obtain ⟨straight, place, index⟩ := runTo_straight (F.nextBlock + 1, 1) 5 branching rfl
    (length_head _ held).symm elsewhere compares.straight compares.ran
  obtain ⟨final, arrived, selected⟩ :=
    runTo_branches valid fallThrough found held place index compares.condition
  refine ⟨_, _, final, insertSELECTCC_eq found held narrow built, straight.trans arrived, ?_⟩
  have old : (if holds then node.lhs else node.rhs) < F.nextRegister := by
    apply operand_lt valid found held
    cases holds <;> simp [Selectcc, LowerSELECT_CC, AddOperand, MInstr.registers,
      MachineOperand.register?]
  rw [selected, compares.kept _ (Nat.ne_of_lt old) (Nat.ne_of_lt (Nat.lt_succ_of_lt old))]

theorem selects_unique {fallThrough : Option Nat} {one two : Word}
    (first : Selects F fallThrough dst state one) (second : Selects F fallThrough dst state two) :
    one = two := by
  obtain ⟨new, fuel, final, inserted, arrived, value⟩ := first
  obtain ⟨new', fuel', final', inserted', arrived', value'⟩ := second
  rw [inserted, Option.some.injEq] at inserted'
  subst inserted'
  rw [← value, ← value', runTo_unique arrived arrived']

/-- The select is lowered right exactly when the compared type has at most 64 bits
and the compared value that reaches the PHI is the wanted one. -/
theorem selects_iff (valid : F.Valid) (fallThrough : Option Nat)
    (found : F.blockAt state.block = some block)
    (held : block.instrs[state.index]? = some (Selectcc dst node))
    (decided : node.cc.decides (state.regs node.lhs) (state.regs node.rhs) = some holds) :
    Selects F fallThrough dst state (state.regs (if holds then node.trueV else node.falseV)) ↔
      node.bits ≤ 64 ∧
        (if holds then state.regs node.lhs = state.regs node.trueV
          else state.regs node.rhs = state.regs node.falseV) := by
  constructor
  · intro selects
    have narrow : node.bits ≤ 64 := by
      by_contra wide
      obtain ⟨new, fuel, final, inserted, _⟩ := selects
      rw [insertSELECTCC_wide found held (by omega)] at inserted
      cases inserted
    have same := selects_unique (selects_compared valid fallThrough found held narrow decided) selects
    refine ⟨narrow, ?_⟩
    cases holds <;> exact same
  · rintro ⟨narrow, same⟩
    have selects := selects_compared valid fallThrough found held narrow decided
    cases holds
    · have equal : state.regs node.rhs = state.regs node.falseV := same
      change Selects F fallThrough dst state (state.regs node.falseV)
      rw [← equal]
      exact selects
    · have equal : state.regs node.lhs = state.regs node.trueV := same
      change Selects F fallThrough dst state (state.regs node.trueV)
      rw [← equal]
      exact selects

end Selected

def selecting (cc : CondCode) (bits : Nat) : MFunction :=
  ⟨[⟨0, [Selectcc 5 ⟨1, 2, 3, 4, cc, bits⟩], []⟩], 1, 6⟩

def startWith (lhs rhs trueV falseV : Word) : MState :=
  ⟨0, 0, 0, fun reg => if reg = 1 then lhs else if reg = 2 then rhs else if reg = 3 then trueV
    else falseV, fun _ => 0⟩

theorem selecting_valid (cc : CondCode) (bits : Nat) : (selecting cc bits).Valid where
  blocks := by simp [selecting]
  registers := by
    intro block inF instr inBlock reg used
    obtain rfl := mem_singleton.mp inF
    obtain rfl := mem_singleton.mp inBlock
    have listed : reg ∈ [5, 1, 2, 3, 4] := by
      simp only [MInstr.registers, Selectcc, LowerSELECT_CC, map_cons, map_nil,
        AddOperand] at used
      split at used <;> exact used
    have below : ∀ reg ∈ [5, 1, 2, 3, 4], reg < 6 := by decide
    exact below reg listed

/-- A minimum, where the wanted values are the compared ones: a narrow code selects
it, the code of a 256-bit comparison is not even inserted. -/
theorem minimum_selected :
    Selects (selecting .SETULT 64) none 5 (startWith 3 9 3 9) 3 ∧
      ¬ Selects (selecting .SETULT 256) none 5 (startWith 3 9 3 9) 3 := by
  have narrow := @selects_iff (selecting .SETULT 64) _ (startWith 3 9 3 9) 5
    ⟨1, 2, 3, 4, .SETULT, 64⟩ true (selecting_valid .SETULT 64) none rfl rfl rfl
  have wide := @selects_iff (selecting .SETULT 256) _ (startWith 3 9 3 9) 5
    ⟨1, 2, 3, 4, .SETULT, 256⟩ true (selecting_valid .SETULT 256) none rfl rfl rfl
  exact ⟨narrow.mpr ⟨by decide, rfl⟩, fun selects => absurd (wide.mp selects).1 (by decide)⟩

/-- `3 < 9 ? 7 : 8` is 7. For the 256-bit comparison nothing is inserted, and where
the code can be read the PHI gives 3. -/
theorem seven_not_selected :
    CondCode.SETULT.decides 3 9 = some true ∧
      ¬ Selects (selecting .SETULT 256) none 5 (startWith 3 9 7 8) 7 ∧
      ¬ Selects (selecting .SETULT 64) none 5 (startWith 3 9 7 8) 7 := by
  refine ⟨by decide, ?_, ?_⟩
  · rintro ⟨new, _, _, inserted, _⟩
    have nothing : insertSELECTCC (selecting .SETULT 256) 0 0 none = none :=
      @insertSELECTCC_wide _ 0 0 5 _ ⟨1, 2, 3, 4, .SETULT, 256⟩ none rfl rfl (by decide)
    rw [show (startWith 3 9 7 8).block = 0 from rfl, show (startWith 3 9 7 8).index = 0 from rfl,
      nothing] at inserted
    cases inserted
  · intro selects
    have three := @selects_compared (selecting .SETULT 64) _ (startWith 3 9 7 8) 5
      ⟨1, 2, 3, 4, .SETULT, 64⟩ true (selecting_valid .SETULT 64) none rfl rfl (by decide) rfl
    exact absurd (selects_unique three selects) (by decide)

end EvmBackend.ISel
