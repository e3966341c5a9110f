/-
The branch hooks of the instruction info: analyzeBranch reads the terminators
of a block, removeBranch deletes its jumps and insertBranch appends new ones.

Control is followed from the first terminator on. A block without a jump left
goes on in the block laid out behind it, if there is one.
-/

import EvmBackend.MachineFunction

namespace EvmBackend.Branches

/-- What the hooks see of an instruction. A jump operand may hold no block, and
`terminator` is any terminator other than the two jumps. -/
inductive BlockInstr
  | pJUMPTO_r (target : Option Nat)
  | pJUMPIF_r (condition : MachineOperand) (target : Option Nat)
  | terminator (code : Nat)
  | debugInstr (code : Nat)
  | inst (code : Nat)
  deriving DecidableEq, Repr

namespace BlockInstr

def isTerminator : BlockInstr → Bool
  | .pJUMPTO_r _ | .pJUMPIF_r _ _ | .terminator _ => true
  | .debugInstr _ | .inst _ => false

def isDebugInstr : BlockInstr → Bool
  | .debugInstr _ => true
  | _ => false

def isJump : BlockInstr → Bool
  | .pJUMPTO_r _ | .pJUMPIF_r _ _ => true
  | _ => false

end BlockInstr

def trailing (block : List BlockInstr) : List BlockInstr :=
  (block.reverse.takeWhile fun instr => instr.isTerminator || instr.isDebugInstr).reverse

def terminators (block : List BlockInstr) : List BlockInstr :=
  (trailing block).dropWhile fun instr => !instr.isTerminator

def getFirstTerminator (block : List BlockInstr) : Nat :=
  block.length - (terminators block).length

structure AnalyzedBranch where
  TBB : Option Nat
  FBB : Option Nat
  Cond : List MachineOperand
  deriving DecidableEq, Repr

structure AnalysisState extends AnalyzedBranch where
  HaveCond : Bool
  lastJump : Bool
  deriving DecidableEq, Repr

/-- Without a condition so far the jump is the only destination, after one it is
the false destination. -/
def AnalysisState.jumpTo (state : AnalysisState) (TMBB : Nat) : AnalysisState :=
  if state.HaveCond then { state with FBB := some TMBB, lastJump := true }
  else { state with TBB := some TMBB, lastJump := true }

def AnalysisState.jumpIf (state : AnalysisState) (condition : MachineOperand) (jumpTarget : Nat) :
    AnalysisState :=
  { state with
    Cond := state.Cond ++ [.imm 1, condition], TBB := some jumpTarget, HaveCond := true }

/-- The loop over the terminators: no result where the source bails out, else
the state at the end and the terminators that were not erased. -/
def analyzeLoop (AllowModify : Bool) :
    List BlockInstr → AnalysisState → Option (AnalysisState × List BlockInstr)
  | [], state => some (state, [])
  | MI :: rest, state =>
      if AllowModify && state.lastJump then
        analyzeLoop AllowModify rest state
      else
        match MI with
        | .pJUMPTO_r (some TMBB) =>
            (analyzeLoop AllowModify rest (state.jumpTo TMBB)).map
              fun result => (result.1, MI :: result.2)
        | .pJUMPIF_r condition (some jumpTarget) =>
            if state.HaveCond then
              none
            else
              (analyzeLoop AllowModify rest (state.jumpIf condition jumpTarget)).map
                fun result => (result.1, MI :: result.2)
        | _ => none

/-- Callers start with no blocks and an empty condition. -/
def initialState : AnalysisState := ⟨⟨none, none, []⟩, false, false⟩

def analyzeBranch (AllowModify : Bool) (block : List BlockInstr) :
    Option (AnalyzedBranch × List BlockInstr) :=
  (analyzeLoop AllowModify (terminators block) initialState).map fun result =>
    (result.1.toAnalyzedBranch, block.take (getFirstTerminator block) ++ result.2)

def eraseFirstJump (block : List BlockInstr) : Option (List BlockInstr) :=
  ((terminators block).findIdx? BlockInstr.isJump).map fun index =>
    block.eraseIdx (getFirstTerminator block + index)

/-- After an erasure the walk starts again at the first terminator, so there are
at most as many passes as instructions. -/
def removeLoop : Nat → List BlockInstr → Nat → List BlockInstr × Nat
  | 0, block, Count => (block, Count)
  | passes + 1, block, Count =>
      match eraseFirstJump block with
      | none => (block, Count)
      | some smaller => removeLoop passes smaller (Count + 1)

def removeBranch (block : List BlockInstr) : List BlockInstr × Nat :=
  removeLoop block.length block 0

def insertBranch (block : List BlockInstr) (branch : AnalyzedBranch) :
    Option (List BlockInstr × Nat) :=
  match branch.TBB, branch.Cond with
  | none, _ => none
  | some TBB, [] =>
      if branch.FBB = none then some (block ++ [.pJUMPTO_r (some TBB)], 1) else none
  | some TBB, [.imm flag, condition] =>
      if flag = 0 then
        none
      else
        match branch.FBB with
        | none => some (block ++ [.pJUMPIF_r condition (some TBB)], 1)
        | some FBB =>
            some (block ++ [.pJUMPIF_r condition (some TBB), .pJUMPTO_r (some FBB)], 2)
  | some _, _ => none

/-- Where control goes: to a block, out of the function behind its last block,
to no block at all, or wherever another terminator leads. -/
inductive Control
  | block (target : Nat)
  | fallsOff
  | nowhere
  | leaves (code : Nat)
  deriving DecidableEq, Repr

def Control.fallThrough : Option Nat → Control
  | some next => .block next
  | none => .fallsOff

def Control.jump : Option Nat → Control
  | some target => .block target
  | none => .nowhere

def follow (layoutSuccessor : Option Nat) (value : MachineOperand → Nat) :
    List BlockInstr → Control
  | [] => .fallThrough layoutSuccessor
  | .pJUMPTO_r target :: _ => .jump target
  | .pJUMPIF_r condition target :: rest =>
      if value condition = 0 then follow layoutSuccessor value rest else .jump target
  | .terminator code :: _ => .leaves code
  | .debugInstr _ :: rest => follow layoutSuccessor value rest
  | .inst _ :: rest => follow layoutSuccessor value rest

def transfer (layoutSuccessor : Option Nat) (value : MachineOperand → Nat)
    (block : List BlockInstr) : Control :=
  follow layoutSuccessor value (terminators block)

/-- A block is rewritten by removing its jumps and inserting the analysed
branch; there is nothing to insert when the analysis found no jump. -/
def rewriteBranch (block : List BlockInstr) (branch : AnalyzedBranch) :
    Option (List BlockInstr × Nat) :=
  if branch.TBB = none then some (block, 0) else insertBranch block branch

/-- Whatever the analysis reports can be put back: the rewritten block goes where
the original one goes, and both counts are the numbers of terminators removed
and inserted. -/
def RoundTrip (AllowModify : Bool) (layoutSuccessor : Option Nat) (block : List BlockInstr) :
    Prop :=
  ∀ branch analyzed, analyzeBranch AllowModify block = some (branch, analyzed) →
    ∃ inserted added, rewriteBranch (removeBranch analyzed).1 branch = some (inserted, added) ∧
      (terminators analyzed).length =
        (terminators (removeBranch analyzed).1).length + (removeBranch analyzed).2 ∧
      (terminators inserted).length = (terminators (removeBranch analyzed).1).length + added ∧
      ∀ value, transfer layoutSuccessor value inserted = transfer layoutSuccessor value block

end EvmBackend.Branches
