/-
The code emitted for a call when there are no native subroutines, and what it
does on the machine.

The sequence saves the frame pointer behind the caller's slots, moves the frame
pointer and the stack pointer up to the callee's frame, exchanges the callee's
address for the return address and jumps. Behind the jump, a JUMPDEST and the
code that fetches the saved frame pointer from the word below the frame.
-/

import EvmBackend.FrameLayout
import EvmBackend.Machine

namespace EvmBackend

open ByteMemory EVM

/-- A pJUMPSUB_r or pJUMPSUBVOID_r: the function it stands in, the address its
function uses for the frame-pointer cell, and its number of arguments. The
operands are the arguments and the callee's address. -/
structure CallSite where
  frame : CompiledFrame
  calls : frame.makesCalls = true
  fpaddr : Nat
  args : Nat
  returnsValue : Bool
  withinSwap : args + 1 ≤ 16

def countLeadingZeros (imm : Nat) : Nat := if imm = 0 then 64 else 63 - imm.log2

def getImmSize (imm : Nat) : Nat :=
  let bytes := 8 - countLeadingZeros imm / 8
  if bytes = 0 then 1 else bytes

/-- The later pass that replaces the PUSH32 of an immediate by a shorter one. -/
def shrinkPush : Inst → Inst
  | .PUSH 32 imm => .PUSH (getImmSize imm) imm
  | inst => inst

variable {machine : Machine} {arguments rest : List Word} {callee : Word} {code : Code}

namespace CallSite

variable (site : CallSite)

def spaddr : Nat := unsigned (site.fpaddr + 32)

def uses : Nat := site.args + 1

def saveFramePointer : List Inst :=
  [.PUSH 32 site.fpaddr, .MLOAD, .DUP 1, .PUSH 32 site.frame.savedAt, .ADD, .MSTORE]

def updateFramePointer : List Inst :=
  [.PUSH 32 site.fpaddr, .MLOAD, .PUSH 32 site.frame.calleeAt, .ADD, .DUP 1,
    .PUSH 32 site.fpaddr, .MSTORE, .PUSH 32 site.spaddr, .MSTORE]

def buildReturnAddress : List Inst :=
  [.PUSH 1 4, .GETPC, .ADD, .SWAP site.uses]

def restoreFramePointer : List Inst :=
  [.JUMPDEST, .PUSH 32 site.fpaddr, .MLOAD, .PUSH 32 32, .SWAP 1, .SUB, .MLOAD,
    .PUSH 32 site.fpaddr, .MSTORE]

def setup : List Inst :=
  site.saveFramePointer.map shrinkPush ++
    (site.updateFramePointer.map shrinkPush ++ site.buildReturnAddress.map shrinkPush)

def resume : List Inst := site.restoreFramePointer.map shrinkPush

def callSequence : List Inst := site.setup ++ .JUMP :: site.resume

/-- The position of the JUMPDEST of a sequence that starts at the position. -/
def returnPosition (position : Nat) : Nat := position + codeSize site.setup + 1

def fpWord : Word := BitVec.ofNat 256 site.fpaddr

def spWord : Word := BitVec.ofNat 256 site.spaddr

def framePointer (memory : Memory) : Word := loadWord memory site.fpWord

def savedMemory (memory : Memory) : Memory :=
  storeWord memory (BitVec.ofNat 256 site.frame.savedAt + site.framePointer memory)
    (site.framePointer memory)

def calleePointer (memory : Memory) : Word :=
  BitVec.ofNat 256 site.frame.calleeAt + site.framePointer (site.savedMemory memory)

def enteredMemory (memory : Memory) : Memory :=
  storeWord (storeWord (site.savedMemory memory) site.fpWord (site.calleePointer memory))
    site.spWord (site.calleePointer memory)

def restoredMemory (memory : Memory) : Memory :=
  storeWord memory site.fpWord (loadWord memory (site.framePointer memory - 32))

/-! ### Execution -/

theorem setup_straight : ∀ inst ∈ site.setup, inst ≠ .JUMP := by
  simp [setup, saveFramePointer, updateFramePointer, buildReturnAddress, shrinkPush]

theorem resume_straight : ∀ inst ∈ site.resume, inst ≠ .JUMP := by
  simp [resume, restoreFramePointer, shrinkPush]

theorem run_saveFramePointer (machine : Machine) :
    Runs.run execute (site.saveFramePointer.map shrinkPush) machine =
      some ⟨machine.pc + codeSize (site.saveFramePointer.map shrinkPush), machine.stack,
        site.savedMemory machine.memory⟩ := by
  simp [saveFramePointer, shrinkPush, execute, effect, Stacks.dupTop, codeSize, Inst.size,
    savedMemory, framePointer, fpWord]
  omega

theorem run_updateFramePointer {memory : Memory}
    (saved : machine.memory = site.savedMemory memory) :
    Runs.run execute (site.updateFramePointer.map shrinkPush) machine =
      some ⟨machine.pc + codeSize (site.updateFramePointer.map shrinkPush), machine.stack,
        site.enteredMemory memory⟩ := by
  simp [updateFramePointer, shrinkPush, execute, effect, Stacks.dupTop, codeSize, Inst.size,
    enteredMemory, calleePointer, framePointer, fpWord, spWord, saved]
  omega

theorem run_buildReturnAddress (machine : Machine) (count : arguments.length = site.args)
    (operands : machine.stack = arguments ++ callee :: rest) :
    Runs.run execute (site.buildReturnAddress.map shrinkPush) machine =
      some ⟨machine.pc + codeSize (site.buildReturnAddress.map shrinkPush),
        callee :: (arguments ++ BitVec.ofNat 256
          (machine.pc + codeSize (site.buildReturnAddress.map shrinkPush) + 1) :: rest),
        machine.memory⟩ := by
  have swapped := Stacks.swapTop_below (BitVec.ofNat 256 (machine.pc + 2) + 4#256) callee
    arguments rest
  have address : BitVec.ofNat 256 (machine.pc + 2) + 4#256 =
      BitVec.ofNat 256 (machine.pc + 6) := by
    rw [← BitVec.ofNat_add]
  rw [count, address] at swapped
  simp [buildReturnAddress, shrinkPush, execute, effect, codeSize, Inst.size, uses, operands,
    swapped, address]

theorem run_setup (count : arguments.length = site.args)
    (operands : machine.stack = arguments ++ callee :: rest) :
    Runs.run execute site.setup machine =
      some ⟨machine.pc + codeSize site.setup,
        callee :: (arguments ++
          BitVec.ofNat 256 (site.returnPosition machine.pc) :: rest),
        site.enteredMemory machine.memory⟩ := by
  have size : codeSize site.setup = codeSize (site.saveFramePointer.map shrinkPush) +
      (codeSize (site.updateFramePointer.map shrinkPush) +
        codeSize (site.buildReturnAddress.map shrinkPush)) := by
    simp [setup, codeSize]
  have built := run_buildReturnAddress site
    ⟨machine.pc + codeSize (site.saveFramePointer.map shrinkPush) +
      codeSize (site.updateFramePointer.map shrinkPush), machine.stack,
      site.enteredMemory machine.memory⟩ count operands
  rw [setup, Runs.run_append, run_saveFramePointer, Option.bind_some, Runs.run_append,
    run_updateFramePointer site rfl, Option.bind_some, built, returnPosition, ← setup, size]
  simp only [Nat.add_assoc]

theorem run_resume (machine : Machine) :
    Runs.run execute site.resume machine =
      some ⟨machine.pc + codeSize site.resume, machine.stack,
        site.restoredMemory machine.memory⟩ := by
  simp [resume, restoreFramePointer, shrinkPush, execute, effect, Stacks.swapTop, codeSize,
    Inst.size, restoredMemory, framePointer, fpWord]
  omega

/-- A call whose code is in place: the callee starts at its address with the
arguments and the position of the JUMPDEST below them. -/
theorem runFor_setup (held : Holds code machine.pc site.callSequence)
    (count : arguments.length = site.args)
    (operands : machine.stack = arguments ++ callee :: rest)
    (enterable : code callee.toNat = some .JUMPDEST) :
    runFor code (site.setup.length + 1) machine =
      some ⟨callee.toNat,
        arguments ++ BitVec.ofNat 256 (site.returnPosition machine.pc) :: rest,
        site.enteredMemory machine.memory⟩ := by
  obtain ⟨before, atJump⟩ := holds_append.mp held
  obtain ⟨ran, _⟩ := runFor_of_holds before site.setup_straight (site.run_setup count operands)
  rw [runFor_add, ran, Option.bind_some, runFor, step, atJump.1]
  simp only [jump, enterable, if_true, Option.bind_some, runFor]

theorem jumpdest_of_holds {position : Nat} (held : Holds code position site.callSequence) :
    code (site.returnPosition position) = some .JUMPDEST := by
  obtain ⟨_, _, behind⟩ := holds_append.mp held
  exact behind.1

theorem runFor_resume {position : Nat} {left : List Word}
    (held : Holds code position site.callSequence)
    (small : site.returnPosition position < 2 ^ 256) (returns : code machine.pc = some .JUMP)
    (address : machine.stack = BitVec.ofNat 256 (site.returnPosition position) :: left) :
    step code machine = some ⟨site.returnPosition position, left, machine.memory⟩ ∧
      runFor code (1 + site.resume.length) machine =
        some ⟨site.returnPosition position + codeSize site.resume, left,
          site.restoredMemory machine.memory⟩ := by
  have target : (BitVec.ofNat 256 (site.returnPosition position)).toNat =
      site.returnPosition position := by
    rw [BitVec.toNat_ofNat, Nat.mod_eq_of_lt small]
  have landed : step code machine =
      some ⟨site.returnPosition position, left, machine.memory⟩ := by
    rw [step, returns]
    simp only [jump, address, target, site.jumpdest_of_holds held, if_true]
  refine ⟨landed, ?_⟩
  obtain ⟨_, _, behind⟩ := holds_append.mp held
  obtain ⟨ran, _⟩ := runFor_of_holds behind site.resume_straight
    (site.run_resume ⟨site.returnPosition position, left, machine.memory⟩)
  rw [runFor_add, runFor, landed, Option.bind_some, runFor, Option.bind_some, ran]

end CallSite

end EvmBackend
