/-
The stack machine that runs the emitted code, as far as the call and return
sequences use it: 256-bit words, byte memory, and instructions at byte
positions.

A program gives each position the instruction that starts there, if any. A
jump needs a JUMPDEST at its target. Gas and the growth of memory are left out.
-/

import EvmBackend.Library.ByteMemory
import EvmBackend.Library.Runs
import EvmBackend.Library.Stacks

namespace EvmBackend.EVM

open ByteMemory Function

abbrev Word := BitVec 256

inductive Inst
  | PUSH (bytes : Nat) (imm : Nat)
  | MLOAD
  | MSTORE
  | ADD
  | SUB
  | DUP (index : Nat)
  | SWAP (index : Nat)
  | GETPC
  | JUMP
  | JUMPDEST
  deriving DecidableEq, Repr

def Inst.size : Inst → Nat
  | .PUSH bytes _ => bytes + 1
  | _ => 1

abbrev Code := Nat → Option Inst

structure Machine where
  pc : Nat
  stack : List Word
  memory : Memory

def loadWord (memory : Memory) (address : Word) : Word :=
  BitVec.ofNat 256 (loadBytes memory address.toNat 32)

def storeWord (memory : Memory) (address value : Word) : Memory :=
  storeBytes memory address.toNat 32 value.toNat

/-- What an instruction other than a jump does to the stack and the memory. -/
def effect (inst : Inst) (pc : Nat) (stack : List Word) (memory : Memory) :
    Option (List Word × Memory) :=
  match inst, stack with
  | .PUSH _ imm, stack => some (BitVec.ofNat 256 imm :: stack, memory)
  | .MLOAD, address :: rest => some (loadWord memory address :: rest, memory)
  | .MSTORE, address :: value :: rest => some (rest, storeWord memory address value)
  | .ADD, left :: right :: rest => some ((left + right) :: rest, memory)
  | .SUB, left :: right :: rest => some ((left - right) :: rest, memory)
  | .DUP index, stack => (Stacks.dupTop (index - 1) stack).map (·, memory)
  | .SWAP index, stack => (Stacks.swapTop index stack).map (·, memory)
  | .GETPC, stack => some (BitVec.ofNat 256 pc :: stack, memory)
  | .JUMPDEST, stack => some (stack, memory)
  | _, _ => none

def execute (inst : Inst) (machine : Machine) : Option Machine :=
  (effect inst machine.pc machine.stack machine.memory).map fun after =>
    ⟨machine.pc + inst.size, after.1, after.2⟩

def jump (code : Code) (machine : Machine) : Option Machine :=
  match machine.stack with
  | target :: rest =>
      if code target.toNat = some .JUMPDEST then
        some { machine with pc := target.toNat, stack := rest }
      else none
  | [] => none

def step (code : Code) (machine : Machine) : Option Machine :=
  match code machine.pc with
  | none => none
  | some .JUMP => jump code machine
  | some inst => execute inst machine

def runFor (code : Code) : Nat → Machine → Option Machine
  | 0, machine => some machine
  | count + 1, machine => (step code machine).bind (runFor code count)

def assemble : List Inst → Code
  | [], _ => none
  | inst :: rest, position =>
      if position = 0 then some inst
      else if position < inst.size then none
      else assemble rest (position - inst.size)

/-! ### Code in place -/

def codeSize (insts : List Inst) : Nat := (insts.map Inst.size).sum

/-- The instructions stand one behind the other from the position on. -/
def Holds (code : Code) : Nat → List Inst → Prop
  | _, [] => True
  | position, inst :: rest =>
      code position = some inst ∧ Holds code (position + inst.size) rest

instance decidableHolds (code : Code) :
    ∀ position insts, Decidable (Holds code position insts)
  | _, [] => isTrue trivial
  | position, inst :: rest =>
      haveI := decidableHolds code (position + inst.size) rest
      inferInstanceAs (Decidable (_ ∧ _))

variable {address value : Word} {place : Nat} {code : Code} {memory : Memory}

theorem holds_append {position : Nat} {left right : List Inst} :
    Holds code position (left ++ right) ↔
      Holds code position left ∧ Holds code (position + codeSize left) right := by
  induction left generalizing position with
  | nil => simp [Holds, codeSize]
  | cons first rest ih =>
      simp only [List.cons_append, Holds, ih, codeSize, List.map_cons, List.sum_cons, and_assoc,
        Nat.add_assoc]

theorem runFor_add (left right : Nat) (machine : Machine) :
    runFor code (left + right) machine = (runFor code left machine).bind (runFor code right) := by
  induction left generalizing machine with
  | zero => rw [Nat.zero_add, runFor, Option.bind_some]
  | succ left ih =>
      rw [Nat.succ_add, runFor, runFor, Option.bind_assoc]
      congr 1
      funext next
      exact ih next

theorem execute_pc {inst : Inst} {machine next : Machine} (done : execute inst machine = some next) :
    next.pc = machine.pc + inst.size := by
  obtain ⟨after, _, rfl⟩ := Option.map_eq_some_iff.mp done
  rfl

theorem runFor_of_holds {insts : List Inst} {machine next : Machine}
    (held : Holds code machine.pc insts) (straight : ∀ inst ∈ insts, inst ≠ .JUMP)
    (ran : Runs.run execute insts machine = some next) :
    runFor code insts.length machine = some next ∧ next.pc = machine.pc + codeSize insts := by
  induction insts generalizing machine with
  | nil =>
      cases ran
      exact ⟨rfl, rfl⟩
  | cons inst rest ih =>
      obtain ⟨middle, executed, remaining⟩ := Runs.run_cons_eq_some _ ran
      have advanced := execute_pc executed
      have stepped : step code machine = some middle := by
        have noJump := straight inst List.mem_cons_self
        unfold step
        rw [held.1]
        cases inst <;> first
          | exact executed
          | exact absurd rfl noJump
      have placed : Holds code middle.pc rest := by
        rw [advanced]
        exact held.2
      obtain ⟨later, finished⟩ :=
        ih placed (fun other member => straight other (List.mem_cons_of_mem inst member)) remaining
      refine ⟨?_, ?_⟩
      · rw [List.length_cons, runFor, stepped]
        exact later
      · rw [finished, advanced, codeSize, codeSize, List.map_cons, List.sum_cons, Nat.add_assoc]

theorem loadWord_storeWord_same (memory : Memory) (address value : Word) :
    loadWord (storeWord memory address value) address = value := by
  have fits : value.toNat < 256 ^ 32 := by
    have bounded := value.isLt
    norm_num at bounded ⊢
    exact bounded
  unfold loadWord storeWord
  rw [loadBytes_storeBytes_same fits, BitVec.ofNat_toNat, BitVec.setWidth_eq]

theorem loadWord_storeWord_apart {other : Word} (apart : Apart other.toNat 32 address.toNat 32) :
    loadWord (storeWord memory address value) other = loadWord memory other := by
  unfold loadWord storeWord
  rw [loadBytes_storeBytes_apart apart]

theorem loadWord_congr {left right : Memory}
    (same : ∀ place, address.toNat ≤ place → place < address.toNat + 32 → left place = right place) :
    loadWord left address = loadWord right address := by
  unfold loadWord
  rw [loadBytes_congr same]

theorem storeWord_outside (outside : ¬ (address.toNat ≤ place ∧ place < address.toNat + 32)) :
    storeWord memory address value place = memory place :=
  storeBytes_outside outside

theorem toNat_loadWord (memory : Memory) (address : Word) :
    (loadWord memory address).toNat = loadBytes memory address.toNat 32 := by
  have fits := loadBytes_lt memory address.toNat 32
  unfold loadWord
  rw [BitVec.toNat_ofNat, Nat.mod_eq_of_lt (by norm_num at fits ⊢; exact fits)]

private theorem storeWord_loadWord (memory source : Memory) (address : Word)
    (inside : address.toNat ≤ place ∧ place < address.toNat + 32) :
    storeWord memory address (loadWord source address) place = source place := by
  unfold storeWord
  rw [toNat_loadWord]
  exact storeBytes_loadBytes memory address.toNat 32 place inside

theorem storeWord_loadWord_update (memory : Memory) (address : Word) (byte : BitVec 8)
    (inside : address.toNat ≤ place ∧ place < address.toNat + 32) :
    storeWord memory address (loadWord (update memory place byte) address) =
      update memory place byte := by
  funext other
  by_cases covered : address.toNat ≤ other ∧ other < address.toNat + 32
  · exact storeWord_loadWord memory _ address covered
  · rw [storeWord_outside covered, update_of_ne]
    rintro rfl
    exact covered inside

theorem update_storeWord (byte : BitVec 8)
    (outside : ¬ (address.toNat ≤ place ∧ place < address.toNat + 32)) :
    update (storeWord memory address value) place byte =
      storeWord (update memory place byte) address value := by
  funext other
  by_cases here : other = place
  · rw [here, storeWord_outside outside, update_self, update_self]
  · rw [update_of_ne here]
    unfold storeWord storeBytes
    rw [update_of_ne here]

theorem byte_of_loadWord {left right : Memory}
    (same : loadWord left address = loadWord right address)
    (inside : address.toNat ≤ place ∧ place < address.toNat + 32) : left place = right place := by
  rw [← storeWord_loadWord left left address inside, same, storeWord_loadWord left right address inside]

end EvmBackend.EVM
