/-
The reserved cells and the slots of globals under the stores to local slots.

Every address of a local is the content of the frame-pointer cell plus an
offset, and the compiler does not initialise that cell: started with zero
memory, an entry function that does not do so itself runs with frame pointer 0,
on top of the globals and the cells. Its callees run above its frame.
-/

import EvmBackend.CallReturn
import EvmBackend.GlobalSlots

namespace EvmBackend

open ByteMemory EVM

def expandLOCAL (frame : CompiledFrame) (fpaddr slot : Nat) : List Inst :=
  [.PUSH 32 fpaddr, .MLOAD, .PUSH 32 (frame.slotAt slot), .ADD, .MSTORE].map shrinkPush

def localAddress (frame : CompiledFrame) (fpaddr slot : Nat) (memory : Memory) : Word :=
  BitVec.ofNat 256 (frame.slotAt slot) + loadWord memory (BitVec.ofNat 256 fpaddr)

theorem run_expandLOCAL (frame : CompiledFrame) (fpaddr slot : Nat) {machine : Machine}
    {value : Word} {rest : List Word} (operand : machine.stack = value :: rest) :
    Runs.run execute (expandLOCAL frame fpaddr slot) machine =
      some ⟨machine.pc + codeSize (expandLOCAL frame fpaddr slot), rest,
        storeWord machine.memory (localAddress frame fpaddr slot machine.memory) value⟩ := by
  simp [expandLOCAL, shrinkPush, execute, effect, codeSize, Inst.size, operand, localAddress]
  omega

inductive ModuleStep
  | putLocal (frame : CompiledFrame) (fpaddr slot : Nat)
  | other (step : CallStep)

def moduleStep (code : Code) : ModuleStep → CallState → Option CallState
  | .putLocal frame fpaddr slot, state =>
      if EVM.Holds code state.machine.pc (expandLOCAL frame fpaddr slot) then
        (runFor code (expandLOCAL frame fpaddr slot).length state.machine).map fun after =>
          { state with machine := after }
      else none
  | .other step, state => callStep code step state

variable {next : CallState} {frame : CompiledFrame} {slot : Nat}

theorem moduleStep_putLocal {code : Code} {fpaddr : Nat} {state : CallState} {value : Word}
    {rest : List Word} (operand : state.machine.stack = value :: rest)
    (done : moduleStep code (.putLocal frame fpaddr slot) state = some next) :
    next.active = state.active ∧
      next.machine.memory =
        storeWord state.machine.memory (localAddress frame fpaddr slot state.machine.memory) value := by
  rw [moduleStep] at done
  by_cases held : EVM.Holds code state.machine.pc (expandLOCAL frame fpaddr slot)
  · have straight : ∀ inst ∈ expandLOCAL frame fpaddr slot, inst ≠ .JUMP := by
      simp [expandLOCAL, shrinkPush]
    obtain ⟨ran, _⟩ := runFor_of_holds held straight (run_expandLOCAL frame fpaddr slot operand)
    rw [if_pos held, ran] at done
    cases done
    exact ⟨rfl, rfl⟩
  · rw [if_neg held] at done
    cases done

/-! ### Executions of a module -/

def moduleCells (references : List GlobalAddressSDNode) : EVMDAGToDAGISel :=
  (EVMDAGToDAGISel.selectAll references EVMDAGToDAGISel.fresh).1

/-- A store to a local slot is off the two cells and off every slot of a global. -/
def LeavesReserved (pass : EVMDAGToDAGISel) : ModuleStep → CallState → Prop
  | .putLocal frame fpaddr slot, state =>
      Apart (localAddress frame fpaddr slot state.machine.memory).toNat 32 pass.getFramePointer 32 ∧
      Apart (localAddress frame fpaddr slot state.machine.memory).toNat 32 pass.getStackPointer 32 ∧
      ∀ entry ∈ pass.GlobalSlots,
        Apart (localAddress frame fpaddr slot state.machine.memory).toNat 32 entry.2 32
  | .other _, _ => True

/-- How compiled code runs: a store finds its value on the stack, a call its
operands, and a return goes back to the innermost call. -/
def FollowsCode (code : Code) : ModuleStep → CallState → Prop
  | .putLocal _ _ _, state => state.machine.stack ≠ []
  | .other (.own _), _ => True
  | .other (.call site), state => site.Ready code state.machine
  | .other .ret, state => ∃ activation outer left, state.active = activation :: outer ∧
      code state.machine.pc = some .JUMP ∧
      state.machine.stack = BitVec.ofNat 256 activation.returnPosition :: left

/-- The condition on the steps. All functions use the one cell and no address
wraps. In the entry function, where no call is active, the slots stored to and
the saved word of a call lie behind the cells, wherever the function has set the
frame pointer. Other stores of the functions it calls spare the frame-pointer
cell, and no other store changes a saved frame pointer. -/
def EntryAbove (cell : Nat) : ModuleStep → CallState → Prop
  | .putLocal frame fpaddr slot, state => fpaddr = cell ∧
      cellPointer cell state.machine.memory + frame.slotAt slot < 2 ^ 256 ∧
      (state.active = [] → cell + 64 ≤ cellPointer cell state.machine.memory + frame.slotAt slot)
  | .other (.own after), state => ∀ address,
      (state.active ≠ [] ∧ cell ≤ address ∧ address < cell + 32) ∨
        (∃ activation ∈ state.active, activation.InSavedWord address) →
        after.memory address = state.machine.memory address
  | .other (.call site), state => site.fpaddr = cell ∧ site.frame.Fits ∧
      site.calleeBase state.machine.memory < 2 ^ 256 ∧
      (state.active = [] →
        cell + 64 ≤ cellPointer cell state.machine.memory + site.frame.savedAt)
  | .other .ret, _ => True

/-- The frame pointer of every called function is behind the cells; the entry
function may have any. -/
def Rooted (cell : Nat) : Nat → List Activation → Prop
  | _, [] => True
  | pointer, activation :: outer => cell + 64 ≤ pointer ∧ Rooted cell activation.pointer outer

/-- Saved frame pointers are in place, and every frame pointer is as it should be. -/
structure Grounded (code : Code) (cell : Nat) (state : CallState) : Prop where
  linked : Linked code cell (fun _ _ => False) state.machine.memory
    (cellPointer cell state.machine.memory) state.active
  rooted : Rooted cell (cellPointer cell state.machine.memory) state.active

section Steps

variable {code : Code} {cell : Nat} {state : CallState}

theorem Rooted.above {pointer offset : Nat} {active : List Activation}
    (rooted : Rooted cell pointer active) (entry : active = [] → cell + 64 ≤ pointer + offset) :
    cell + 64 ≤ pointer + offset := by
  cases active with
  | nil => exact entry rfl
  | cons activation outer =>
      have above := rooted.1
      omega

theorem Grounded.start (machine : Machine) : Grounded code cell ⟨machine, []⟩ :=
  ⟨trivial, trivial⟩

theorem Grounded.congr {after : Machine} (small : cell + 64 ≤ 2 ^ 32)
    (holds : Grounded code cell state)
    (cellKept : state.active ≠ [] → ∀ address, cell ≤ address → address < cell + 32 →
      after.memory address = state.machine.memory address)
    (savedKept : ∀ activation ∈ state.active, ∀ address, activation.InSavedWord address →
      after.memory address = state.machine.memory address) :
    Grounded code cell { state with machine := after } := by
  by_cases entry : state.active = []
  · obtain ⟨machine, active⟩ := state
    cases entry
    exact Grounded.start after
  have pointer : cellPointer cell after.memory = cellPointer cell state.machine.memory := by
    unfold cellPointer
    rw [loadWord_congr]
    rw [BitVec.toNat_ofNat, Nat.mod_eq_of_lt (by omega)]
    exact cellKept entry
  constructor
  · change Linked code cell _ after.memory (cellPointer cell after.memory) state.active
    rw [pointer]
    apply holds.linked.congr
    rintro activation member address (saved | absent)
    · exact savedKept activation member address saved
    · exact absent.elim
  · change Rooted cell (cellPointer cell after.memory) state.active
    rw [pointer]
    exact holds.rooted

theorem localAddress_toNat {memory : Memory}
    (small : cellPointer cell memory + frame.slotAt slot < 2 ^ 256) :
    (localAddress frame cell slot memory).toNat = cellPointer cell memory + frame.slotAt slot := by
  unfold cellPointer at small ⊢
  rw [localAddress, BitVec.toNat_add, BitVec.toNat_ofNat,
    Nat.mod_eq_of_lt (a := frame.slotAt slot) (by omega), Nat.mod_eq_of_lt (by omega), Nat.add_comm]

theorem Grounded.putLocal {fpaddr : Nat} (cellSmall : cell + 64 ≤ 2 ^ 32)
    (holds : Grounded code cell state)
    (follows : FollowsCode code (.putLocal frame fpaddr slot) state)
    (above : EntryAbove cell (.putLocal frame fpaddr slot) state)
    (done : moduleStep code (.putLocal frame fpaddr slot) state = some next) :
    Grounded code cell next := by
  obtain ⟨rfl, small, entry⟩ := above
  obtain ⟨value, rest, operand⟩ := List.exists_cons_of_ne_nil follows
  obtain ⟨sameActive, stored⟩ := moduleStep_putLocal operand done
  have behind := holds.rooted.above entry
  have place := localAddress_toNat small
  have kept : Grounded code fpaddr { state with machine := next.machine } := by
    apply holds.congr cellSmall
    · intro _ address _ inside
      rw [stored]
      apply storeWord_outside
      omega
    · intro activation member address saved
      obtain ⟨entered, below⟩ := holds.linked.entered member
      have lower := entered.savedWord_below saved
      rw [stored]
      apply storeWord_outside
      omega
  rw [← sameActive] at kept
  exact kept

theorem Grounded.call {site : CallSite} (cellSmall : cell + 64 ≤ 2 ^ 32)
    (holds : Grounded code cell state) (ready : site.Ready code state.machine)
    (above : EntryAbove cell (.other (.call site)) state)
    (done : callStep code (.call site) state = some next) : Grounded code cell next := by
  obtain ⟨agrees, fits, addresses, entry⟩ := above
  obtain ⟨arguments, callee, rest, operands, count, enterable⟩ := ready.operands
  have pointer := framePointer_toNat agrees state.machine.memory
  have behind := holds.rooted.above entry
  have room : site.Room state.machine.memory := by
    refine ⟨by omega, fits, addresses, ?_⟩
    unfold Apart CallSite.savedAddress
    omega
  have entered : (Activation.mk site state.machine).Entered code cell :=
    ⟨ready.held, ready.small, agrees, room⟩
  rw [callStep, if_pos ready.held, site.runFor_setup ready.held count operands enterable] at done
  cases done
  have linked := holds.linked
  rw [← pointer] at linked
  constructor
  · rw [← framePointer_toNat agrees]
    apply linked.call entered
    intro activation _ address absent
    exact absent.elim
  · rw [← framePointer_toNat agrees, room.framePointer_entered, room.calleePointer_toNat]
    refine ⟨?_, ?_⟩
    · have next := room.calleeAt_eq
      unfold CallSite.calleeBase
      omega
    · unfold Activation.pointer
      rw [pointer]
      exact holds.rooted

theorem Grounded.ret (holds : Grounded code cell state)
    (follows : FollowsCode code (.other .ret) state) (done : callStep code .ret state = some next) :
      Grounded code cell next := by
  obtain ⟨activation, outer, left, active, returns, stack⟩ := follows
  have linked := holds.linked
  have rooted := holds.rooted
  rw [active] at linked rooted
  have entered := linked.2.1
  have agrees := entered.agrees
  rw [← framePointer_toNat agrees] at linked
  obtain ⟨_, ran⟩ := activation.site.runFor_resume entered.held entered.small returns stack
  obtain ⟨restored, rest⟩ := linked.ret (fun _ _ _ absent => absent.elim)
  rw [callStep, active] at done
  simp only [ran, Option.map_some, Option.some.injEq] at done
  rw [← done]
  constructor
  · rw [← framePointer_toNat agrees, restored]
    exact rest
  · rw [← framePointer_toNat agrees, restored]
    exact rooted.2

theorem moduleStep_grounded {step : ModuleStep} (cellSmall : cell + 64 ≤ 2 ^ 32)
    (holds : Grounded code cell state) (follows : FollowsCode code step state)
    (above : EntryAbove cell step state) (done : moduleStep code step state = some next) :
    Grounded code cell next := by
  cases step with
  | putLocal frame fpaddr slot => exact holds.putLocal cellSmall follows above done
  | other step =>
      cases step with
      | own after =>
          cases done
          apply holds.congr cellSmall
          · intro called address first last
            exact above address (Or.inl ⟨called, first, last⟩)
          · intro activation member address saved
            exact above address (Or.inr ⟨activation, member, saved⟩)
      | call site => exact holds.call cellSmall follows above done
      | ret => exact holds.ret follows done

end Steps

theorem moduleCells_layout {references : List GlobalAddressSDNode}
    (few : (nodesMet references).length + 1 < 2 ^ 27) :
    (moduleCells references).getFramePointer + 64 ≤ 2 ^ 32 ∧
      (moduleCells references).getStackPointer = (moduleCells references).getFramePointer + 32 ∧
      ∀ entry ∈ (moduleCells references).GlobalSlots,
        entry.2 + 32 ≤ (moduleCells references).getFramePointer := by
  have holds : (moduleCells references).Holds (nodesMet references) :=
    (EVMDAGToDAGISel.selectAll_holds EVMDAGToDAGISel.fresh_holds references).1
  unfold EVMDAGToDAGISel.getStackPointer EVMDAGToDAGISel.getFramePointer unsigned
  rw [holds.count]
  refine ⟨by omega, by omega, fun entry member => ?_⟩
  rw [holds.slots] at member
  obtain ⟨⟨node, index⟩, listed, rfl⟩ := List.mem_map.mp member
  have below := List.snd_lt_of_mem_zipIdx listed
  unfold unsigned
  simp only at below ⊢
  omega

/-- In every execution whose entry function keeps its slots and saved words
behind the cells, no store to a local slot reaches a cell or a global, at any
call depth. -/
theorem localStores_leave_reserved (code : Code) (references : List GlobalAddressSDNode)
    (few : (nodesMet references).length + 1 < 2 ^ 27) (machine : Machine)
    (steps : List ModuleStep)
    (follows : Runs.EveryStep (moduleStep code) (FollowsCode code) steps ⟨machine, []⟩)
    (above : Runs.EveryStep (moduleStep code)
      (EntryAbove (moduleCells references).getFramePointer) steps ⟨machine, []⟩) :
    Runs.EveryStep (moduleStep code) (LeavesReserved (moduleCells references)) steps
      ⟨machine, []⟩ := by
  obtain ⟨cellSmall, stackPointer, globals⟩ := moduleCells_layout few
  apply Runs.everyStep_of_invariant (Grounded code (moduleCells references).getFramePointer) _ _
    (follows.and above) (Grounded.start machine)
  · intro first state next conditions holds stepped
    exact moduleStep_grounded cellSmall holds conditions.1 conditions.2 stepped
  · intro first state conditions holds
    cases first with
    | putLocal frame fpaddr slot =>
        obtain ⟨rfl, small, entry⟩ := conditions.2
        have behind := holds.rooted.above entry
        have place := localAddress_toNat small
        simp only [LeavesReserved, stackPointer, place]
        refine ⟨?_, ?_, fun slotEntry member => ?_⟩
        · unfold Apart
          omega
        · unfold Apart
          omega
        · have lower := globals slotEntry member
          unfold Apart
          omega
    | other step => trivial

/-- An entry function that keeps one constant: `r1 := 1; sstore r1 r1`. -/
def constantEntry : MachineFunction where
  blocks := [⟨[⟨.inst 0x60, some 1, [.imm 1]⟩, ⟨.inst 0x55, none, [.reg 1, .reg 1]⟩], [], []⟩]
  getInterval := fun _ => CompiledFrame.firstToSecond
  hasEntry := by simp
  edges := by decide
  nonzero := by decide

/-- Its frame at -O0, with the given frame objects and one slot. -/
def constantFrame : List FrameObject → CompiledFrame :=
  CompiledFrame.leafFrame constantEntry (.atO0 ⟨⟨[(1, 0)], 0⟩, [0, 0, 0]⟩ (by decide))

def constantCode (objects : List FrameObject) : Code :=
  assemble (expandLOCAL (constantFrame objects) 0 0)

def constantSteps (objects : List FrameObject) : List ModuleStep :=
  [.putLocal (constantFrame objects) 0 0]

def constantStart : CallState := ⟨⟨0, [1], fun _ => 0⟩, []⟩

theorem constantSteps_follow (objects : List FrameObject) :
    Runs.EveryStep (moduleStep (constantCode objects)) (FollowsCode (constantCode objects))
      (constantSteps objects) constantStart :=
  ⟨List.cons_ne_nil _ _, fun _ _ => trivial⟩

/-- Two words of frame objects move the slot behind the cells. -/
theorem constantSteps_leave_reserved :
    Runs.EveryStep (moduleStep (constantCode [⟨64, 3⟩])) (LeavesReserved (moduleCells []))
      (constantSteps [⟨64, 3⟩]) constantStart := by
  apply localStores_leave_reserved _ [] (by decide) _ _ (constantSteps_follow _)
  refine ⟨⟨rfl, ?_, fun _ => ?_⟩, fun _ _ => trivial⟩
  · decide +kernel
  · decide +kernel

/-- Without frame objects the slot is at address 0, which is the frame-pointer
cell. -/
theorem constantSteps_overwrite_cell :
    (moduleStep (constantCode []) (.putLocal (constantFrame []) 0 0) constantStart).isSome = true ∧
      Runs.EveryStep (moduleStep (constantCode [])) (FollowsCode (constantCode []))
        (constantSteps []) constantStart ∧
      ¬ Runs.EveryStep (moduleStep (constantCode [])) (LeavesReserved (moduleCells []))
        (constantSteps []) constantStart := by
  refine ⟨by decide, constantSteps_follow [], fun leaves => ?_⟩
  have apart := leaves.1.1
  revert apart
  decide +kernel

end EvmBackend
