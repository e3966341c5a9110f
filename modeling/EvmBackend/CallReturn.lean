/-
Calls and returns over whole executions: with room for every saved frame
pointer, each callee starts with its arguments and the return address, and each
return resumes the caller behind the call with its frame pointer, its stack and
its local slots as they were.

What callees promise is assumed of every step: they store only at or above
their own frame pointer and reach the return with the return address on top.
-/

import EvmBackend.CallProtocol

namespace EvmBackend

open ByteMemory EVM

namespace CallSite

variable (site : CallSite)

def returnedWords : Nat := if site.returnsValue then 1 else 0

structure Ready (code : Code) (machine : Machine) : Prop where
  held : Holds code machine.pc site.callSequence
  small : site.returnPosition machine.pc < 2 ^ 256
  operands : ∃ arguments callee rest, machine.stack = arguments ++ callee :: rest ∧
    arguments.length = site.args ∧ code callee.toNat = some .JUMPDEST

def Enters (code : Code) (machine entered : Machine) : Prop :=
  ∃ arguments callee rest address, machine.stack = arguments ++ callee :: rest ∧
    arguments.length = site.args ∧ entered.pc = callee.toNat ∧
    entered.stack = arguments ++ address :: rest ∧
    address.toNat = site.returnPosition machine.pc ∧ code address.toNat = some .JUMPDEST

/-- The caller's slots are apart from the rest of its frame, and from the
stack-pointer cell, which no return restores. -/
structure SlotsRoom (memory : Memory) : Prop where
  disjoint : site.frame.Disjoint
  offStackPointer : ∀ slot ∈ site.frame.namedSlots,
    Apart ((site.framePointer memory).toNat + site.frame.slotAt slot) 32 (site.fpaddr + 32) 32

end CallSite

namespace Activation

variable (activation : Activation)

def rest : List Word := activation.before.stack.drop (activation.site.args + 1)

def returnPosition : Nat := activation.site.returnPosition activation.before.pc

def InSlot (address : Nat) : Prop :=
  ∃ slot ∈ activation.site.frame.namedSlots,
    activation.pointer + activation.site.frame.slotAt slot ≤ address ∧
      address < activation.pointer + activation.site.frame.slotAt slot + 32

def GuardsSlot (cell address : Nat) : Prop :=
  activation.InSlot address ∧ address < activation.base ∧ ¬ (cell ≤ address ∧ address < cell + 64)

/-- The caller goes on with the returned words on its stack, its frame pointer
and its local slots. -/
structure Resumes (values : List Word) (back : Machine) : Prop where
  stack : back.stack = values ++ activation.rest
  framePointer : activation.site.framePointer back.memory =
    activation.site.framePointer activation.before.memory
  slots : ∀ address, activation.InSlot address →
    back.memory address = activation.before.memory address

end Activation

/-- What the code around a step is taken to do: calls are made with their
operands, a callee stores at or above its frame pointer only, and it returns
with the return address and the returned words on top of the caller's stack. -/
def Assumed (code : Code) : CallStep → CallState → Prop
  | .own after, state => ∀ activation outer, state.active = activation :: outer →
      ∀ address < activation.base, after.memory address = state.machine.memory address
  | .call site, state => site.Ready code state.machine
  | .ret, state => ∃ activation outer values, state.active = activation :: outer ∧
      code state.machine.pc = some .JUMP ∧ values.length = activation.site.returnedWords ∧
      state.machine.stack =
        BitVec.ofNat 256 activation.returnPosition :: (values ++ activation.rest)

/-- The condition on the steps: every function uses the one cell, the saved
word is off the cells, the caller's slots are off the stack-pointer cell and the
rest of the frame, and a callee's own code leaves the frame-pointer cell alone. -/
def KeepsRoom (cell : Nat) : CallStep → CallState → Prop
  | .own after, state => state.active ≠ [] →
      ∀ address, cell ≤ address → address < cell + 32 →
        after.memory address = state.machine.memory address
  | .call site, state => site.fpaddr = cell ∧ site.Room state.machine.memory ∧
      site.SlotsRoom state.machine.memory
  | .ret, _ => True

/-- What the sequences promise: the callee is entered, and a return lands on the
JUMPDEST of its call and resumes the caller. -/
def Promised (code : Code) : CallStep → CallState → Prop
  | .own _, _ => True
  | .call site, state => ∃ next, callStep code (.call site) state = some next ∧
      site.Enters code state.machine next.machine
  | .ret, state => ∃ activation outer values landed next, state.active = activation :: outer ∧
      values.length = activation.site.returnedWords ∧
      step code state.machine = some landed ∧ landed.pc = activation.returnPosition ∧
      landed.stack = values ++ activation.rest ∧
      callStep code .ret state = some next ∧ activation.Resumes values next.machine

section Steps

variable {code : Code} {cell : Nat}

def cellPointer (cell : Nat) (memory : Memory) : Nat :=
  (loadWord memory (BitVec.ofNat 256 cell)).toNat

theorem framePointer_toNat {site : CallSite} (agrees : site.fpaddr = cell) (memory : Memory) :
    (site.framePointer memory).toNat = cellPointer cell memory := by
  rw [CallSite.framePointer, CallSite.fpWord, agrees]
  rfl

/-- The chain of active calls, their cells and their slots. -/
structure Protocol (code : Code) (cell : Nat) (state : CallState) : Prop where
  linked : Linked code cell (Activation.GuardsSlot · cell) state.machine.memory
    (cellPointer cell state.machine.memory) state.active
  slots : ∀ activation ∈ state.active, activation.site.SlotsRoom activation.before.memory

theorem Protocol.start (machine : Machine) : Protocol code cell ⟨machine, []⟩ := by
  constructor
  · trivial
  · intro activation absent
    cases absent

theorem Protocol.own {state : CallState} {after : Machine} (holds : Protocol code cell state)
    (assumed : Assumed code (.own after) state) (room : KeepsRoom cell (.own after) state) :
    Protocol code cell { state with machine := after } := by
  refine ⟨?_, holds.slots⟩
  cases active : state.active with
  | nil => trivial
  | cons activation outer =>
      have linked := holds.linked
      rw [active] at linked
      have isBase : cellPointer cell state.machine.memory = activation.base := linked.1
      have cellSmall : cell + 64 ≤ 2 ^ 32 := by
        have small := linked.2.1.room.cells
        rw [linked.2.1.agrees] at small
        exact small
      have pointer : cellPointer cell after.memory = cellPointer cell state.machine.memory := by
        unfold cellPointer
        rw [loadWord_congr]
        rw [BitVec.toNat_ofNat, Nat.mod_eq_of_lt (by omega)]
        exact room (by rw [active]; simp)
      change Linked code cell _ after.memory (cellPointer cell after.memory) (activation :: outer)
      rw [pointer]
      apply linked.congr
      intro other member address held
      obtain ⟨entered, below⟩ := linked.entered member
      apply assumed activation outer active
      rw [isBase] at below
      rcases held with saved | guarded
      · exact Nat.lt_of_lt_of_le (entered.savedWord_below saved) below
      · exact Nat.lt_of_lt_of_le guarded.2.1 below

/-- The parts of the caller's slots off the frame-pointer cell are guarded, and
hold what they held before the sequence. -/
theorem Activation.guards_of_slot {activation : Activation}
    (entered : activation.Entered code cell)
    (slots : activation.site.SlotsRoom activation.before.memory) {address : Nat}
    (inside : activation.InSlot address) (offCell : ¬ (cell ≤ address ∧ address < cell + 32)) :
    activation.GuardsSlot cell address ∧
      activation.site.enteredMemory activation.before.memory address =
        activation.before.memory address := by
  obtain ⟨slot, named, above, below⟩ := id inside
  have agrees := entered.agrees
  have callee := (slots.disjoint.calleeAbove activation.site.calls).2.1 slot named
  have saved := slots.disjoint.savedOffSlots activation.site.calls slot named
  have stackPointer := slots.offStackPointer slot named
  unfold Activation.pointer at above below
  unfold Apart at saved stackPointer
  have offCells : ¬ (cell ≤ address ∧ address < cell + 64) := by omega
  refine ⟨⟨inside, ?_, offCells⟩, entered.room.enteredMemory_outside ?_ ?_⟩
  · unfold Activation.base CallSite.calleeBase
    omega
  · unfold CallSite.savedAddress
    omega
  · rw [agrees]
    exact offCells

theorem call_promised {site : CallSite} {state : CallState} (holds : Protocol code cell state)
    (ready : site.Ready code state.machine)
    (room : KeepsRoom cell (.call site) state) :
    ∃ next, callStep code (.call site) state = some next ∧
      site.Enters code state.machine next.machine ∧ Protocol code cell next := by
  obtain ⟨agrees, hasRoom, slotsRoom⟩ := room
  obtain ⟨arguments, callee, rest, operands, count, enterable⟩ := ready.operands
  have target : (BitVec.ofNat 256 (site.returnPosition state.machine.pc)).toNat =
      site.returnPosition state.machine.pc := by
    rw [BitVec.toNat_ofNat, Nat.mod_eq_of_lt ready.small]
  have stepped : callStep code (.call site) state =
      some ⟨⟨callee.toNat,
        arguments ++ BitVec.ofNat 256 (site.returnPosition state.machine.pc) :: rest,
        site.enteredMemory state.machine.memory⟩, ⟨site, state.machine⟩ :: state.active⟩ := by
    rw [callStep, if_pos ready.held, site.runFor_setup ready.held count operands enterable]
    rfl
  refine ⟨_, stepped, ?_, ?_⟩
  · refine ⟨arguments, callee, rest, _, operands, count, rfl, rfl, target, ?_⟩
    rw [target]
    exact site.jumpdest_of_holds ready.held
  · have linked := holds.linked
    rw [← framePointer_toNat agrees] at linked
    have entered : (Activation.mk site state.machine).Entered code cell :=
      ⟨ready.held, ready.small, agrees, hasRoom⟩
    constructor
    · rw [← framePointer_toNat agrees]
      apply linked.call entered
      intro activation member address guarded
      exact ⟨Nat.lt_of_lt_of_le guarded.2.1 (linked.entered member).2, guarded.2.2⟩
    · intro activation member
      rcases List.mem_cons.mp member with here | earlier
      · rw [here]
        exact slotsRoom
      · exact holds.slots activation earlier

theorem ret_promised {state : CallState} (holds : Protocol code cell state)
    (assumed : Assumed code .ret state) :
    Promised code .ret state ∧
      ∀ next, callStep code .ret state = some next → Protocol code cell next := by
  obtain ⟨activation, outer, values, active, returns, count, stack⟩ := assumed
  have linked := holds.linked
  rw [active] at linked
  have entered := linked.2.1
  have agrees := entered.agrees
  rw [← framePointer_toNat agrees] at linked
  have slotsRoom := holds.slots activation (by rw [active]; exact List.mem_cons_self)
  obtain ⟨landed, ran⟩ := activation.site.runFor_resume entered.held entered.small returns stack
  obtain ⟨restored, rest⟩ := linked.ret (fun other member address guarded => by
    have off := guarded.2.2
    omega)
  have resumed : callStep code .ret state =
      some ⟨⟨activation.returnPosition + codeSize activation.site.resume,
        values ++ activation.rest, activation.site.restoredMemory state.machine.memory⟩, outer⟩ := by
    rw [callStep, active]
    simp only [ran, Option.map_some]
    rfl
  refine ⟨⟨activation, outer, values, _, _, active, count, landed, rfl, rfl, resumed,
    ⟨rfl, restored, fun address inside => ?_⟩⟩, fun next stepped => ?_⟩
  · by_cases inCell : cell ≤ address ∧ address < cell + 32
    · -- the cell is not guarded, but the return puts its word back
      apply byte_of_loadWord restored
      rw [entered.room.fpWord_toNat, agrees]
      exact inCell
    · obtain ⟨guarded, before⟩ := Activation.guards_of_slot entered slotsRoom inside inCell
      have kept := linked.2.2.1 address (Or.inr guarded)
      have outside : activation.site.restoredMemory state.machine.memory address =
          state.machine.memory address := by
        apply CallSite.restoredMemory_outside entered.room.cells
        rw [agrees]
        exact inCell
      exact outside.trans (kept.trans before)
  · rw [resumed] at stepped
    cases stepped
    constructor
    · rw [← framePointer_toNat agrees, restored]
      exact rest
    · intro other member
      exact holds.slots other (by rw [active]; exact List.mem_cons_of_mem activation member)

end Steps

/-- In every execution whose callees behave and whose calls have room for the
saved frame pointer, every call and every return does what it should. -/
theorem calls_enter_and_return (code : Code) (cell : Nat) (machine : Machine)
    (steps : List CallStep)
    (assumed : Runs.EveryStep (callStep code) (Assumed code) steps ⟨machine, []⟩)
    (room : Runs.EveryStep (callStep code) (KeepsRoom cell) steps ⟨machine, []⟩) :
    Runs.EveryStep (callStep code) (Promised code) steps ⟨machine, []⟩ := by
  apply Runs.everyStep_of_invariant (Protocol code cell) _ _ (assumed.and room)
    (Protocol.start machine)
  · intro first state next conditions holds stepped
    cases first with
    | own after =>
        cases stepped
        exact holds.own conditions.1 conditions.2
    | call site =>
        obtain ⟨entered, done, _, kept⟩ := call_promised holds conditions.1 conditions.2
        rw [done] at stepped
        cases stepped
        exact kept
    | ret => exact (ret_promised holds conditions.1).2 next stepped
  · intro first state conditions holds
    cases first with
    | own after => trivial
    | call site =>
        obtain ⟨entered, done, enters, _⟩ := call_promised holds conditions.1 conditions.2
        exact ⟨entered, done, enters⟩
    | ret => exact (ret_promised holds conditions.1).1

/-! ### One call without arguments -/

def registerlessFunction : MachineFunction where
  blocks := [⟨[⟨.inst 0xfe, none, []⟩], [], []⟩]
  getInterval := fun _ => ⟨[(⟨0, 2, 2⟩, ⟨0, 2, 3⟩)], by simp⟩
  hasEntry := by simp
  edges := by decide
  nonzero := by decide

def emptyFrame : CompiledFrame where
  function := registerlessFunction
  frameInfo := ⟨[], 0, true, 0, false, false⟩
  makesCalls := true
  slots := .atO0 ⟨⟨[], 0⟩, []⟩ (by decide)
  callsAdjust := fun _ => rfl

/-- A call to a function without arguments and result; there are no globals, so
the cell is at address 0. -/
def plainCall : CallSite := ⟨emptyFrame, rfl, 0, 0, false, by decide⟩

def plainCode : Code := assemble (plainCall.callSequence ++ [.JUMPDEST, .JUMP])

def plainStart (memory : Memory) : CallState := ⟨⟨0, [39], memory⟩, []⟩

def plainSteps (memory : Memory) : List CallStep :=
  [.call plainCall, .own ⟨40, [27], plainCall.enteredMemory memory⟩, .ret]

theorem plainCall_returnPosition : plainCall.returnPosition 0 = 27 := by decide

theorem plainCall_ready (memory : Memory) : plainCall.Ready plainCode ⟨0, [39], memory⟩ := by
  constructor
  · change Holds plainCode 0 plainCall.callSequence
    decide
  · change plainCall.returnPosition 0 < 2 ^ 256
    rw [plainCall_returnPosition]
    decide
  · exact ⟨[], 39, [], rfl, rfl, by decide⟩

theorem plainCall_entered (memory : Memory) :
    callStep plainCode (.call plainCall) (plainStart memory) =
      some ⟨⟨39, [27], plainCall.enteredMemory memory⟩, [⟨plainCall, ⟨0, [39], memory⟩⟩]⟩ := by
  have ready := plainCall_ready memory
  have enterable : plainCode (39 : Word).toNat = some .JUMPDEST := by decide
  have count : ([] : List Word).length = plainCall.args := rfl
  have ran := plainCall.runFor_setup ready.held count rfl enterable
  rw [callStep, plainStart, if_pos ready.held, ran, plainCall_returnPosition]
  rfl

theorem plainSteps_assumed (memory : Memory) :
    Runs.EveryStep (callStep plainCode) (Assumed plainCode) (plainSteps memory)
      (plainStart memory) := by
  refine ⟨plainCall_ready memory, fun next called => ?_⟩
  rw [plainCall_entered] at called
  cases called
  refine ⟨fun activation outer _ address _ => rfl, fun back went => ?_⟩
  cases went
  refine ⟨⟨_, [], [], rfl, ?_, rfl, ?_⟩, fun _ _ => trivial⟩
  · change plainCode 40 = some .JUMP
    decide
  · change [27] = BitVec.ofNat 256 (plainCall.returnPosition 0) :: [39].drop 1
    rw [plainCall_returnPosition]
    rfl

theorem emptyFrame_stackSize : emptyFrame.stackSize = 0 := by decide

theorem emptyFrame_fits : emptyFrame.Fits := by
  constructor
  · rw [emptyFrame_stackSize]
    norm_num
  · intro slot absent
    cases absent
  · intro _
    rw [emptyFrame_stackSize]
    decide

def memoryWithPointer (pointer : Nat) : Memory := storeWord (fun _ => 0) 0 (BitVec.ofNat 256 pointer)

/-- With the frame pointer above the cells, the call and its return do what they
should. -/
theorem plainSteps_promised :
    Runs.EveryStep (callStep plainCode) (Promised plainCode) (plainSteps (memoryWithPointer 96))
      (plainStart (memoryWithPointer 96)) := by
  have pointer : plainCall.framePointer (memoryWithPointer 96) = 96 :=
    loadWord_storeWord_same _ _ _
  have room : plainCall.Room (memoryWithPointer 96) := by
    refine ⟨by decide, emptyFrame_fits, ?_, ?_⟩
    · rw [CallSite.calleeBase, pointer]
      decide
    · rw [CallSite.savedAddress, pointer]
      decide
  have slots : plainCall.SlotsRoom (memoryWithPointer 96) := by
    refine ⟨CompiledFrame.disjoint_of_words emptyFrame_fits ?_ ?_, fun slot absent => ?_⟩
    · intro leaf
      cases leaf
    · intro _ slot absent
      cases absent
    · cases absent
  apply calls_enter_and_return plainCode 0 _ _ (plainSteps_assumed _)
  refine ⟨⟨rfl, room, slots⟩, fun next called => ?_⟩
  refine ⟨fun _ address _ _ => ?_, fun back went => ⟨trivial, fun _ _ => trivial⟩⟩
  change plainCall.enteredMemory (memoryWithPointer 96) address = _
  have entered := (plainCall_entered (memoryWithPointer 96)).symm.trans called
  cases entered
  rfl

/-- From zero memory the saved word is the stack-pointer cell, so the return
finds the callee's frame pointer there. -/
theorem plainSteps_not_promised :
    Runs.EveryStep (callStep plainCode) (Assumed plainCode) (plainSteps (fun _ => 0))
      (plainStart (fun _ => 0)) ∧
    ¬ Runs.EveryStep (callStep plainCode) (Promised plainCode) (plainSteps (fun _ => 0))
      (plainStart (fun _ => 0)) := by
  refine ⟨plainSteps_assumed _, fun promised => ?_⟩
  have atReturn := ((promised.2 _ (plainCall_entered _)).2 _ rfl).1
  obtain ⟨activation, outer, values, landed, next, active, _, _, _, _, stepped, resumes⟩ := atReturn
  cases active
  have ready := plainCall_ready (fun _ => 0)
  have address : ([27] : List Word) = BitVec.ofNat 256 (plainCall.returnPosition 0) :: [] := by
    rw [plainCall_returnPosition]
    rfl
  have returns : plainCode 40 = some .JUMP := by decide
  have ran : runFor plainCode (1 + plainCall.resume.length)
      ⟨40, [27], plainCall.enteredMemory (fun _ => 0)⟩ = _ :=
    (plainCall.runFor_resume ready.held ready.small returns address).2
  rw [callStep] at stepped
  simp only [ran, Option.map_some, Option.some.injEq] at stepped
  have restored := resumes.framePointer
  rw [← stepped] at restored
  revert restored
  change ¬ plainCall.framePointer (plainCall.restoredMemory (plainCall.enteredMemory (fun _ => 0))) =
    plainCall.framePointer (fun _ => 0)
  decide +kernel

end EvmBackend
