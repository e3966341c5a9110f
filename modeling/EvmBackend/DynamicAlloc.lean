/-
Dynamic allocations, in executions with calls nested to any depth.

The generic expansion of a dynamic allocation subtracts the size from the
stack-pointer cell and returns the difference: it allocates downwards. Frames
grow upwards, and a call sets the stack-pointer cell to the start of the
callee's frame, so what a callee allocates lies on its caller's frame. No
return puts the stack pointer back.
-/

import EvmBackend.CallReturn
import EvmBackend.Library.WordRange

namespace EvmBackend

open ByteMemory EVM List BitVec

/-- The constant is made from a 64-bit number and has no bits above them. -/
def alignMask (align : Nat) : Word := BitVec.ofNat 256 (2 ^ 64 - align)

/-- The new stack pointer and at once the address of the allocation. The stack
alignment is 32. -/
def expandDYNAMIC_STACKALLOC (stackPointer size : Word) (align : Nat) : Word :=
  if 32 < align then (stackPointer - size) &&& alignMask align else stackPointer - size

def alignPadding (stackPointer size : Word) (align : Nat) : Nat :=
  if 32 < align then ((stackPointer - size) &&& ~~~ alignMask align).toNat else 0

theorem and_toNat_add_not (value mask : Word) :
    (value &&& mask).toNat + (value &&& ~~~ mask).toNat = value.toNat := by
  have apart : (value &&& mask) &&& (value &&& ~~~ mask) = 0 := by
    ext index
    simp
    tauto
  have whole : (value &&& mask) + (value &&& ~~~ mask) = value := by
    rw [add_eq_or_of_and_eq_zero _ _ apart, ← and_or_distrib_left,
      or_not_self, and_allOnes]
  rw [← toNat_add_of_and_eq_zero apart, whole]

theorem expandDYNAMIC_STACKALLOC_toNat {stackPointer size : Word} (align : Nat)
    (fits : size.toNat ≤ stackPointer.toNat) :
    (expandDYNAMIC_STACKALLOC stackPointer size align).toNat + size.toNat +
      alignPadding stackPointer size align = stackPointer.toNat := by
  have difference : (stackPointer - size).toNat = stackPointer.toNat - size.toNat :=
    BitVec.toNat_sub_of_le (by simpa [le_def] using fits)
  unfold expandDYNAMIC_STACKALLOC alignPadding
  by_cases larger : 32 < align
  · rw [if_pos larger, if_pos larger]
    have split := and_toNat_add_not (stackPointer - size) (alignMask align)
    omega
  · rw [if_neg larger, if_neg larger]
    omega

/-! ### Executions -/

abbrev Block := WordRange 256

def CompiledFrame.parts (frame : CompiledFrame) (base : Word) : List Block :=
  ⟨base, BitVec.ofNat 256 frame.stackSize⟩ ::
    frame.namedSlots.map fun slot => ⟨base + BitVec.ofNat 256 (frame.slotAt slot), 32⟩

/-- An active function: its frame, the address it uses for the frame-pointer
cell, the frame pointer it was entered with, the allocations it has made, and
how far they have moved the stack pointer down. -/
structure ActiveFrame where
  frame : CompiledFrame
  fpaddr : Nat
  base : Word
  blocks : List Block
  taken : Nat

def ActiveFrame.parts (active : ActiveFrame) : List Block := active.frame.parts active.base

/-- A function that waits for a call to return, and the memory before the call. -/
structure SuspendedCall where
  caller : ActiveFrame
  site : CallSite
  before : Memory

structure DynamicState where
  memory : Memory
  running : ActiveFrame
  callers : List SuspendedCall

/-- The running function stores to memory, allocates, calls a function, or
returns. -/
inductive DynamicStep
  | own (after : Memory)
  | allocate (size : Word) (align : Nat)
  | call (callee : CompiledFrame) (fpaddr : Nat) (args : Fin 16) (returnsValue : Bool)
  | ret

def stackPointerCell (fpaddr : Nat) : Word := BitVec.ofNat 256 (unsigned (fpaddr + 32))

def stackPointer (fpaddr : Nat) (memory : Memory) : Word :=
  loadWord memory (stackPointerCell fpaddr)

namespace ActiveFrame

variable (active : ActiveFrame)

def enter (frame : CompiledFrame) (fpaddr : Nat) (memory : Memory) : ActiveFrame :=
  ⟨frame, fpaddr, loadWord memory (BitVec.ofNat 256 fpaddr), [], 0⟩

def allocate (memory : Memory) (size : Word) (align : Nat) : ActiveFrame :=
  let pointer := stackPointer active.fpaddr memory
  { active with
    blocks := ⟨expandDYNAMIC_STACKALLOC pointer size align, size⟩ :: active.blocks
    taken := active.taken + size.toNat + alignPadding pointer size align }

/-- The entry function addresses its frame by the cell also when it has set the
cell itself. -/
def afterOwn (callers : List SuspendedCall) (after : Memory) : ActiveFrame :=
  if callers = [] then { active with base := loadWord after (BitVec.ofNat 256 active.fpaddr) }
  else active

@[simp]
theorem afterOwn_blocks (callers : List SuspendedCall) (after : Memory) :
    (active.afterOwn callers after).blocks = active.blocks := by
  unfold afterOwn
  split <;> rfl

def callSite (calls : active.frame.makesCalls = true) (args : Fin 16) (returnsValue : Bool) :
    CallSite :=
  ⟨active.frame, calls, active.fpaddr, args, returnsValue, args.isLt⟩

end ActiveFrame

/-- An allocation stores the new stack pointer to its cell. Calls and returns do
to the memory what their sequences do. -/
def dynamicStep : DynamicStep → DynamicState → Option DynamicState
  | .own after, state =>
      some ⟨after, state.running.afterOwn state.callers after, state.callers⟩
  | .allocate size align, state =>
      let cell := stackPointerCell state.running.fpaddr
      let pointer := loadWord state.memory cell
      some { state with
        memory := storeWord state.memory cell (expandDYNAMIC_STACKALLOC pointer size align)
        running := state.running.allocate state.memory size align }
  | .call callee fpaddr args returnsValue, state =>
      if calls : state.running.frame.makesCalls = true then
        let site := state.running.callSite calls args returnsValue
        let entered := site.enteredMemory state.memory
        some ⟨entered, .enter callee fpaddr entered, ⟨state.running, site, state.memory⟩ :: state.callers⟩
      else none
  | .ret, state =>
      match state.callers with
      | [] => none
      | suspended :: outer =>
          some ⟨suspended.site.restoredMemory state.memory, suspended.caller, outer⟩

namespace DynamicState

def start (entry : CompiledFrame) (fpaddr : Nat) (memory : Memory) : DynamicState :=
  ⟨memory, .enter entry fpaddr memory, []⟩

variable (state : DynamicState)

def active : List ActiveFrame := state.running :: state.callers.map SuspendedCall.caller

def blocks : List Block := state.active.flatMap ActiveFrame.blocks

def parts : List Block := state.active.flatMap ActiveFrame.parts

/-- Every allocation is off every active frame, and off every other allocation. -/
structure Separated : Prop where
  offFrames : ∀ block ∈ state.blocks, ∀ part ∈ state.parts, block.Disjoint part
  offBlocks : state.blocks.Pairwise WordRange.Disjoint

end DynamicState

def Restores : DynamicStep → DynamicState → Prop
  | .ret, state => ∀ suspended outer next, state.callers = suspended :: outer →
      dynamicStep .ret state = some next →
      stackPointer suspended.caller.fpaddr next.memory =
        stackPointer suspended.caller.fpaddr suspended.before
  | _, _ => True

def CompiledFrame.extent (frame : CompiledFrame) : Nat :=
  (frame.namedSlots.map fun slot => frame.slotAt slot + 32).foldr max frame.stackSize

/-- The given number of bytes below the stack pointer is free, and the stack
pointer is not above the frames of the running function's callees. -/
structure HasRoom (state : DynamicState) (pointer need : Nat) : Prop where
  aboveZero : need ≤ pointer
  belowCallees : state.running.frame.makesCalls = true →
    pointer ≤ state.running.base.toNat + state.running.frame.calleeAt
  free : ∀ range ∈ state.parts ++ state.blocks,
    range.size = 0 ∨ (pointer ≤ range.start.toNat ∧ range.finish ≤ 2 ^ 256) ∨
      range.finish + need ≤ pointer

/-- The condition on the steps. Other code leaves the stack-pointer cell alone;
in the entry function it may set it, and the frame-pointer cell as well before
anything is allocated. An allocation is empty or finds its bytes, padding included, free below the
stack pointer. A call is made with the function's frame pointer in the one cell
and room for the saved word, and the callee's frame fits the address space. A
callee that returns has moved the stack pointer down exactly as far as the call
has moved it up. -/
def KeepsApart : DynamicStep → DynamicState → Prop
  | .own after, state =>
      (state.callers ≠ [] → stackPointer state.running.fpaddr after =
        stackPointer state.running.fpaddr state.memory) ∧
      (state.callers = [] → state.running.blocks ≠ [] →
        loadWord after (BitVec.ofNat 256 state.running.fpaddr) = state.running.base)
  | .allocate size align, state =>
      let pointer := stackPointer state.running.fpaddr state.memory
      size = 0 ∨ HasRoom state pointer.toNat (size.toNat + alignPadding pointer size align)
  | .call callee fpaddr args returnsValue, state => fpaddr = state.running.fpaddr ∧
      ∀ calls, let site := state.running.callSite calls args returnsValue
        site.Room state.memory ∧ site.framePointer state.memory = state.running.base ∧
          site.calleeBase state.memory + callee.extent ≤ 2 ^ 256
  | .ret, state => ∀ suspended outer, state.callers = suspended :: outer →
      (stackPointer suspended.caller.fpaddr suspended.before).toNat + state.running.taken =
        state.running.base.toNat

def ActiveFrame.BlocksBelow (active : ActiveFrame) : Prop :=
  active.frame.makesCalls = true → ∀ block ∈ active.blocks,
    block.size = 0 ∨ block.finish ≤ active.base.toNat + active.frame.calleeAt

/-- A called function finds the stack pointer at its frame; the entry function
finds any. -/
def ActiveFrame.Moved (active : ActiveFrame) (callers : List SuspendedCall) (memory : Memory) :
    Prop :=
  callers ≠ [] → (stackPointer active.fpaddr memory).toNat + active.taken = active.base.toNat

def Stacked : ActiveFrame → List SuspendedCall → Prop
  | running, [] => running.BlocksBelow
  | running, suspended :: outer =>
      running.BlocksBelow ∧ suspended.caller.frame.makesCalls = true ∧
        running.base.toNat = suspended.caller.base.toNat + suspended.caller.frame.calleeAt ∧
        running.fpaddr = suspended.caller.fpaddr ∧ suspended.site.fpaddr = running.fpaddr ∧
        running.fpaddr + 64 ≤ 2 ^ 32 ∧ suspended.caller.Moved outer suspended.before ∧
        Stacked suspended.caller outer

structure Apartness (state : DynamicState) : Prop where
  stacked : Stacked state.running state.callers
  moved : state.running.Moved state.callers state.memory
  separated : state.Separated

variable {next : DynamicState} {callers : List SuspendedCall}

theorem Stacked.blocksBelow {running : ActiveFrame} (stacked : Stacked running callers) :
    running.BlocksBelow := by
  cases callers with
  | nil => exact stacked
  | cons suspended outer => exact stacked.1

theorem Stacked.running {old new : ActiveFrame} (stacked : Stacked old callers)
    (base : new.base = old.base) (cell : new.fpaddr = old.fpaddr) (below : new.BlocksBelow) :
      Stacked new callers := by
  cases callers with
  | nil => exact below
  | cons suspended outer =>
      obtain ⟨_, calls, behind, agrees, site, small, moved, rest⟩ := stacked
      rw [← base] at behind
      rw [← cell] at agrees site small
      exact ⟨below, calls, behind, agrees, site, small, moved, rest⟩

theorem Stacked.callers_below {running : ActiveFrame} (stacked : Stacked running callers) :
    ∀ suspended ∈ callers, ∀ block ∈ suspended.caller.blocks,
      block.size = 0 ∨ block.finish ≤ running.base.toNat := by
  induction callers generalizing running with
  | nil =>
      intro suspended absent
      cases absent
  | cons first outer ih =>
      obtain ⟨_, calls, behind, _, _, _, _, rest⟩ := stacked
      intro suspended member block held
      rw [behind]
      rcases mem_cons.mp member with here | further
      · rw [here] at held
        exact rest.blocksBelow calls block held
      · refine (ih rest suspended further block held).imp_right fun below => ?_
        omega

/-! ### Single steps -/

theorem CompiledFrame.le_extent (frame : CompiledFrame) :
    frame.stackSize ≤ frame.extent ∧
      ∀ slot ∈ frame.namedSlots, frame.slotAt slot + 32 ≤ frame.extent := by
  unfold extent
  induction frame.namedSlots with
  | nil => exact ⟨Nat.le_refl _, fun slot absent => by cases absent⟩
  | cons first rest ih =>
      obtain ⟨objects, slots⟩ := ih
      rw [map_cons, foldr_cons]
      refine ⟨objects.trans (le_max_right _ _), fun slot member => ?_⟩
      rcases mem_cons.mp member with here | further
      · rw [here]
        exact le_max_left _ _
      · exact (slots slot further).trans (le_max_right _ _)

theorem CompiledFrame.parts_within {frame : CompiledFrame} {base : Word}
    (fits : base.toNat + frame.extent ≤ 2 ^ 256) :
    ∀ part ∈ frame.parts base, base.toNat ≤ part.start.toNat ∧ part.finish ≤ 2 ^ 256 := by
  obtain ⟨objects, slots⟩ := frame.le_extent
  intro part member
  rcases mem_cons.mp member with here | further
  · rw [here]
    have size : (BitVec.ofNat 256 frame.stackSize).toNat ≤ frame.stackSize := by
      rw [toNat_ofNat]
      exact Nat.mod_le _ _
    refine ⟨Nat.le_refl _, ?_⟩
    change base.toNat + (BitVec.ofNat 256 frame.stackSize).toNat ≤ 2 ^ 256
    omega
  · obtain ⟨slot, named, same⟩ := List.mem_map.mp further
    have within := slots slot named
    have start : (base + BitVec.ofNat 256 (frame.slotAt slot)).toNat =
        base.toNat + frame.slotAt slot := by
      rw [toNat_add, toNat_ofNat, Nat.mod_eq_of_lt (a := frame.slotAt slot) (by omega),
        Nat.mod_eq_of_lt (by omega)]
    have size : (32 : Word).toNat = 32 := rfl
    rw [← same]
    unfold WordRange.finish
    rw [start, size]
    omega

theorem HasRoom.disjoint {state : DynamicState} {pointer : Word} {need : Nat}
    (room : HasRoom state pointer.toNat need) {block : Block}
    (below : block.finish ≤ pointer.toNat) (within : pointer.toNat ≤ block.start.toNat + need)
    {range : Block} (member : range ∈ state.parts ++ state.blocks) : block.Disjoint range := by
  rcases room.free range member with empty | above | apart
  · exact (WordRange.disjoint_of_empty empty).symm
  · exact WordRange.disjoint_of_le (below.trans above.1) above.2
  · apply WordRange.Disjoint.symm
    apply WordRange.disjoint_of_le
    · omega
    · omega

theorem Apartness.start (entry : CompiledFrame) (fpaddr : Nat) (memory : Memory) :
    Apartness (DynamicState.start entry fpaddr memory) := by
  have none : (DynamicState.start entry fpaddr memory).blocks = [] := rfl
  refine ⟨?_, ?_, ⟨?_, ?_⟩⟩
  · intro _ block absent
    cases absent
  · intro called
    exact absurd rfl called
  · intro block held
    rw [none] at held
    cases held
  · rw [none]
    exact List.Pairwise.nil

theorem Apartness.own {state : DynamicState} {after : Memory} (apartness : Apartness state)
    (condition : KeepsApart (.own after) state)
    (stepped : dynamicStep (.own after) state = some next) : Apartness next := by
  cases stepped
  obtain ⟨kept, placed⟩ := condition
  by_cases entry : state.callers = []
  · by_cases bare : state.running.blocks = []
    · have nothing : (DynamicState.mk after (state.running.afterOwn state.callers after)
          state.callers).blocks = [] := by
        simp [DynamicState.blocks, DynamicState.active, bare, entry]
      refine ⟨?_, fun called => absurd entry called, ⟨?_, ?_⟩⟩
      · rw [entry]
        intro _ block absent
        rw [ActiveFrame.afterOwn_blocks, bare] at absent
        cases absent
      · rw [nothing]
        intro block absent
        cases absent
      · rw [nothing]
        exact List.Pairwise.nil
    · have same : state.running.afterOwn state.callers after = state.running := by
        rw [ActiveFrame.afterOwn, if_pos entry, placed entry bare]
      rw [same]
      exact ⟨apartness.stacked, fun called => absurd entry called,
        apartness.separated.offFrames, apartness.separated.offBlocks⟩
  · rw [ActiveFrame.afterOwn, if_neg entry]
    refine ⟨apartness.stacked, fun called => ?_, apartness.separated.offFrames,
      apartness.separated.offBlocks⟩
    rw [kept entry]
    exact apartness.moved called

theorem Apartness.allocate {state : DynamicState} {size : Word} {align : Nat}
    (apartness : Apartness state) (condition : KeepsApart (.allocate size align) state)
    (stepped : dynamicStep (.allocate size align) state = some next) : Apartness next := by
  cases stepped
  have fits : size.toNat ≤ (stackPointer state.running.fpaddr state.memory).toNat := by
    rcases condition with empty | room
    · rw [empty]
      exact Nat.zero_le _
    · have enough := room.aboveZero
      omega
  have goesDown := expandDYNAMIC_STACKALLOC_toNat align fits
  let block : Block :=
    ⟨expandDYNAMIC_STACKALLOC (stackPointer state.running.fpaddr state.memory) size align, size⟩
  have finish : block.finish + alignPadding (stackPointer state.running.fpaddr state.memory) size
      align = (stackPointer state.running.fpaddr state.memory).toNat := goesDown
  have off : ∀ range ∈ state.parts ++ state.blocks, block.Disjoint range := by
    intro range member
    rcases condition with empty | room
    · exact WordRange.disjoint_of_empty empty
    · apply room.disjoint (by omega) _ member
      change _ ≤ (expandDYNAMIC_STACKALLOC _ size align).toNat + _
      omega
  refine ⟨apartness.stacked.running rfl rfl ?_, ?_, ⟨?_, ?_⟩⟩
  · intro calls other member
    rcases mem_cons.mp member with here | earlier
    · rw [here]
      refine condition.imp id fun room => ?_
      have bounded := room.belowCallees calls
      change block.finish ≤ state.running.base.toNat + state.running.frame.calleeAt
      omega
    · exact apartness.stacked.blocksBelow calls other earlier
  · intro called
    have before := apartness.moved called
    change (loadWord (storeWord _ (stackPointerCell state.running.fpaddr) _)
      (stackPointerCell state.running.fpaddr)).toNat + (state.running.taken + _ + _) = _
    rw [loadWord_storeWord_same]
    change block.start.toNat + _ = state.running.base.toNat
    have moved : block.start.toNat + size.toNat +
      alignPadding (stackPointer state.running.fpaddr state.memory) size align =
        (stackPointer state.running.fpaddr state.memory).toNat := goesDown
    omega
  · intro other member part partOf
    rcases mem_cons.mp member with here | earlier
    · rw [here]
      exact off part (mem_append_left _ partOf)
    · exact apartness.separated.offFrames other earlier part partOf
  · refine List.Pairwise.cons (fun other earlier => ?_) apartness.separated.offBlocks
    exact off other (mem_append_right _ earlier)

theorem Apartness.call {state : DynamicState} {callee : CompiledFrame} {fpaddr : Nat}
    {args : Fin 16} {returnsValue : Bool} (apartness : Apartness state)
    (condition : KeepsApart (.call callee fpaddr args returnsValue) state)
    (stepped : dynamicStep (.call callee fpaddr args returnsValue) state = some next) :
    Apartness next := by
  obtain ⟨agrees, atCall⟩ := condition
  rw [dynamicStep] at stepped
  by_cases calls : state.running.frame.makesCalls = true
  · rw [dif_pos calls] at stepped
    cases stepped
    obtain ⟨room, pointer, fits⟩ := atCall calls
    generalize called : state.running.callSite calls args returnsValue = site at room pointer fits ⊢
    have cell : site.fpaddr = state.running.fpaddr := by rw [← called]; rfl
    have frame : site.frame = state.running.frame := by rw [← called]; rfl
    have base : (loadWord (site.enteredMemory state.memory) (BitVec.ofNat 256 fpaddr)).toNat =
        site.calleeBase state.memory := by
      rw [agrees, ← cell]
      exact (congrArg BitVec.toNat room.framePointer_entered).trans room.calleePointer_toNat
    have behind : site.calleeBase state.memory =
        state.running.base.toNat + state.running.frame.calleeAt := by
      rw [CallSite.calleeBase, pointer, frame]
    have below : ∀ block ∈ state.blocks,
        block.size = 0 ∨ block.finish ≤ site.calleeBase state.memory := by
      intro block held
      rw [behind]
      rcases mem_append.mp held with own | callers
      · exact apartness.stacked.blocksBelow calls block own
      · obtain ⟨active, member, inActive⟩ := mem_flatMap.mp callers
        obtain ⟨suspended, found, same⟩ := List.mem_map.mp member
        rw [← same] at inActive
        refine (apartness.stacked.callers_below suspended found block inActive).imp_right ?_
        intro ends
        omega
    refine ⟨⟨?_, calls, ?_, agrees, ?_, ?_, apartness.moved, apartness.stacked⟩, ?_, ⟨?_, ?_⟩⟩
    · intro _ block absent
      cases absent
    · exact base.trans behind
    · exact cell.trans agrees.symm
    · change fpaddr + 64 ≤ 2 ^ 32
      rw [agrees, ← cell]
      exact room.cells
    · intro _
      change (loadWord (site.enteredMemory state.memory) (stackPointerCell fpaddr)).toNat + 0 =
        (loadWord (site.enteredMemory state.memory) (BitVec.ofNat 256 fpaddr)).toNat
      rw [base, agrees, ← cell]
      exact (congrArg BitVec.toNat (loadWord_storeWord_same _ site.spWord _)).trans
        room.calleePointer_toNat
    · intro block held part partOf
      rcases mem_append.mp partOf with ofCallee | earlier
      · have within : site.calleeBase state.memory ≤ part.start.toNat ∧
            part.finish ≤ 2 ^ 256 := by
          rw [← base] at fits ⊢
          exact CompiledFrame.parts_within fits part ofCallee
        rcases below block held with empty | ends
        · exact WordRange.disjoint_of_empty empty
        · exact WordRange.disjoint_of_le (ends.trans within.1) within.2
      · exact apartness.separated.offFrames block held part earlier
    · exact apartness.separated.offBlocks
  · rw [dif_neg calls] at stepped
    cases stepped

/-- The return does not touch the stack-pointer cell, and the condition says that
it holds what it held before the call. -/
theorem Apartness.stackPointer_restored {state : DynamicState} {suspended : SuspendedCall}
    {outer : List SuspendedCall} (apartness : Apartness state)
    (condition : KeepsApart .ret state) (callers : state.callers = suspended :: outer) :
    stackPointer suspended.caller.fpaddr (suspended.site.restoredMemory state.memory) =
      stackPointer suspended.caller.fpaddr suspended.before := by
  have stacked := apartness.stacked
  have moved := apartness.moved (by rw [callers]; exact cons_ne_nil _ _)
  have balance := condition suspended outer callers
  rw [callers] at stacked
  obtain ⟨_, _, _, agrees, site, small, _⟩ := stacked
  have spCell : (stackPointerCell suspended.caller.fpaddr).toNat =
      suspended.caller.fpaddr + 32 := by
    unfold stackPointerCell unsigned
    rw [toNat_ofNat]
    omega
  have fpCell : suspended.site.fpWord.toNat = suspended.caller.fpaddr := by
    rw [CallSite.fpWord, toNat_ofNat, site, agrees]
    omega
  have untouched : stackPointer suspended.caller.fpaddr
      (suspended.site.restoredMemory state.memory) =
      stackPointer suspended.caller.fpaddr state.memory := by
    apply loadWord_storeWord_apart
    rw [spCell, fpCell]
    unfold Apart
    omega
  rw [untouched, ← agrees]
  apply eq_of_toNat_eq
  rw [← agrees] at balance
  omega

theorem Apartness.ret {state : DynamicState} (apartness : Apartness state)
    (condition : KeepsApart .ret state) (stepped : dynamicStep .ret state = some next) :
    Apartness next := by
  cases callers : state.callers with
  | nil =>
      rw [dynamicStep, callers] at stepped
      cases stepped
  | cons suspended outer =>
      have restored := apartness.stackPointer_restored condition callers
      have stacked := apartness.stacked
      have blocks : state.blocks = state.running.blocks ++
          (DynamicState.blocks ⟨state.memory, suspended.caller, outer⟩) := by
        rw [DynamicState.blocks, DynamicState.active, callers]
        rfl
      have parts : state.parts = state.running.parts ++
          (DynamicState.parts ⟨state.memory, suspended.caller, outer⟩) := by
        rw [DynamicState.parts, DynamicState.active, callers]
        rfl
      rw [callers] at stacked
      obtain ⟨_, _, _, _, _, _, moved, rest⟩ := stacked
      rw [dynamicStep, callers] at stepped
      cases stepped
      refine ⟨rest, fun called => ?_, ⟨?_, ?_⟩⟩
      · rw [restored]
        exact moved called
      · intro block held part partOf
        apply apartness.separated.offFrames
        · rw [blocks]
          exact mem_append_right _ held
        · rw [parts]
          exact mem_append_right _ partOf
      · have pairwise := apartness.separated.offBlocks
        rw [blocks] at pairwise
        exact (pairwise_append.mp pairwise).2.1

theorem Apartness.step {first : DynamicStep} {state : DynamicState}
    (condition : KeepsApart first state) (apartness : Apartness state)
    (stepped : dynamicStep first state = some next) : Apartness next := by
  cases first with
  | own after => exact apartness.own condition stepped
  | allocate size align => exact apartness.allocate condition stepped
  | call callee fpaddr args returnsValue => exact apartness.call condition stepped
  | ret => exact apartness.ret condition stepped

/-- In every execution whose steps meet the condition, from any memory and any
entry function, allocations stay off the active frames and off each other, and
every return leaves the stack pointer as it was before the call. -/
theorem allocations_separated_of_keepsApart (entry : CompiledFrame) (fpaddr : Nat)
    (memory : Memory) (steps : List DynamicStep)
    (meets : Runs.EveryStep dynamicStep KeepsApart steps (.start entry fpaddr memory)) :
    (∀ done reached, done <+: steps →
      Runs.run dynamicStep done (.start entry fpaddr memory) = some reached →
      reached.Separated) ∧
    Runs.EveryStep dynamicStep Restores steps (.start entry fpaddr memory) := by
  constructor
  · rintro done reached ⟨rest, rfl⟩ finished
    have kept := Runs.run_keeps_of_everyStep Apartness
      (fun first state next condition apartness => Apartness.step condition apartness)
      (Runs.everyStep_append.mp meets).1 (Apartness.start entry fpaddr memory) finished
    exact kept.separated
  · apply Runs.everyStep_of_invariant Apartness
      (fun first state next condition apartness => Apartness.step condition apartness) _ meets
      (Apartness.start entry fpaddr memory)
    intro first state condition apartness
    cases first with
    | own | allocate | call => trivial
    | ret =>
        intro suspended outer next callers stepped
        rw [dynamicStep, callers] at stepped
        cases stepped
        exact apartness.stackPointer_restored condition callers

def objectFrame : CompiledFrame where
  function := emptyFrame.function
  frameInfo := ⟨[⟨64, 0⟩], 0, true, 0, false, false⟩
  makesCalls := true
  slots := emptyFrame.slots
  callsAdjust := fun _ => rfl

def allocatingFrame : CompiledFrame where
  function := emptyFrame.function
  frameInfo := ⟨[], 0, true, 0, true, false⟩
  makesCalls := false
  slots := emptyFrame.slots
  callsAdjust := fun _ => rfl

theorem objectFrame_stackSize : objectFrame.stackSize = 64 := by decide

theorem objectFrame_fits : objectFrame.Fits := by
  constructor
  · rw [objectFrame_stackSize]
    decide
  · intro slot absent
    cases absent
  · intro _
    rw [objectFrame_stackSize]
    decide

/-- The entry function calls a function without arguments and result; the cell
is at address 0. -/
def objectCall : CallSite := ⟨objectFrame, rfl, 0, 0, false, plainCall.withinSwap⟩

/-- The frame pointer at 128, and the stack pointer where an earlier call of
the function has left it. -/
def memoryAfterCall : Memory := storeWord (storeWord (fun _ => 0) 0 128) 32 256

theorem objectCall_room : objectCall.Room memoryAfterCall := by
  refine ⟨by decide, objectFrame_fits, ?_, ?_⟩
  · decide +kernel
  · decide +kernel

def quietSteps : List DynamicStep := [.call allocatingFrame 0 0 false, .ret, .allocate 32 0]

/-- The callee allocates nothing, and the word the caller allocates behind it
lies between its own frame and the stack pointer. -/
theorem quietSteps_separated :
    Runs.EveryStep dynamicStep KeepsApart quietSteps (.start objectFrame 0 memoryAfterCall) ∧
      ∀ reached, Runs.run dynamicStep quietSteps (.start objectFrame 0 memoryAfterCall) =
        some reached → reached.Separated := by
  have meets : Runs.EveryStep dynamicStep KeepsApart quietSteps
      (.start objectFrame 0 memoryAfterCall) := by
    refine ⟨⟨rfl, fun calls => ⟨objectCall_room, rfl, ?_⟩⟩, fun entered called => ?_⟩
    · change objectCall.calleeBase memoryAfterCall + allocatingFrame.extent ≤ 2 ^ 256
      decide +kernel
    · cases called
      refine ⟨?_, fun back went => ?_⟩
      · intro suspended outer callers
        cases callers
        decide +kernel
      · cases went
        refine ⟨Or.inr ⟨?_, ?_, ?_⟩, fun _ _ => trivial⟩
        · decide +kernel
        · intro _
          decide +kernel
        · intro range member
          rw [mem_singleton.mp member]
          decide +kernel
  refine ⟨meets, fun reached finished => ?_⟩
  exact (allocations_separated_of_keepsApart _ _ _ _ meets).1 _ reached (prefix_refl _) finished

def calleeSteps : List DynamicStep := [.call allocatingFrame 0 0 false, .allocate 96 0, .ret]

/-- From zero memory: the callee's frame begins at 128, and its 96 bytes begin
inside the 64 bytes of its caller's object. The call found 0 in the
stack-pointer cell, and its return leaves 32. -/
theorem calleeSteps_overlap_and_move :
    (¬ ∀ done reached, done <+: calleeSteps →
      Runs.run dynamicStep done (.start objectFrame 0 fun _ => 0) = some reached →
      reached.Separated) ∧
    ¬ Runs.EveryStep dynamicStep Restores calleeSteps (.start objectFrame 0 fun _ => 0) := by
  constructor
  · intro separated
    have start := take_prefix 2 calleeSteps
    have allocated := separated (calleeSteps.take 2) _ start rfl
    refine allocated.offFrames _ mem_cons_self _
      (mem_append_right _ mem_cons_self) 40 ?_ ?_
    · decide +kernel
    · decide +kernel
  · intro restores
    have returned := (restores.2 _ rfl).2 _ rfl
    have same := returned.1 _ _ _ rfl rfl
    revert same
    decide +kernel

end EvmBackend
