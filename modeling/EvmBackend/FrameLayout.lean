/-
The frame of a function in memory, relative to its frame pointer: the frame
objects, the local slots, the word a call saves the frame pointer in, and the
frame of the callee.

Three passes compute these offsets on their own. Frame objects are measured in
bytes and rounded to words only in functions that call; slot accesses and the
call sequence divide the size by 32 and count in words, in 32-bit arithmetic.
-/

import EvmBackend.Library.ByteMemory
import EvmBackend.StackAlloc.FrameSize
import EvmBackend.VRegToMem

namespace EvmBackend

open ByteMemory (Apart)

/-! ### Frame objects -/

/-- Alignments are powers of two, kept by their exponent. -/
structure FrameObject where
  size : Nat
  alignShift : Nat
  deriving DecidableEq, Repr

def FrameObject.align (object : FrameObject) : Nat := 2 ^ object.alignShift

structure MachineFrameInfo where
  objects : List FrameObject
  maxAlignShift : Nat
  adjustsStack : Bool
  maxCallFrameSize : Nat
  hasVarSizedObjects : Bool
  needsStackRealignment : Bool
  deriving DecidableEq, Repr

def alignTo (value align : Nat) : Nat := (value + align - 1) / align * align

/-- The offset behind the object and the largest alignment so far; the stack
grows up. -/
def adjustStackOffset (reached : Nat × Nat) (object : FrameObject) : Nat × Nat :=
  (alignTo reached.1 object.align + object.size, max reached.2 object.align)

/-- Functions with calls or dynamic objects are rounded to the stack alignment
of 32, any other to the transient alignment of 1. -/
def MachineFrameInfo.stackAlign (MFI : MachineFrameInfo) : Nat :=
  if MFI.adjustsStack || MFI.hasVarSizedObjects ||
    (MFI.needsStackRealignment && !MFI.objects.isEmpty) then 32 else 1

def calculateFrameObjectOffsets (MFI : MachineFrameInfo) : Nat :=
  let (offset, maxAlign) := MFI.objects.foldl adjustStackOffset (0, 2 ^ MFI.maxAlignShift)
  let offset :=
    if MFI.adjustsStack && !MFI.hasVarSizedObjects then offset + MFI.maxCallFrameSize else offset
  alignTo offset (max MFI.stackAlign maxAlign)

theorem foldl_adjustStackOffset_align (objects : List FrameObject) (offset shift : Nat) :
    ∃ largest, (objects.foldl adjustStackOffset (offset, 2 ^ shift)).2 = 2 ^ largest := by
  induction objects generalizing offset shift with
  | nil => exact ⟨shift, rfl⟩
  | cons first rest ih =>
      rw [List.foldl_cons, adjustStackOffset, FrameObject.align]
      rcases Nat.le_total (2 ^ shift) (2 ^ first.alignShift) with less | more
      · simp only [max_eq_right less]
        exact ih _ first.alignShift
      · simp only [max_eq_left more]
        exact ih _ shift

theorem calculateFrameObjectOffsets_words {MFI : MachineFrameInfo}
    (adjusts : MFI.adjustsStack = true) : calculateFrameObjectOffsets MFI % 32 = 0 := by
  have word : MFI.stackAlign = 2 ^ 5 := by simp [MachineFrameInfo.stackAlign, adjusts]
  obtain ⟨largest, aligned⟩ := foldl_adjustStackOffset_align MFI.objects 0 MFI.maxAlignShift
  have rounds : ∀ offset, 32 ∣ alignTo offset (max (2 ^ 5) (2 ^ largest)) := by
    intro offset
    have whole : 32 ∣ max (2 ^ 5) (2 ^ largest) := by
      rcases Nat.le_total 5 largest with more | less
      · rw [max_eq_right (Nat.pow_le_pow_right (by omega) more)]
        exact Nat.pow_dvd_pow 2 more
      · rw [max_eq_left (Nat.pow_le_pow_right (by omega) less)]
    exact whole.trans (Nat.dvd_mul_left _ _)
  unfold calculateFrameObjectOffsets
  simp only [aligned, word]
  exact Nat.mod_eq_zero_of_dvd (rounds _)

def unsigned (value : Nat) : Nat := value % 2 ^ 32

def localSlotIndex (stackSize slot : Nat) : Nat := unsigned (slot + unsigned stackSize / 32)

def localOffset (stackSize slot : Nat) : Nat := unsigned (localSlotIndex stackSize slot * 32)

def getNumAllocatedIndexInFunction (memoryFrameSize stackSize : Nat) : Nat :=
  unsigned (memoryFrameSize + stackSize / 32)

def callIndex (memoryFrameSize stackSize : Nat) : Nat :=
  unsigned (getNumAllocatedIndexInFunction memoryFrameSize stackSize + 1)

def savedOffset (memoryFrameSize stackSize : Nat) : Nat :=
  unsigned (callIndex memoryFrameSize stackSize * 32)

def calleeOffset (memoryFrameSize stackSize : Nat) : Nat :=
  unsigned (unsigned (callIndex memoryFrameSize stackSize + 1) * 32)

theorem localOffset_eq {stackSize slot : Nat} (small : stackSize < 2 ^ 32)
    (below : slot + stackSize / 32 < 2 ^ 27) :
    localOffset stackSize slot = 32 * (slot + stackSize / 32) := by
  unfold localOffset localSlotIndex unsigned
  omega

theorem savedOffset_eq {memoryFrameSize stackSize : Nat}
    (below : memoryFrameSize + stackSize / 32 + 2 < 2 ^ 27) :
    savedOffset memoryFrameSize stackSize = 32 * (memoryFrameSize + stackSize / 32 + 1) := by
  unfold savedOffset callIndex getNumAllocatedIndexInFunction unsigned
  omega

theorem calleeOffset_eq {memoryFrameSize stackSize : Nat}
    (below : memoryFrameSize + stackSize / 32 + 2 < 2 ^ 27) :
    calleeOffset memoryFrameSize stackSize = 32 * (memoryFrameSize + stackSize / 32 + 2) := by
  unfold calleeOffset callIndex getNumAllocatedIndexInFunction unsigned
  omega

/-! ### Compiled functions -/

/-- The pass that gave the function its local slots. The pass of the -O2
pipeline starts from the state the previous function left. -/
inductive SlotAllocation (F : MachineFunction)
  | atO0 (result : EVMVRegToMem) (finished : EVMVRegToMem.runOnMachineFunction F = some result)
  | atO2 (start result : EVMStackAlloc)
      (finished : EVMStackAlloc.runOnMachineFunction F start = some result)

namespace SlotAllocation

variable {F : MachineFunction}

def namedSlots : SlotAllocation F → List Nat
  | .atO0 result _ => result.locals
  | .atO2 _ result _ => EVMStackAlloc.namedSlots result

def memoryFrameSize : SlotAllocation F → Nat
  | .atO0 result _ => result.MFI.memoryFrameSize
  | .atO2 _ result _ => result.memoryFrameSize

def StartsEmpty : SlotAllocation F → Prop
  | .atO0 _ _ => True
  | .atO2 start _ _ => start.memoryAssignment = []

theorem namedSlots_reported {slots : SlotAllocation F} (empty : slots.StartsEmpty) :
    ∀ slot ∈ slots.namedSlots, slot ≤ slots.memoryFrameSize := by
  cases slots with
  | atO0 result finished => exact EVMVRegToMem.locals_le finished
  | atO2 start result finished => exact EVMStackAlloc.namedSlots_le empty finished

end SlotAllocation

/-- A function behind slot allocation and frame finalisation. A call is
bracketed by ADJCALLSTACKDOWN and ADJCALLSTACKUP, which adjust the stack. -/
structure CompiledFrame where
  function : MachineFunction
  frameInfo : MachineFrameInfo
  makesCalls : Bool
  slots : SlotAllocation function
  callsAdjust : makesCalls = true → frameInfo.adjustsStack = true

namespace CompiledFrame

variable (frame : CompiledFrame)

def stackSize : Nat := calculateFrameObjectOffsets frame.frameInfo

def namedSlots : List Nat := frame.slots.namedSlots

def memoryFrameSize : Nat := frame.slots.memoryFrameSize

def slotAt (slot : Nat) : Nat := localOffset frame.stackSize slot

def savedAt : Nat := savedOffset frame.memoryFrameSize frame.stackSize

def calleeAt : Nat := calleeOffset frame.memoryFrameSize frame.stackSize

/-- The parts of the frame share no byte, and the frame of a callee begins
above all of them. -/
structure Disjoint : Prop where
  slotsOffObjects : ∀ slot ∈ frame.namedSlots, Apart 0 frame.stackSize (frame.slotAt slot) 32
  slotsApart : ∀ left ∈ frame.namedSlots, ∀ right ∈ frame.namedSlots, left ≠ right →
    Apart (frame.slotAt left) 32 (frame.slotAt right) 32
  savedOffObjects : frame.makesCalls = true → Apart 0 frame.stackSize frame.savedAt 32
  savedOffSlots : frame.makesCalls = true → ∀ slot ∈ frame.namedSlots,
    Apart (frame.slotAt slot) 32 frame.savedAt 32
  calleeAbove : frame.makesCalls = true → frame.stackSize ≤ frame.calleeAt ∧
    (∀ slot ∈ frame.namedSlots, frame.slotAt slot + 32 ≤ frame.calleeAt) ∧
    frame.savedAt + 32 ≤ frame.calleeAt

structure Fits : Prop where
  objects : frame.stackSize < 2 ^ 32
  slots : ∀ slot ∈ frame.namedSlots, slot + frame.stackSize / 32 < 2 ^ 27
  callee : frame.makesCalls = true → frame.memoryFrameSize + frame.stackSize / 32 + 2 < 2 ^ 27

variable {frame}

theorem Fits.slotAt_eq (fits : frame.Fits) {slot : Nat} (named : slot ∈ frame.namedSlots) :
    frame.slotAt slot = 32 * (slot + frame.stackSize / 32) :=
  localOffset_eq fits.objects (fits.slots slot named)

theorem Fits.savedAt_eq (fits : frame.Fits) (calls : frame.makesCalls = true) :
    frame.savedAt = 32 * (frame.memoryFrameSize + frame.stackSize / 32 + 1) :=
  savedOffset_eq (fits.callee calls)

theorem Fits.calleeAt_eq (fits : frame.Fits) (calls : frame.makesCalls = true) :
    frame.calleeAt = 32 * (frame.memoryFrameSize + frame.stackSize / 32 + 2) :=
  calleeOffset_eq (fits.callee calls)

theorem stackSize_words (calls : frame.makesCalls = true) : frame.stackSize % 32 = 0 :=
  calculateFrameObjectOffsets_words (frame.callsAdjust calls)

/-- The frame is laid out disjointly when a function without calls has whole
words of frame objects or does not use slot 0, and a function with calls names
no slot beyond the frame size. -/
theorem disjoint_of_words (fits : frame.Fits)
    (words : frame.makesCalls = false → frame.stackSize % 32 = 0 ∨ 0 ∉ frame.namedSlots)
    (reported : frame.makesCalls = true →
      ∀ slot ∈ frame.namedSlots, slot ≤ frame.memoryFrameSize) :
    frame.Disjoint := by
  constructor
  · intro slot named
    rw [fits.slotAt_eq named]
    have whole : frame.stackSize % 32 = 0 ∨ slot ≠ 0 := by
      cases calls : frame.makesCalls with
      | true => exact Or.inl (stackSize_words calls)
      | false =>
          refine (words calls).imp_right fun unnamed zero => unnamed ?_
          rw [← zero]
          exact named
    unfold Apart
    omega
  · intro left leftNamed right rightNamed different
    rw [fits.slotAt_eq leftNamed, fits.slotAt_eq rightNamed]
    unfold Apart
    omega
  · intro calls
    have whole := stackSize_words calls
    rw [fits.savedAt_eq calls]
    unfold Apart
    omega
  · intro calls slot named
    have below := reported calls slot named
    rw [fits.savedAt_eq calls, fits.slotAt_eq named]
    unfold Apart
    omega
  · intro calls
    have whole := stackSize_words calls
    rw [fits.savedAt_eq calls, fits.calleeAt_eq calls]
    refine ⟨by omega, fun slot named => ?_, by omega⟩
    have below := reported calls slot named
    rw [fits.slotAt_eq named]
    omega

/-- Frames that fit 32-bit offsets are laid out disjointly exactly when a
function without calls has a whole number of words of frame objects or leaves
slot 0 unused, and a function with calls names no slot beyond the frame size
it reports. Slots are reported whenever the slot map starts empty. -/
theorem disjoint_iff_words_and_reported (frame : CompiledFrame) (fits : frame.Fits) :
    (frame.Disjoint ↔
      (frame.makesCalls = false → frame.stackSize % 32 = 0 ∨ 0 ∉ frame.namedSlots) ∧
      (frame.makesCalls = true → ∀ slot ∈ frame.namedSlots, slot ≤ frame.memoryFrameSize)) ∧
    (frame.slots.StartsEmpty → ∀ slot ∈ frame.namedSlots, slot ≤ frame.memoryFrameSize) := by
  refine ⟨⟨fun disjoint => ⟨fun _ => ?_, fun calls slot named => ?_⟩,
    fun conditions => disjoint_of_words fits conditions.1 conditions.2⟩,
    SlotAllocation.namedSlots_reported⟩
  · by_cases named : 0 ∈ frame.namedSlots
    · have apart := disjoint.slotsOffObjects 0 named
      rw [fits.slotAt_eq named] at apart
      unfold Apart at apart
      omega
    · exact Or.inr named
  · have apart := disjoint.savedOffSlots calls slot named
    have above := (disjoint.calleeAbove calls).2.1 slot named
    rw [fits.slotAt_eq named, fits.savedAt_eq calls] at apart
    rw [fits.slotAt_eq named, fits.calleeAt_eq calls] at above
    unfold Apart at apart
    omega

def firstToSecond : LiveInterval := ⟨[(⟨0, 2, 2⟩, ⟨0, 5, 2⟩)], by simp⟩

def identityFunction : MachineFunction where
  blocks := [⟨[⟨.pSTACKARG_r, some 1, [.imm 0]⟩, ⟨.inst 0x56, none, [.reg 1]⟩], [], []⟩]
  getInterval := fun _ => firstToSecond
  hasEntry := by simp
  edges := by decide
  nonzero := by decide

def identitySlots : EVMVRegToMem := ⟨⟨[(1, 0)], 0⟩, [0, 0]⟩

def leafFrame (F : MachineFunction) (slots : SlotAllocation F) (objects : List FrameObject) :
    CompiledFrame where
  function := F
  frameInfo := ⟨objects, 0, false, 0, false, false⟩
  makesCalls := false
  slots := slots
  callsAdjust := fun calls => by cases calls

def identityFrame : List FrameObject → CompiledFrame :=
  leafFrame identityFunction (.atO0 identitySlots (by decide))

/-- One object of one word: the frame is disjoint, and the condition says so. -/
theorem disjoint_identityFrame_word : (identityFrame [⟨32, 3⟩]).Fits ∧
    (identityFrame [⟨32, 3⟩]).Disjoint := by
  have fits : (identityFrame [⟨32, 3⟩]).Fits := by
    constructor
    · decide
    · decide
    · intro calls
      cases calls
  refine ⟨fits, (disjoint_iff_words_and_reported _ fits).1.mpr ⟨fun _ => Or.inl ?_, fun calls => ?_⟩⟩
  · decide
  · cases calls

/-- One object of one byte: slot 0 is the word that holds the byte. -/
theorem identityFrame_byte_overlaps :
    (identityFrame [⟨1, 0⟩]).stackSize = 1 ∧ ¬ (identityFrame [⟨1, 0⟩]).Disjoint := by
  refine ⟨by decide, fun disjoint => ?_⟩
  have apart := disjoint.slotsOffObjects 0 (by decide)
  revert apart
  decide

end CompiledFrame

end EvmBackend
