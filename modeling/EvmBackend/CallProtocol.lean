/-
Executions with calls nested to any depth: the running function's own code, call
sequences, and returns.

Each active call remembers the state before its sequence. Between the call and
its return the saved frame pointer stays in place as long as no store reaches
it; a saved word that shares bytes with the frame-pointer or stack-pointer cell
is overwritten by the sequence itself.
-/

import EvmBackend.CallSequence

namespace EvmBackend

open ByteMemory EVM

/-- A call that has not returned, with the state at the start of its sequence. -/
structure Activation where
  site : CallSite
  before : Machine

structure CallState where
  machine : Machine
  active : List Activation

inductive CallStep
  | own (after : Machine)
  | call (site : CallSite)
  | ret

def callStep (code : Code) : CallStep → CallState → Option CallState
  | .own after, state => some { state with machine := after }
  | .call site, state =>
      if Holds code state.machine.pc site.callSequence then
        (runFor code (site.setup.length + 1) state.machine).map fun entered =>
          ⟨entered, ⟨site, state.machine⟩ :: state.active⟩
      else none
  | .ret, state =>
      match state.active with
      | [] => none
      | activation :: outer =>
          (runFor code (1 + activation.site.resume.length) state.machine).map fun back =>
            ⟨back, outer⟩

variable {address : Nat} {active : List Activation}

namespace CallSite

variable (site : CallSite) (memory : Memory)

def savedAddress : Nat := (site.framePointer memory).toNat + site.frame.savedAt

def calleeBase : Nat := (site.framePointer memory).toNat + site.frame.calleeAt

/-- The frame pointer can be saved: the offsets and addresses do not wrap, and
the saved word shares no byte with the frame-pointer cell or the stack-pointer
cell behind it. -/
structure Room : Prop where
  cells : site.fpaddr + 64 ≤ 2 ^ 32
  fits : site.frame.Fits
  addresses : site.calleeBase memory < 2 ^ 256
  savedOffCells : Apart (site.savedAddress memory) 32 site.fpaddr 64

variable {site memory}

theorem Room.calleeAt_eq (room : site.Room memory) :
    site.frame.calleeAt = site.frame.savedAt + 32 := by
  rw [room.fits.calleeAt_eq site.calls, room.fits.savedAt_eq site.calls]
  omega

theorem Room.fpWord_toNat (room : site.Room memory) : site.fpWord.toNat = site.fpaddr := by
  have small := room.cells
  rw [fpWord, BitVec.toNat_ofNat, Nat.mod_eq_of_lt (by omega)]

theorem Room.spWord_toNat (room : site.Room memory) : site.spWord.toNat = site.fpaddr + 32 := by
  have small := room.cells
  have address : site.spaddr = site.fpaddr + 32 := Nat.mod_eq_of_lt (by omega)
  rw [spWord, BitVec.toNat_ofNat, address, Nat.mod_eq_of_lt (by omega)]

private theorem toNat_offset {offset : Nat} {base : Word}
    (small : base.toNat + offset < 2 ^ 256) :
    (BitVec.ofNat 256 offset + base).toNat = base.toNat + offset := by
  rw [BitVec.toNat_add, BitVec.toNat_ofNat, Nat.mod_eq_of_lt (a := offset) (by omega),
    Nat.mod_eq_of_lt (by omega), Nat.add_comm]

section

variable (room : site.Room memory)

include room

theorem Room.savedWord_toNat :
    (BitVec.ofNat 256 site.frame.savedAt + site.framePointer memory).toNat =
      site.savedAddress memory := by
  have small := room.addresses
  have next := room.calleeAt_eq
  unfold calleeBase at small
  exact toNat_offset (by omega)

theorem Room.framePointer_saved :
    site.framePointer (site.savedMemory memory) = site.framePointer memory := by
  have apart := room.savedOffCells
  apply loadWord_storeWord_apart
  rw [room.fpWord_toNat, room.savedWord_toNat]
  unfold Apart at apart ⊢
  omega

theorem Room.calleePointer_toNat :
    (site.calleePointer memory).toNat = site.calleeBase memory := by
  rw [calleePointer, room.framePointer_saved]
  exact toNat_offset room.addresses

/-! ### Memory across a call -/

theorem Room.framePointer_entered :
    site.framePointer (site.enteredMemory memory) = site.calleePointer memory := by
  unfold framePointer enteredMemory
  rw [loadWord_storeWord_apart, loadWord_storeWord_same]
  rw [room.fpWord_toNat, room.spWord_toNat]
  unfold Apart
  omega

theorem Room.loadWord_saved {address : Word}
    (saved : address.toNat = site.savedAddress memory) :
    loadWord (site.enteredMemory memory) address = site.framePointer memory := by
  have apart := room.savedOffCells
  have same : address = BitVec.ofNat 256 site.frame.savedAt + site.framePointer memory :=
    BitVec.eq_of_toNat_eq (saved.trans room.savedWord_toNat.symm)
  unfold enteredMemory
  rw [loadWord_storeWord_apart, loadWord_storeWord_apart, savedMemory, ← same,
    loadWord_storeWord_same]
  · rw [saved, room.fpWord_toNat]
    unfold Apart at apart ⊢
    omega
  · rw [saved, room.spWord_toNat]
    unfold Apart at apart ⊢
    omega

theorem Room.enteredMemory_outside
    (offSaved : ¬ (site.savedAddress memory ≤ address ∧ address < site.savedAddress memory + 32))
    (offCells : ¬ (site.fpaddr ≤ address ∧ address < site.fpaddr + 64)) :
    site.enteredMemory memory address = memory address := by
  unfold enteredMemory savedMemory
  rw [storeWord_outside, storeWord_outside, storeWord_outside]
  · rw [room.savedWord_toNat]
    exact offSaved
  · rw [room.fpWord_toNat]
    omega
  · rw [room.spWord_toNat]
    omega

theorem Room.framePointer_restored {current : Memory}
    (pointer : site.framePointer current = site.calleePointer memory)
    (kept : ∀ address, site.savedAddress memory ≤ address →
      address < site.savedAddress memory + 32 →
      current address = site.enteredMemory memory address) :
    site.framePointer (site.restoredMemory current) = site.framePointer memory := by
  have base := room.calleePointer_toNat
  have next := room.calleeAt_eq
  have saved : (site.calleePointer memory - 32).toNat = site.savedAddress memory := by
    have above : 32 ≤ (site.calleePointer memory).toNat := by
      rw [base, calleeBase]
      omega
    have word : (32 : Word).toNat = 32 := rfl
    rw [BitVec.toNat_sub_of_le (by simpa [BitVec.le_def] using above), base, word, calleeBase,
      savedAddress]
    omega
  have fetched : loadWord current (site.calleePointer memory - 32) =
      loadWord (site.enteredMemory memory) (site.calleePointer memory - 32) := by
    apply loadWord_congr
    rw [saved]
    exact kept
  unfold restoredMemory
  rw [pointer, fetched, room.loadWord_saved saved]
  exact loadWord_storeWord_same _ _ _

end

theorem restoredMemory_outside {current : Memory} (small : site.fpaddr + 64 ≤ 2 ^ 32)
    (outside : ¬ (site.fpaddr ≤ address ∧ address < site.fpaddr + 32)) :
    site.restoredMemory current address = current address := by
  apply storeWord_outside
  rw [fpWord, BitVec.toNat_ofNat, Nat.mod_eq_of_lt (by omega)]
  exact outside

end CallSite

namespace Activation

variable (activation : Activation)

def pointer : Nat := (activation.site.framePointer activation.before.memory).toNat

def base : Nat := activation.site.calleeBase activation.before.memory

def InSavedWord (address : Nat) : Prop :=
  activation.site.savedAddress activation.before.memory ≤ address ∧
    address < activation.site.savedAddress activation.before.memory + 32

/-- The call was made with its code in place, with the given cell, and with room
for the saved word. -/
structure Entered (code : Code) (cell : Nat) : Prop where
  held : Holds code activation.before.pc activation.site.callSequence
  small : activation.site.returnPosition activation.before.pc < 2 ^ 256
  agrees : activation.site.fpaddr = cell
  room : activation.site.Room activation.before.memory

variable {activation} {code : Code} {cell : Nat}

theorem Entered.savedWord_below (entered : activation.Entered code cell)
    (saved : activation.InSavedWord address) : address < activation.base := by
  have next := entered.room.calleeAt_eq
  have inside := saved.2
  unfold CallSite.savedAddress at inside
  unfold base CallSite.calleeBase
  omega

theorem Entered.savedWord_off_cells (entered : activation.Entered code cell)
    (saved : activation.InSavedWord address) : ¬ (cell ≤ address ∧ address < cell + 64) := by
  have apart := apart_iff.mp entered.room.savedOffCells address saved.1 saved.2
  rw [entered.agrees] at apart
  exact apart

theorem pointer_le_base : activation.pointer ≤ activation.base := Nat.le_add_right _ _

end Activation

/-- The frame pointer is the base of the innermost call's frame, and the bytes a
call protects are as its sequence left them; likewise for the calls around it. -/
def Linked (code : Code) (cell : Nat) (protects : Activation → Nat → Prop) (memory : Memory) :
    Nat → List Activation → Prop
  | _, [] => True
  | pointer, activation :: outer =>
      pointer = activation.base ∧ activation.Entered code cell ∧
        (∀ address, activation.InSavedWord address ∨ protects activation address →
          memory address = activation.site.enteredMemory activation.before.memory address) ∧
        Linked code cell protects memory activation.pointer outer

section Chains

variable {code : Code} {cell : Nat} {protects : Activation → Nat → Prop}

theorem Linked.congr {memory after : Memory} {pointer : Nat}
    (linked : Linked code cell protects memory pointer active)
    (same : ∀ activation ∈ active, ∀ address, activation.InSavedWord address ∨
      protects activation address → after address = memory address) :
    Linked code cell protects after pointer active := by
  induction active generalizing pointer with
  | nil => trivial
  | cons activation outer ih =>
      obtain ⟨isBase, entered, kept, rest⟩ := linked
      refine ⟨isBase, entered, fun address guarded => ?_, ih rest ?_⟩
      · rw [same activation List.mem_cons_self address guarded]
        exact kept address guarded
      · intro other member
        exact same other (List.mem_cons_of_mem activation member)

theorem Linked.entered {memory : Memory} {pointer : Nat}
    (linked : Linked code cell protects memory pointer active) {activation : Activation}
    (member : activation ∈ active) : activation.Entered code cell ∧ activation.base ≤ pointer := by
  induction active generalizing pointer with
  | nil => cases member
  | cons first outer ih =>
      obtain ⟨isBase, entered, _, rest⟩ := linked
      rcases List.mem_cons.mp member with here | further
      · rw [here, isBase]
        exact ⟨entered, Nat.le_refl _⟩
      · obtain ⟨found, below⟩ := ih rest further
        refine ⟨found, below.trans ?_⟩
        rw [isBase]
        exact Activation.pointer_le_base

theorem Linked.call {site : CallSite} {machine : Machine}
    (linked : Linked code cell protects machine.memory (site.framePointer machine.memory).toNat active)
    (entered : (Activation.mk site machine).Entered code cell)
    (guarded : ∀ activation ∈ active, ∀ address, protects activation address →
      address < (site.framePointer machine.memory).toNat ∧ ¬ (cell ≤ address ∧ address < cell + 64)) :
    Linked code cell protects (site.enteredMemory machine.memory)
      (site.framePointer (site.enteredMemory machine.memory)).toNat
      (⟨site, machine⟩ :: active) := by
  have room : site.Room machine.memory := entered.room
  have agrees : site.fpaddr = cell := entered.agrees
  refine ⟨?_, entered, fun _ _ => rfl, linked.congr ?_⟩
  · rw [room.framePointer_entered, room.calleePointer_toNat]
    rfl
  · intro activation member address held
    obtain ⟨earlier, below⟩ := linked.entered member
    have known : address < (site.framePointer machine.memory).toNat ∧
        ¬ (cell ≤ address ∧ address < cell + 64) := by
      rcases held with saved | covered
      · exact ⟨Nat.lt_of_lt_of_le (earlier.savedWord_below saved) below,
          earlier.savedWord_off_cells saved⟩
      · exact guarded activation member address covered
    apply room.enteredMemory_outside
    · unfold CallSite.savedAddress
      omega
    · rw [agrees]
      exact known.2

theorem Linked.ret {memory : Memory} {activation : Activation} {outer : List Activation}
    (linked : Linked code cell protects memory
      (activation.site.framePointer memory).toNat (activation :: outer))
    (guarded : ∀ other ∈ outer, ∀ address, protects other address →
      ¬ (cell ≤ address ∧ address < cell + 32)) :
    activation.site.framePointer (activation.site.restoredMemory memory) =
        activation.site.framePointer activation.before.memory ∧
      Linked code cell protects (activation.site.restoredMemory memory) activation.pointer outer := by
  obtain ⟨isBase, entered, kept, rest⟩ := linked
  have pointer : activation.site.framePointer memory =
      activation.site.calleePointer activation.before.memory := by
    apply BitVec.eq_of_toNat_eq
    rw [isBase, entered.room.calleePointer_toNat]
    rfl
  refine ⟨entered.room.framePointer_restored pointer ?_, rest.congr ?_⟩
  · intro address above below
    exact kept address (Or.inl ⟨above, below⟩)
  · intro other member address held
    apply CallSite.restoredMemory_outside entered.room.cells
    rw [entered.agrees]
    rcases held with saved | covered
    · have off := (rest.entered member).1.savedWord_off_cells saved
      omega
    · exact guarded other member address covered

end Chains

end EvmBackend
