/-
Whether the slot of a live register is ever given away: what the start of a
block frees, and what later definitions are handed.

The allocator judges a register dead from the layout positions of its uses; a
path that leads back to an earlier position is not seen. A register that is in
its recorded slot keeps it through every step, so all that remains is which
registers a block finds in the map it takes over.
-/

import EvmBackend.StackAlloc.SlotConsistency
import EvmBackend.StackAlloc.VisitOrder

namespace EvmBackend.EVMStackAlloc

/-- Some use of the register lies in the block, or behind the start of one of
its successors in the layout. -/
def NearUse (F : MachineFunction) (MRI : MachineRegisterInfo) (reg : Register) (block : Nat) :
    Prop :=
  ∃ useSlot ∈ MRI.useOperands reg,
    ((MachineFunction.getMBBStartIdx block).isEarlierInstr useSlot = true ∧
      useSlot.isEarlierInstr (MachineFunction.getMBBEndIdx block) = true) ∨
    ∃ later ∈ F.successors block,
      (MachineFunction.getMBBStartIdx later).isEarlierInstr useSlot = true

theorem regIsDeadAtBeginningOfMBB_eq_false {F : MachineFunction} {MRI : MachineRegisterInfo}
    {reg : Register} {block : Nat} :
    regIsDeadAtBeginningOfMBB F MRI reg block = false ↔ NearUse F MRI reg block := by
  unfold regIsDeadAtBeginningOfMBB NearUse
  constructor
  · intro alive
    split at alive
    case isTrue inBlock =>
      obtain ⟨useSlot, member, inside⟩ := List.any_eq_true.mp inBlock
      exact ⟨useSlot, member, Or.inl (Bool.and_eq_true_iff.mp inside)⟩
    case isFalse =>
      split at alive
      case isTrue later =>
        obtain ⟨useSlot, member, behind⟩ := List.any_eq_true.mp later
        exact ⟨useSlot, member, Or.inr (List.any_eq_true.mp behind)⟩
      case isFalse => cases alive
  · rintro ⟨useSlot, member, inside | behind⟩
    · have inBlock : rangeContainsRegUses MRI reg (MachineFunction.getMBBStartIdx block)
          (MachineFunction.getMBBEndIdx block) = true :=
        List.any_eq_true.mpr ⟨useSlot, member, Bool.and_eq_true_iff.mpr inside⟩
      rw [if_pos inBlock]
    · have later : sucessorsContainRegUses F MRI reg block = true :=
        List.any_eq_true.mpr ⟨useSlot, member, List.any_eq_true.mpr behind⟩
      simp [later]

def incomingSlots (F : MachineFunction) (block : Nat) (st : EVMStackAlloc) : List Register :=
  if F.predecessors block = [] then st.memoryAssignment
  else ((takenOver F block st).map Prod.snd).getD []

/-- The start of the block frees the slot its register occupies; entry 0 stands
for a slot that is free already. -/
def Frees (F : MachineFunction) (block : Nat) (st : EVMStackAlloc) (reg : Register) : Prop :=
  F.predecessors block ≠ [] ∧ reg ≠ 0 ∧ reg ∈ incomingSlots F block st ∧
    regIsDeadAtBeginningOfMBB F st.MRI reg block = true

def FreesDeadOnly (F : MachineFunction) (step : AllocStep) (st : EVMStackAlloc) : Prop :=
  ∀ block reg, step = .beginBlock block → Frees F block st reg → ¬ F.LiveIn reg block

/-! ### Slots handed out -/

def LiveAtBody (F : MachineFunction) (reg : Register) (block : Nat) : Prop :=
  F.LiveBefore reg block ((bodyRefs F block).map InstrRef.instr)

def LiveAfter (F : MachineFunction) (reg : Register) : AllocStep → Prop
  | .define ref => F.LiveBefore reg ref.block ((F.instrs ref.block).drop (ref.index + 1))
  | .stackArg _ arg => LiveAtBody F reg arg.block
  | _ => False

/-- A register placed in memory never gets the recorded slot of another
register that is live after the definition. -/
def KeepsLiveSlots (F : MachineFunction) (step : AllocStep) (st : EVMStackAlloc) : Prop :=
  ∀ reg other slot, storedRegister F step st = some reg → other ≠ reg → other ≠ 0 →
    st.regAssignments other = some ⟨.NONSTACK, slot⟩ → LiveAfter F other step →
      (allocateMemorySlot reg st).2 ≠ slot

/-- A register placed in memory once more finds its recorded slot next in the
map, or is still in it. -/
def FindsSlot (F : MachineFunction) (step : AllocStep) (st : EVMStackAlloc) : Prop :=
  ∀ reg ∈ storedRegister F step st, ∀ assignment ∈ st.regAssignments reg,
    assignment.region = .NONSTACK →
      SlotIsNext st.memoryAssignment assignment.slot ∨
        st.memoryAssignment[assignment.slot]? = some reg

instance (F : MachineFunction) (step : AllocStep) (st : EVMStackAlloc) :
    Decidable (FindsSlot F step st) :=
  inferInstanceAs (Decidable (∀ reg ∈ storedRegister F step st,
    ∀ assignment ∈ st.regAssignments reg, assignment.region = .NONSTACK →
      SlotIsNext st.memoryAssignment assignment.slot ∨
        st.memoryAssignment[assignment.slot]? = some reg))

/-- The live registers recorded in memory are in their slots. -/
def Resident (st : EVMStackAlloc) (live : Register → Prop) : Prop :=
  ∀ reg slot, reg ≠ 0 → live reg → st.regAssignments reg = some ⟨.NONSTACK, slot⟩ →
    st.memoryAssignment[slot]? = some reg

section Slots

variable {F : MachineFunction} {st next : EVMStackAlloc} {live liveNext : Register → Prop}

theorem allocateMemorySlot_ne_of_resident {reg other : Register} {slot : Nat}
    (resident : Resident st live) (nonzero : other ≠ 0) (isLive : live other)
    (recordedAt : st.regAssignments other = some ⟨.NONSTACK, slot⟩) :
    (allocateMemorySlot reg st).2 ≠ slot := by
  obtain ⟨given, taken, size, placed, result⟩ := allocateMemorySlot_taken reg st
  rw [result]
  rintro rfl
  exact placed.isNext.not_occupied nonzero (resident other _ nonzero isLive recordedAt)

theorem Resident.records {reg : Register} {assignment : StackAssignment}
    (resident : Resident st live) (elsewhere : assignment.region ≠ .NONSTACK)
    (entry : next.regAssignments = recorded reg assignment st.regAssignments)
    (slots : next.memoryAssignment = st.memoryAssignment)
    (fresh : (st.regAssignments reg).isSome = true → live reg ∨ ¬ liveNext reg)
    (weaken : ∀ other, other ≠ reg → liveNext other → live other) :
    Resident next liveNext := by
  intro other slot nonzero isLive known
  rw [entry] at known
  rw [slots]
  rcases recorded_cases reg assignment st.regAssignments other with same | ⟨_, _, new⟩
  · rw [same] at known
    by_cases self : other = reg
    · subst other
      rcases fresh (by rw [known]; rfl) with before | never
      · exact resident reg slot nonzero before known
      · exact absurd isLive never
    · exact resident other slot nonzero (weaken other self isLive) known
  · rw [new] at known
    cases known
    exact absurd rfl elsewhere

theorem Resident.stores {reg : Register} {slot : Nat}
    (resident : Resident st live)
    (placed : SlotTaken reg slot st.memoryAssignment next.memoryAssignment)
    (entry : next.regAssignments = recorded reg ⟨.NONSTACK, slot⟩ st.regAssignments)
    (found : ∀ old, st.regAssignments reg = some ⟨.NONSTACK, old⟩ →
      SlotIsNext st.memoryAssignment old ∨ st.memoryAssignment[old]? = some reg)
    (weaken : ∀ other, other ≠ reg → liveNext other → live other) :
    Resident next liveNext := by
  intro other place nonzero isLive known
  rw [entry] at known
  rcases recorded_cases reg ⟨.NONSTACK, slot⟩ st.regAssignments other with same | ⟨rfl, _, new⟩
  · rw [same] at known
    by_cases self : other = reg
    · subst other
      rcases found place known with isNext | present
      · rw [isNext.unique placed.isNext]
        exact placed.holds
      · exact placed.keeps place reg nonzero present
    · exact placed.keeps place other nonzero
        (resident other place nonzero (weaken other self isLive) known)
  · rw [new] at known
    cases known
    exact placed.holds

theorem handleDef_resident {ref : InstrRef} (done : handleDef F ref st = some next)
    (resident : Resident st live)
    (found : FindsSlot F (.define ref) st)
    (several : ∀ reg, ref.instr.defRegister = some reg →
      (st.regAssignments reg).isSome = true → st.MRI.hasOneDef reg = false)
    (weaken : ∀ other, ref.instr.defRegister ≠ some other → liveNext other → live other) :
    Resident next liveNext := by
  rcases handleDef_eq_some done with ⟨noDef, rfl⟩ | ⟨defReg, isDef, unused | onStack | inMemory⟩
  · intro reg slot nonzero isLive known
    exact resident reg slot nonzero (weaken reg (by simp [noDef]) isLive) known
  · obtain ⟨oneDef, _, _, rest, _, rfl⟩ := unused
    refine resident.records (by simp) rfl rfl (fun assigned => ?_) (fun other apart => ?_)
    · rw [several defReg isDef assigned] at oneDef
      cases oneDef
    · exact weaken other (by simpa [isDef] using Ne.symm apart)
  · obtain ⟨oneDef, _, _, rfl⟩ := onStack
    refine resident.records (by simp) rfl rfl (fun assigned => ?_) (fun other apart => ?_)
    · rw [several defReg isDef assigned] at oneDef
      cases oneDef
    · exact weaken other (by simpa [isDef] using Ne.symm apart)
  · obtain ⟨shared, rfl⟩ := inMemory
    obtain ⟨slot, taken, size, placed, result⟩ := storeDef_eq ref defReg st
    have stored := storedRegister_of_shared isDef shared
    rw [result]
    refine resident.stores placed.toSlotTaken rfl (fun old known => ?_) (fun other apart => ?_)
    · exact found defReg stored _ known rfl
    · exact weaken other (by simpa [isDef] using Ne.symm apart)

theorem analyzeStackArg_resident {first arg : InstrRef}
    (done : analyzeStackArg F first arg st = some next)
    (resident : Resident st fun _ => True)
    (found : FindsSlot F (.stackArg first arg) st) :
    Resident next fun _ => True := by
  rcases analyzeStackArg_eq_some done with ⟨_, _, _, _, rfl⟩ | ⟨_, _, rfl⟩ |
    ⟨used, shared, slot, taken, _, _, _, _, _, _, placed, _, _, _, _, rfl⟩
  · exact resident.records (by simp) rfl rfl (fun _ => Or.inl trivial) (fun _ _ => id)
  · exact resident.records (by simp) rfl rfl (fun _ => Or.inl trivial) (fun _ _ => id)
  · have stored : storedRegister F (.stackArg first arg) st = some (argRegister arg) := by
      simp [storedRegister, used, shared]
    exact resident.stores placed.toSlotTaken rfl (fun old known => found _ stored _ known rfl)
      (fun _ _ => id)

end Slots

theorem keepsLiveSlots_of_silent {F : MachineFunction} {step : AllocStep} {st : EVMStackAlloc}
    (silent : storedRegister F step st = none) : KeepsLiveSlots F step st := by
  intro reg other slot stored
  rw [silent] at stored
  cases stored

end EvmBackend.EVMStackAlloc
