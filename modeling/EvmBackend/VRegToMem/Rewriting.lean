/-
The code the -O0 pass leaves: around each instruction, loads of its operands
and a store of its result.

The operands are taken from the last to the first, and each load is put before
the load inserted last, so the loads stand in operand order and the last
operand ends on top of the stack. The code of an instruction depends on the
final slot numbers only, because a number once given is never changed.
-/

import EvmBackend.StackAlloc.Simulation
import EvmBackend.VRegToMem

namespace EvmBackend

open List Option

/-- The copy of one register to another; the opcodes with a byte are below. -/
def pMOVE_r : Opcode := .inst 256

variable {F : MachineFunction} {reg : Register} {instr : MachineInstr} {code : List OutInstr}
    {refs : List InstrRef} {codes : List BlockCode}

namespace EVMVRegToMem

open EVMStackAlloc (stackArgs bodyRefs)

/-- The code behind a definition: the drop of a result nobody reads, or the
store to the slot of the register. -/
def storeResult (MRI : MachineRegisterInfo) (instr : MachineInstr) (MFI : EVMMachineFunctionInfo) :
    EVMMachineFunctionInfo × List OutInstr :=
  match instr.defRegister with
  | none => (MFI, [])
  | some OldReg =>
      if MRI.useEmpty OldReg then (MFI, [.POP_r])
      else
        let (MFI, LocalId) := MFI.allocateMemoryIndex OldReg
        (MFI, [.pPUTLOCAL_r OldReg LocalId])

def insertLoad (MFI : EVMMachineFunctionInfo) (OldReg : Register) (inserted : List OutInstr) :
    Option (List OutInstr) :=
  (MFI.getMemoryIndex OldReg).map fun LocalId => .pGETLOCAL_r OldReg LocalId :: inserted

def loadOperands (MFI : EVMMachineFunctionInfo) (instr : MachineInstr) : Option (List OutInstr) :=
  Runs.run (insertLoad MFI) instr.useRegisters.reverse []

def keepInstr (ref : InstrRef) : List OutInstr :=
  if ref.instr.opcode = pMOVE_r then [] else [.original ref]

def rewriteInstr (MRI : MachineRegisterInfo) (ref : InstrRef) (MFI : EVMMachineFunctionInfo) :
    Option (EVMMachineFunctionInfo × List OutInstr) :=
  let (MFI, stores) := storeResult MRI ref.instr MFI
  (loadOperands MFI ref.instr).map fun loads => (MFI, loads ++ keepInstr ref ++ stores)

def rewriteInstrs (MRI : MachineRegisterInfo) :
    List InstrRef → EVMMachineFunctionInfo → Option (EVMMachineFunctionInfo × List OutInstr)
  | [], MFI => some (MFI, [])
  | ref :: rest, MFI => do
      let (MFI, code) ← rewriteInstr MRI ref MFI
      let (MFI, later) ← rewriteInstrs MRI rest MFI
      some (MFI, code ++ later)

/-- The code of a block: that of the arguments at its start, and the rest. -/
structure BlockCode where
  prologue : List OutInstr
  body : List OutInstr
  deriving DecidableEq, Repr

def rewriteBlock (F : MachineFunction) (block : Nat) (MFI : EVMMachineFunctionInfo) :
    Option (EVMMachineFunctionInfo × BlockCode) := do
  let (MFI, prologue) ← rewriteInstrs F.regInfo (stackArgs F block) MFI
  let (MFI, body) ← rewriteInstrs F.regInfo (bodyRefs F block) MFI
  some (MFI, ⟨prologue, body⟩)

def rewriteBlocks (F : MachineFunction) :
    List Nat → EVMMachineFunctionInfo → Option (EVMMachineFunctionInfo × List BlockCode)
  | [], MFI => some (MFI, [])
  | block :: rest, MFI => do
      let (MFI, code) ← rewriteBlock F block MFI
      let (MFI, later) ← rewriteBlocks F rest MFI
      some (MFI, code :: later)

def rewriteFunction (F : MachineFunction) : Option (EVMMachineFunctionInfo × List BlockCode) :=
  rewriteBlocks F (List.range F.blocks.length) ⟨[], 0⟩

/-! ### Code by the final slot numbers -/

/-- The pass reads no live interval, so a function given to it can have any. -/
def unreadInterval : LiveInterval := ⟨[(⟨0, 0, 0⟩, ⟨0, 0, 0⟩)], cons_ne_nil _ _⟩

def slotOf (MFI : EVMMachineFunctionInfo) (reg : Register) : Nat :=
  (MFI.getMemoryIndex reg).getD 0

def loadsOf (MFI : EVMMachineFunctionInfo) (regs : List Register) : List OutInstr :=
  regs.map fun reg => .pGETLOCAL_r reg (slotOf MFI reg)

def storesOf (MRI : MachineRegisterInfo) (MFI : EVMMachineFunctionInfo) (instr : MachineInstr) :
    List OutInstr :=
  match instr.defRegister with
  | none => []
  | some reg => if MRI.useEmpty reg then [.POP_r] else [.pPUTLOCAL_r reg (slotOf MFI reg)]

def codeOf (MRI : MachineRegisterInfo) (MFI : EVMMachineFunctionInfo) (ref : InstrRef) :
    List OutInstr :=
  loadsOf MFI ref.instr.useRegisters ++ keepInstr ref ++ storesOf MRI MFI ref.instr

def Extends (later earlier : EVMMachineFunctionInfo) : Prop :=
  ∀ reg index, earlier.getMemoryIndex reg = some index → later.getMemoryIndex reg = some index

/-- Every register the instruction reads, or defines for a reader, has a number. -/
structure HasSlots (MRI : MachineRegisterInfo) (MFI : EVMMachineFunctionInfo)
    (instr : MachineInstr) : Prop where
  uses : ∀ reg ∈ instr.useRegisters, ∃ index, MFI.getMemoryIndex reg = some index
  result : ∀ reg, instr.defRegister = some reg → MRI.useEmpty reg = false →
    ∃ index, MFI.getMemoryIndex reg = some index

variable {MRI : MachineRegisterInfo} {MFI next final : EVMMachineFunctionInfo} {ref : InstrRef}

theorem Extends.refl (MFI : EVMMachineFunctionInfo) : Extends MFI MFI := fun _ _ known => known

theorem Extends.trans {first second third : EVMMachineFunctionInfo} (above : Extends third second)
    (below : Extends second first) : Extends third first :=
  fun reg index known => above reg index (below reg index known)

theorem slotOf_extends {index : Nat} (later : Extends final MFI)
    (known : MFI.getMemoryIndex reg = some index) : slotOf final reg = index := by
  rw [slotOf, later reg index known, getD_some]

theorem HasSlots.extends (slots : HasSlots MRI MFI instr) (later : Extends final MFI) :
    HasSlots MRI final instr := by
  constructor
  · intro reg member
    obtain ⟨index, known⟩ := slots.uses reg member
    exact ⟨index, later reg index known⟩
  · intro reg defined used
    obtain ⟨index, known⟩ := slots.result reg defined used
    exact ⟨index, later reg index known⟩

theorem allocateMemoryIndex_spec (MFI : EVMMachineFunctionInfo) (reg : Register) :
    Extends (MFI.allocateMemoryIndex reg).1 MFI ∧
      (MFI.allocateMemoryIndex reg).1.getMemoryIndex reg = some (MFI.allocateMemoryIndex reg).2 := by
  unfold EVMMachineFunctionInfo.allocateMemoryIndex
  cases known : MFI.getMemoryIndex reg with
  | some index => exact ⟨Extends.refl MFI, known⟩
  | none =>
      constructor
      · intro other index found
        simp only [EVMMachineFunctionInfo.getMemoryIndex,
          EVMMachineFunctionInfo.updateMemoryFrameSize, List.lookup_append] at found ⊢
        rw [found]
        rfl
      · simp only [EVMMachineFunctionInfo.getMemoryIndex] at known
        simp [EVMMachineFunctionInfo.getMemoryIndex,
          EVMMachineFunctionInfo.updateMemoryFrameSize, List.lookup_append, known]

theorem storeResult_spec {stores : List OutInstr}
    (done : storeResult MRI instr MFI = (next, stores)) :
    Extends next MFI ∧
      (∀ reg, instr.defRegister = some reg → MRI.useEmpty reg = false →
        ∃ index, next.getMemoryIndex reg = some index) ∧
      ∀ final, Extends final next → stores = storesOf MRI final instr := by
  unfold storeResult at done
  unfold storesOf
  cases defined : instr.defRegister with
  | none =>
      simp only [defined, Prod.mk.injEq] at done
      obtain ⟨rfl, rfl⟩ := done
      exact ⟨Extends.refl _, (fun _ absent => by cases absent), fun _ _ => rfl⟩
  | some reg =>
      simp only [defined] at done
      by_cases unused : MRI.useEmpty reg = true
      · simp only [unused, if_true, Prod.mk.injEq] at done
        obtain ⟨rfl, rfl⟩ := done
        refine ⟨Extends.refl _, fun other same used => ?_, fun _ _ => by simp [unused]⟩
        cases same
        rw [unused] at used
        cases used
      · simp only [unused] at done
        cases done
        obtain ⟨grows, known⟩ := allocateMemoryIndex_spec MFI reg
        refine ⟨grows, fun other same _ => ?_, fun final later => ?_⟩
        · cases same
          exact ⟨_, known⟩
        · simp [unused, slotOf_extends later known]

theorem insertLoads_spec {regs : List Register} {inserted loads : List OutInstr}
    (done : Runs.run (insertLoad MFI) regs inserted = some loads) :
    (∀ reg ∈ regs, ∃ index, MFI.getMemoryIndex reg = some index) ∧
      ∀ final, Extends final MFI → loads = loadsOf final regs.reverse ++ inserted := by
  induction regs generalizing inserted with
  | nil =>
      cases done
      exact ⟨(fun _ absent => by cases absent), fun _ _ => rfl⟩
  | cons reg rest ih =>
      obtain ⟨middle, loaded, remaining⟩ := Runs.run_cons_eq_some _ done
      obtain ⟨index, known, rfl⟩ := map_eq_some_iff.mp loaded
      obtain ⟨slots, code⟩ := ih remaining
      refine ⟨fun other member => ?_, fun final later => ?_⟩
      · rcases mem_cons.mp member with rfl | deeper
        · exact ⟨index, known⟩
        · exact slots other deeper
      · rw [code final later, reverse_cons, loadsOf, loadsOf, map_append,
          List.append_assoc, map_singleton, singleton_append, slotOf_extends later known]

theorem rewriteInstr_spec (done : rewriteInstr MRI ref MFI = some (next, code)) :
    Extends next MFI ∧ HasSlots MRI next ref.instr ∧
      ∀ final, Extends final next → code = codeOf MRI final ref := by
  unfold rewriteInstr at done
  cases stored : storeResult MRI ref.instr MFI with
  | mk middle stores =>
      simp only [stored] at done
      obtain ⟨loads, loaded, same⟩ := map_eq_some_iff.mp done
      cases same
      obtain ⟨grows, result, storeCode⟩ := storeResult_spec stored
      obtain ⟨uses, loadCode⟩ := insertLoads_spec loaded
      refine ⟨grows, ⟨fun reg member => uses reg (mem_reverse.mpr member), result⟩, ?_⟩
      intro final later
      rw [loadCode final later, storeCode final later, reverse_reverse, append_nil]
      rfl

theorem rewriteInstrs_spec (done : rewriteInstrs MRI refs MFI = some (next, code)) :
    Extends next MFI ∧ (∀ ref ∈ refs, HasSlots MRI next ref.instr) ∧
      ∀ final, Extends final next → code = refs.flatMap (codeOf MRI final) := by
  induction refs generalizing MFI code with
  | nil =>
      cases done
      exact ⟨Extends.refl _, (fun _ absent => by cases absent), fun _ _ => rfl⟩
  | cons ref rest ih =>
      obtain ⟨⟨middle, first⟩, rewritten, done⟩ := bind_eq_some_iff.mp done
      obtain ⟨⟨last, later⟩, remaining, same⟩ := bind_eq_some_iff.mp done
      cases same
      obtain ⟨grows, slots, code⟩ := rewriteInstr_spec rewritten
      obtain ⟨growsOn, slotsOn, codeOn⟩ := ih remaining
      refine ⟨growsOn.trans grows, fun other member => ?_, fun final extended => ?_⟩
      · rcases mem_cons.mp member with rfl | deeper
        · exact slots.extends growsOn
        · exact slotsOn other deeper
      · rw [code final (extended.trans growsOn), codeOn final extended, flatMap_cons]

def blockCodeOf (F : MachineFunction) (MFI : EVMMachineFunctionInfo) (block : Nat) : BlockCode :=
  ⟨(stackArgs F block).flatMap (codeOf F.regInfo MFI), (bodyRefs F block).flatMap (codeOf F.regInfo MFI)⟩

theorem mem_stackArgs_or_bodyRefs {block : Nat} {ref : InstrRef}
    (member : ref ∈ F.instrRefs block) : ref ∈ stackArgs F block ∨ ref ∈ bodyRefs F block := by
  unfold stackArgs bodyRefs
  by_cases entry : block = 0
  · rw [if_pos entry, if_pos entry]
    rw [← takeWhile_append_dropWhile (p := EVMStackAlloc.isStackArg) (l := F.instrRefs block)]
      at member
    exact mem_append.mp member
  · rw [if_neg entry, if_neg entry]
    exact Or.inr member

theorem rewriteBlock_spec {block : Nat} {code : BlockCode}
    (done : rewriteBlock F block MFI = some (next, code)) :
    Extends next MFI ∧ (∀ ref ∈ F.instrRefs block, HasSlots F.regInfo next ref.instr) ∧
      ∀ final, Extends final next → code = blockCodeOf F final block := by
  obtain ⟨⟨middle, prologue⟩, first, done⟩ := bind_eq_some_iff.mp done
  obtain ⟨⟨last, body⟩, second, same⟩ := bind_eq_some_iff.mp done
  cases same
  obtain ⟨grows, slots, argCode⟩ := rewriteInstrs_spec first
  obtain ⟨growsOn, slotsOn, bodyCode⟩ := rewriteInstrs_spec second
  refine ⟨growsOn.trans grows, fun ref member => ?_, fun final extended => ?_⟩
  · rcases mem_stackArgs_or_bodyRefs member with arg | inner
    · exact (slots ref arg).extends growsOn
    · exact slotsOn ref inner
  · rw [argCode final (extended.trans growsOn), bodyCode final extended]
    rfl

theorem rewriteBlocks_spec {blocks : List Nat}
    (done : rewriteBlocks F blocks MFI = some (next, codes)) :
    Extends next MFI ∧
      (∀ block ∈ blocks, ∀ ref ∈ F.instrRefs block, HasSlots F.regInfo next ref.instr) ∧
      ∀ final, Extends final next → codes = blocks.map (blockCodeOf F final) := by
  induction blocks generalizing MFI codes with
  | nil =>
      cases done
      exact ⟨Extends.refl _, (fun _ absent => by cases absent), fun _ _ => rfl⟩
  | cons block rest ih =>
      obtain ⟨⟨middle, first⟩, rewritten, done⟩ := bind_eq_some_iff.mp done
      obtain ⟨⟨last, later⟩, remaining, same⟩ := bind_eq_some_iff.mp done
      cases same
      obtain ⟨grows, slots, code⟩ := rewriteBlock_spec rewritten
      obtain ⟨growsOn, slotsOn, codeOn⟩ := ih remaining
      refine ⟨growsOn.trans grows, fun other member => ?_, fun final extended => ?_⟩
      · rcases mem_cons.mp member with rfl | deeper
        · exact fun ref inside => (slots ref inside).extends growsOn
        · exact slotsOn other deeper
      · rw [code final (extended.trans growsOn), codeOn final extended, map_cons]

/-! ### Numbers of different registers -/

structure Separate (MFI : EVMMachineFunctionInfo) : Prop where
  below : ∀ reg index, MFI.getMemoryIndex reg = some index → index < MFI.reg2index.length
  distinct : ∀ reg other index, MFI.getMemoryIndex reg = some index →
    MFI.getMemoryIndex other = some index → reg = other

theorem allocateMemoryIndex_cases (MFI : EVMMachineFunctionInfo) (reg other : Register) (index : Nat)
    (held : (MFI.allocateMemoryIndex reg).1.getMemoryIndex other = some index) :
    MFI.getMemoryIndex other = some index ∨ (other = reg ∧ MFI.getMemoryIndex reg = none ∧
      index = MFI.reg2index.length) := by
  unfold EVMMachineFunctionInfo.allocateMemoryIndex at held
  cases known : MFI.getMemoryIndex reg with
  | some old =>
      rw [known] at held
      exact Or.inl held
  | none =>
      rw [known] at held
      simp only [EVMMachineFunctionInfo.getMemoryIndex,
        EVMMachineFunctionInfo.updateMemoryFrameSize, List.lookup_append,
        or_eq_some_iff] at held
      rcases held with earlier | ⟨_, new⟩
      · exact Or.inl earlier
      · simp only [List.lookup_cons, lookup_nil] at new
        split at new
        · rename_i same
          cases new
          exact Or.inr ⟨beq_iff_eq.mp same, rfl, rfl⟩
        · cases new

theorem length_allocateMemoryIndex (MFI : EVMMachineFunctionInfo) (reg : Register) :
    (MFI.allocateMemoryIndex reg).1.reg2index.length =
      MFI.reg2index.length + if MFI.getMemoryIndex reg = none then 1 else 0 := by
  unfold EVMMachineFunctionInfo.allocateMemoryIndex
  cases known : MFI.getMemoryIndex reg <;>
    simp [EVMMachineFunctionInfo.updateMemoryFrameSize]

theorem allocateMemoryIndex_separate (separate : Separate MFI) (reg : Register) :
    Separate (MFI.allocateMemoryIndex reg).1 := by
  have found := allocateMemoryIndex_cases MFI reg
  constructor
  · intro other index held
    rw [length_allocateMemoryIndex]
    rcases found other index held with old | ⟨_, missing, rfl⟩
    · have := separate.below other index old
      omega
    · rw [if_pos missing]
      omega
  · intro first second index heldFirst heldSecond
    rcases found first index heldFirst with oldFirst | ⟨rfl, _, rfl⟩
    · rcases found second index heldSecond with oldSecond | ⟨rfl, _, rfl⟩
      · exact separate.distinct first second index oldFirst oldSecond
      · exact absurd (separate.below first _ oldFirst) (Nat.lt_irrefl _)
    · rcases found second _ heldSecond with oldSecond | ⟨rfl, _, _⟩
      · exact absurd (separate.below second _ oldSecond) (Nat.lt_irrefl _)
      · rfl

theorem rewriteInstrs_keeps (Inv : EVMMachineFunctionInfo → Prop)
    (allocates : ∀ MFI reg, MRI.useEmpty reg = false → Inv MFI → Inv (MFI.allocateMemoryIndex reg).1)
    (start : Inv MFI) (done : rewriteInstrs MRI refs MFI = some (next, code)) : Inv next := by
  induction refs generalizing MFI code with
  | nil =>
      cases done
      exact start
  | cons ref rest ih =>
      obtain ⟨⟨middle, first⟩, rewritten, done⟩ := bind_eq_some_iff.mp done
      obtain ⟨⟨last, later⟩, remaining, same⟩ := bind_eq_some_iff.mp done
      cases same
      refine ih ?_ remaining
      unfold rewriteInstr storeResult at rewritten
      cases defined : ref.instr.defRegister with
      | none =>
          simp only [defined] at rewritten
          obtain ⟨_, _, same⟩ := map_eq_some_iff.mp rewritten
          cases same
          exact start
      | some reg =>
          simp only [defined] at rewritten
          by_cases unused : MRI.useEmpty reg = true
          · simp only [unused, if_true] at rewritten
            obtain ⟨_, _, same⟩ := map_eq_some_iff.mp rewritten
            cases same
            exact start
          · simp only [unused] at rewritten
            obtain ⟨_, _, same⟩ := map_eq_some_iff.mp rewritten
            cases same
            exact allocates MFI reg (Bool.eq_false_iff.mpr unused) start

theorem rewriteBlocks_keeps (Inv : EVMMachineFunctionInfo → Prop)
    (allocates : ∀ MFI reg, F.regInfo.useEmpty reg = false → Inv MFI → Inv (MFI.allocateMemoryIndex reg).1)
    {blocks : List Nat} (start : Inv MFI) (done : rewriteBlocks F blocks MFI = some (next, codes)) :
      Inv next := by
  induction blocks generalizing MFI codes with
  | nil =>
      cases done
      exact start
  | cons block rest ih =>
      obtain ⟨⟨middle, first⟩, rewritten, done⟩ := bind_eq_some_iff.mp done
      obtain ⟨⟨last, later⟩, remaining, same⟩ := bind_eq_some_iff.mp done
      cases same
      obtain ⟨⟨between, prologue⟩, args, rewritten⟩ := bind_eq_some_iff.mp rewritten
      obtain ⟨⟨after, body⟩, inner, same⟩ := bind_eq_some_iff.mp rewritten
      cases same
      exact ih (rewriteInstrs_keeps Inv allocates (rewriteInstrs_keeps Inv allocates start args) inner)
        remaining

def OnlyRead (MRI : MachineRegisterInfo) (MFI : EVMMachineFunctionInfo) : Prop :=
  ∀ reg index, MFI.getMemoryIndex reg = some index → MRI.useEmpty reg = false

theorem allocateMemoryIndex_onlyRead (used : MRI.useEmpty reg = false) (read : OnlyRead MRI MFI) :
    OnlyRead MRI (MFI.allocateMemoryIndex reg).1 := by
  intro other index held
  rcases allocateMemoryIndex_cases MFI reg other index held with old | ⟨rfl, _, _⟩
  · exact read other index old
  · exact used

structure Converted (F : MachineFunction) (MFI : EVMMachineFunctionInfo) (codes : List BlockCode) :
    Prop where
  separate : Separate MFI
  read : OnlyRead F.regInfo MFI
  slots : ∀ ref ∈ F.allRefs, HasSlots F.regInfo MFI ref.instr
  codes : codes = (List.range F.blocks.length).map (blockCodeOf F MFI)

theorem rewriteFunction_converted (done : rewriteFunction F = some (MFI, codes)) : Converted F MFI codes := by
  obtain ⟨_, slots, code⟩ := rewriteBlocks_spec done
  constructor
  · refine rewriteBlocks_keeps Separate (fun _ reg _ separate =>
      allocateMemoryIndex_separate separate reg) ⟨?_, ?_⟩ done
    · intro reg index absent
      cases absent
    · intro reg other index absent
      cases absent
  · refine rewriteBlocks_keeps (OnlyRead F.regInfo)
      (fun _ _ used read => allocateMemoryIndex_onlyRead used read) ?_ done
    intro reg index absent
    cases absent
  · intro ref member
    obtain ⟨block, inside, inBlock⟩ := mem_flatMap.mp member
    exact slots block inside ref inBlock
  · exact code MFI (Extends.refl MFI)

/-! ### When the pass completes -/

/-- Every register an instruction reads is defined by it or by one before it in the layout,
unless it is among the known ones. -/
def DefinedFirst : List Register → List InstrRef → Prop
  | _, [] => True
  | known, ref :: rest =>
      (∀ reg ∈ ref.instr.useRegisters, reg ∈ ref.instr.defRegister.toList ++ known) ∧
        DefinedFirst (ref.instr.defRegister.toList ++ known) rest

instance decidableDefinedFirst : ∀ known refs, Decidable (DefinedFirst known refs)
  | _, [] => isTrue trivial
  | known, ref :: rest =>
      haveI := decidableDefinedFirst (ref.instr.defRegister.toList ++ known) rest
      inferInstanceAs (Decidable (_ ∧ _))

def Tracks (MRI : MachineRegisterInfo) (MFI : EVMMachineFunctionInfo) (known : List Register) : Prop :=
  ∀ reg, MRI.useEmpty reg = false → (reg ∈ known ↔ (MFI.getMemoryIndex reg).isSome)

theorem storeResult_tracks {known : List Register} (tracks : Tracks MRI MFI known) (instr : MachineInstr) :
    Tracks MRI (storeResult MRI instr MFI).1 (instr.defRegister.toList ++ known) := by
  intro reg used
  unfold storeResult
  cases instr.defRegister with
  | none => exact tracks reg used
  | some defined =>
      rw [toList_some, singleton_append, mem_cons]
      by_cases unused : MRI.useEmpty defined = true
      · have other : reg ≠ defined := by
          rintro rfl
          exact absurd (used.symm.trans unused) Bool.false_ne_true
        simp only [unused, if_true]
        rw [or_iff_right other]
        exact tracks reg used
      · obtain ⟨grows, number⟩ := allocateMemoryIndex_spec MFI defined
        simp only [unused]
        constructor
        · rintro (rfl | member)
          · exact isSome_iff_exists.mpr ⟨_, number⟩
          · obtain ⟨index, old⟩ := isSome_iff_exists.mp ((tracks reg used).mp member)
            exact isSome_iff_exists.mpr ⟨index, grows reg index old⟩
        · intro numbered
          obtain ⟨index, held⟩ := isSome_iff_exists.mp numbered
          rcases allocateMemoryIndex_cases MFI defined reg index held with old | ⟨same, _, _⟩
          · exact .inr ((tracks reg used).mpr (isSome_iff_exists.mpr ⟨index, old⟩))
          · exact .inl same

theorem loadOperands_isSome_iff :
    (loadOperands MFI instr).isSome ↔ ∀ reg ∈ instr.useRegisters, (MFI.getMemoryIndex reg).isSome := by
  have run : ∀ (regs : List Register) (inserted : List OutInstr),
      (Runs.run (insertLoad MFI) regs inserted).isSome ↔ ∀ reg ∈ regs, (MFI.getMemoryIndex reg).isSome := by
    intro regs
    induction regs with
    | nil => exact fun _ => iff_of_true rfl (fun _ absent => by cases absent)
    | cons reg rest ih =>
        intro inserted
        rw [Runs.run_cons, insertLoad, forall_mem_cons]
        cases MFI.getMemoryIndex reg with
        | none => exact ⟨nofun, fun both => absurd both.1 Bool.false_ne_true⟩
        | some index => exact (ih _).trans (and_iff_right rfl).symm
  rw [loadOperands, run]
  simp only [mem_reverse]

theorem rewriteInstrs_cons (ref : InstrRef) (rest : List InstrRef) :
    (rewriteInstrs MRI (ref :: rest) MFI).map Prod.fst =
      (rewriteInstr MRI ref MFI).bind fun first => (rewriteInstrs MRI rest first.1).map Prod.fst := by
  simp only [rewriteInstrs, bind_eq_bind, map_eq_bind, bind_assoc]
  rfl

theorem rewriteInstrs_append (front back : List InstrRef) :
    (rewriteInstrs MRI (front ++ back) MFI).map Prod.fst =
      ((rewriteInstrs MRI front MFI).map Prod.fst).bind fun next =>
      (rewriteInstrs MRI back next).map Prod.fst := by
  induction front generalizing MFI with
  | nil => rfl
  | cons ref rest ih =>
      rw [List.cons_append, rewriteInstrs_cons, rewriteInstrs_cons, bind_assoc]
      exact congrArg _ (funext fun first => ih)

theorem rewriteBlocks_numbers (F : MachineFunction) (blocks : List Nat) :
    (rewriteBlocks F blocks MFI).map Prod.fst =
      (rewriteInstrs F.regInfo (blocks.flatMap F.instrRefs) MFI).map Prod.fst := by
  induction blocks generalizing MFI with
  | nil => rfl
  | cons block rest ih =>
      have whole : F.instrRefs block = stackArgs F block ++ bodyRefs F block := by
        unfold stackArgs bodyRefs
        split
        · exact takeWhile_append_dropWhile.symm
        · rfl
      simp only [flatMap_cons, whole, rewriteInstrs_append, ← ih]
      simp only [rewriteBlocks, rewriteBlock, bind_eq_bind, map_eq_bind, bind_assoc]
      rfl

theorem rewriteInstrs_isSome_iff {known : List Register} (tracks : Tracks MRI MFI known)
    (read : ∀ ref ∈ refs, ∀ reg ∈ ref.instr.useRegisters, MRI.useEmpty reg = false) :
    ((rewriteInstrs MRI refs MFI).map Prod.fst).isSome ↔ DefinedFirst known refs := by
  induction refs generalizing MFI known with
  | nil => exact iff_of_true rfl trivial
  | cons ref rest ih =>
      obtain ⟨here, later⟩ := forall_mem_cons.mp read
      have stored := storeResult_tracks tracks ref.instr
      have defined : (∀ reg ∈ ref.instr.useRegisters, reg ∈ ref.instr.defRegister.toList ++ known) ↔
          (loadOperands (storeResult MRI ref.instr MFI).1 ref.instr).isSome := by
        rw [loadOperands_isSome_iff]
        exact forall₂_congr fun reg reads => stored reg (here reg reads)
      have first : rewriteInstr MRI ref MFI = (loadOperands (storeResult MRI ref.instr MFI).1 ref.instr).map
          fun loads => ((storeResult MRI ref.instr MFI).1,
            loads ++ keepInstr ref ++ (storeResult MRI ref.instr MFI).2) :=
        rfl
      rw [rewriteInstrs_cons, DefinedFirst, defined, ← ih stored later, first]
      cases loadOperands (storeResult MRI ref.instr MFI).1 ref.instr with
      | none => exact ⟨nofun, fun both => absurd both.1 Bool.false_ne_true⟩
      | some loads => exact (and_iff_right rfl).symm

theorem useEmpty_of_uses (listed : ref ∈ F.allRefs) (reads : reg ∈ ref.instr.useRegisters) :
    F.regInfo.useEmpty reg = false := by
  have operand : (reg, ref.slotIndex.getRegSlot) ∈ F.regInfo.uses :=
    mem_flatMap.mpr ⟨ref, listed, List.mem_map.mpr ⟨reg, reads, rfl⟩⟩
  unfold MachineRegisterInfo.useEmpty MachineRegisterInfo.useOperands
  rw [isEmpty_eq_false_iff]
  exact ne_nil_of_mem (List.mem_map.mpr
    ⟨_, mem_filter.mpr ⟨operand, decide_eq_true rfl⟩, rfl⟩)

theorem rewriteFunction_isSome_iff (F : MachineFunction) :
    (rewriteFunction F).isSome ↔ DefinedFirst [] F.allRefs := by
  have start : Tracks F.regInfo ⟨[], 0⟩ [] := fun reg _ => iff_of_false not_mem_nil Bool.false_ne_true
  rw [← rewriteInstrs_isSome_iff start fun ref listed reg reads => useEmpty_of_uses listed reads]
  have numbers : (rewriteFunction F).map Prod.fst = (rewriteInstrs F.regInfo F.allRefs ⟨[], 0⟩).map Prod.fst :=
    rewriteBlocks_numbers F (List.range F.blocks.length)
  rw [← isSome_map (f := Prod.fst)]
  exact Eq.to_iff (congrArg (fun next => next.isSome = true) numbers)

end EVMVRegToMem

end EvmBackend
