/-
Operand order at -O0: the converted function on a stack and local slots against
the register form.

What an instruction computes and where it sends control are parameters. An
instruction of the stack form takes its first operand from the top. Execution
starts behind the arguments at the start of the entry block.
-/

import EvmBackend.Machine
import EvmBackend.VRegToMem.Rewriting

namespace EvmBackend.EVMVRegToMem

open List Function

open EVMStackAlloc (stackArgs bodyRefs RegisterState StackState execOut execCode popValue)
open EVM (Word)

/-! ### Execution -/

inductive Control
  | next
  | jump (block : Nat)
  | leave
  deriving DecidableEq, Repr

/-- The block to execute when one has ended; the layout decides for one that
falls through. -/
def Control.following (control : Control) (block count : Nat) : Option Nat :=
  match control with
  | .next => if block + 1 < count then some (block + 1) else none
  | .jump target => some target
  | .leave => none

section Semantics

variable {World : Type} (sem : MachineInstr → List Word → World → Word × World × Control)

/-- A copy moves its operand and nothing else; an instruction with a result
does not jump. -/
structure Lawful : Prop where
  copies : ∀ instr value world, instr.opcode = pMOVE_r → sem instr [value] world = (value, world, .next)
  results : ∀ instr values world, instr.defRegister ≠ none → (sem instr values world).2.2 = .next

def runInstr (instr : MachineInstr) (state : RegisterState Word World) :
    RegisterState Word World × Control :=
  let result := sem instr (instr.useRegisters.map state.regs) state.world
  (⟨match instr.defRegister with
      | some reg => update state.regs reg result.1
      | none => state.regs, result.2.1⟩, result.2.2)

def runInstrs : List InstrRef → RegisterState Word World → RegisterState Word World × Control
  | [], state => (state, .next)
  | ref :: rest, state =>
      let after := runInstr sem ref.instr state
      if after.2 = .next then runInstrs rest after.1 else after

def runFunction (F : MachineFunction) :
    Nat → Option Nat → RegisterState Word World → Option Nat × RegisterState Word World
  | 0, position, state => (position, state)
  | _ + 1, none, state => (none, state)
  | count + 1, some block, state =>
      let after := runInstrs sem (bodyRefs F block) state
      runFunction F count (after.2.following block F.blocks.length) after.1

def effectOf (instr : MachineInstr) (values : List Word) (world : World) : Word × World :=
  ((sem instr values world).1, (sem instr values world).2.1)

def controlOf (rt : StackState Word World) : OutInstr → Control
  | .original ref => (sem ref.instr (rt.stack.take ref.instr.useRegisters.length) rt.world).2.2
  | _ => .next

def runOut : List OutInstr → StackState Word World → Option (StackState Word World × Control)
  | [], rt => some (rt, .next)
  | out :: rest, rt =>
      (execOut (effectOf sem) out rt).bind fun after =>
        if controlOf sem rt out = .next then runOut rest after
        else some (after, controlOf sem rt out)

def bodyAt (codes : List BlockCode) (block : Nat) : List OutInstr :=
  (codes[block]?.map BlockCode.body).getD []

def runConverted (F : MachineFunction) (codes : List BlockCode) :
    Nat → Option Nat → StackState Word World → Option (Option Nat × StackState Word World)
  | 0, position, rt => some (position, rt)
  | _ + 1, none, rt => some (none, rt)
  | count + 1, some block, rt =>
      (runOut sem (bodyAt codes block) rt).bind fun after =>
        runConverted F codes count (after.2.following block F.blocks.length) after.1

end Semantics

/-- The loads before the instruction leave the first operand on top, the second
below it, and so on. -/
def LoadsInOrder (MFI : EVMMachineFunctionInfo) (instr : MachineInstr) : Prop :=
  ∀ loads, loadOperands MFI instr = some loads →
    ∀ rt : StackState Word Unit, execCode (fun _ _ world => (0, world)) loads rt =
      some { rt with
        stack := instr.useRegisters.map (fun reg => rt.locals (slotOf MFI reg)) ++ rt.stack }

structure Held {World : Type} (MFI : EVMMachineFunctionInfo) (state : RegisterState Word World)
    (rt : StackState Word World) : Prop where
  world : rt.world = state.world
  locals : ∀ reg index, MFI.getMemoryIndex reg = some index → rt.locals index = state.regs reg

/-- From states that agree, both forms run through the same blocks to states
that agree, and the converted form leaves the stack as it was. -/
def ExecutesAlike (F : MachineFunction) (MFI : EVMMachineFunctionInfo) (codes : List BlockCode) :
    Prop :=
  ∀ (World : Type) (sem : MachineInstr → List Word → World → Word × World × Control),
    Lawful sem → ∀ count position state rt, Held MFI state rt →
      ∃ final, runConverted sem F codes count position rt =
          some ((runFunction sem F count position state).1, final) ∧
        Held MFI (runFunction sem F count position state).2 final ∧ final.stack = rt.stack

def IsCopy (instr : MachineInstr) : Prop :=
  instr.useRegisters.length = 1 ∧ instr.defRegister ≠ none

instance (instr : MachineInstr) : Decidable (IsCopy instr) := inferInstanceAs (Decidable (_ ∧ _))

def ReadsSameBackwards (instr : MachineInstr) : Prop :=
  instr.useRegisters.reverse = instr.useRegisters

instance (instr : MachineInstr) : Decidable (ReadsSameBackwards instr) :=
  inferInstanceAs (Decidable (_ = _))

/-! ### Loads -/

variable {F : MachineFunction} {MFI : EVMMachineFunctionInfo} {codes : List BlockCode}

theorem execCode_loadsOf {World : Type} (sem : MachineInstr → List Word → World → Word × World)
    (regs : List Register) (rt : StackState Word World) :
    execCode sem (loadsOf MFI regs) rt =
      some { rt with
        stack := regs.reverse.map (fun reg => rt.locals (slotOf MFI reg)) ++ rt.stack } := by
  induction regs generalizing rt with
  | nil => rfl
  | cons reg rest ih =>
      have loaded : execCode sem (loadsOf MFI (reg :: rest)) rt =
          execCode sem (loadsOf MFI rest)
            { rt with stack := rt.locals (slotOf MFI reg) :: rt.stack } := rfl
      rw [loaded, ih, reverse_cons, map_append, List.append_assoc]
      rfl

variable {instr : MachineInstr}

theorem loadOperands_eq {loads : List OutInstr} (loaded : loadOperands MFI instr = some loads) :
    loads = loadsOf MFI instr.useRegisters := by
  obtain ⟨_, code⟩ := insertLoads_spec loaded
  rw [code MFI (Extends.refl MFI), reverse_reverse, append_nil]

theorem loadOperands_isSome {MRI : MachineRegisterInfo} (slots : HasSlots MRI MFI instr) :
    loadOperands MFI instr = some (loadsOf MFI instr.useRegisters) := by
  have run : ∀ (regs : List Register) (inserted : List OutInstr),
      (∀ reg ∈ regs, ∃ index, MFI.getMemoryIndex reg = some index) →
      ∃ loads, Runs.run (insertLoad MFI) regs inserted = some loads := by
    intro regs
    induction regs with
    | nil => exact fun inserted _ => ⟨inserted, rfl⟩
    | cons reg rest ih =>
        intro inserted known
        obtain ⟨index, found⟩ := known reg mem_cons_self
        rw [Runs.run_cons, insertLoad, found]
        exact ih _ fun other member => known other (mem_cons_of_mem reg member)
  obtain ⟨loads, loaded⟩ := run instr.useRegisters.reverse [] fun reg member =>
    slots.uses reg (mem_reverse.mp member)
  rw [← loadOperands_eq loaded]
  exact loaded

theorem eq_of_map_eq (slot : Register → Nat) {left right : List Register}
    (separate : ∀ reg ∈ left, ∀ other ∈ right, slot reg = slot other → reg = other)
    (same : ∀ values : Nat → Word, left.map (fun reg => values (slot reg)) =
      right.map fun reg => values (slot reg)) : left = right := by
  have size : left.length = right.length := by
    simpa using congrArg List.length (same fun _ => 0)
  refine ext_getElem size fun place inLeft inRight => ?_
  have marked := same fun index => if index = slot left[place] then 1 else 0
  have here := congrArg (fun words : List Word => words[place]?) marked
  simp only [getElem?_map, List.getElem?_eq_getElem inLeft, List.getElem?_eq_getElem inRight,
    Option.map_some, Option.some.injEq, if_true] at here
  refine separate _ (getElem_mem inLeft) _ (getElem_mem inRight) ?_
  by_contra apart
  rw [if_neg (Ne.symm apart)] at here
  exact absurd here (by decide)

theorem loadsInOrder_iff {MRI : MachineRegisterInfo} (separate : Separate MFI)
    (slots : HasSlots MRI MFI instr) : LoadsInOrder MFI instr ↔ ReadsSameBackwards instr := by
  have code := loadOperands_isSome slots
  constructor
  · intro ordered
    refine eq_of_map_eq (slotOf MFI) (fun reg member other found same => ?_) fun values => ?_
    · obtain ⟨index, known⟩ := slots.uses reg (mem_reverse.mp member)
      obtain ⟨number, held⟩ := slots.uses other found
      rw [slotOf_extends (Extends.refl MFI) known, slotOf_extends (Extends.refl MFI) held] at same
      subst number
      exact separate.distinct reg other index known held
    · have ended := ordered _ code ⟨[], values, ()⟩
      rw [execCode_loadsOf] at ended
      simpa using congrArg StackState.stack (Option.some.inj ended)
  · intro backwards loads loaded rt
    rw [loadOperands_eq loaded, execCode_loadsOf, backwards]

section Simulation

variable {World : Type} {sem : MachineInstr → List Word → World → Word × World × Control}

theorem runOut_loadsOf (regs : List Register) (rest : List OutInstr)
    (rt : StackState Word World) :
    runOut sem (loadsOf MFI regs ++ rest) rt = runOut sem rest { rt with
      stack := regs.reverse.map (fun reg => rt.locals (slotOf MFI reg)) ++ rt.stack } := by
  induction regs generalizing rt with
  | nil => rfl
  | cons reg later ih =>
      have loaded : runOut sem (loadsOf MFI (reg :: later) ++ rest) rt =
          runOut sem (loadsOf MFI later ++ rest)
            { rt with stack := rt.locals (slotOf MFI reg) :: rt.stack } := rfl
      rw [loaded, ih, reverse_cons, map_append, List.append_assoc]
      rfl

variable {MRI : MachineRegisterInfo} {ref : InstrRef} {state : RegisterState Word World}
  {rt : StackState Word World}

theorem runOut_storesOf (sem : MachineInstr → List Word → World → Word × World × Control)
    {reg : Register} {value : Word} {base : List Word} (separate : Separate MFI)
    (read : OnlyRead MRI MFI) (slots : HasSlots MRI MFI instr)
    (defined : instr.defRegister = some reg) (held : Held MFI state rt)
    (top : rt.stack = value :: base) (rest : List OutInstr) :
    ∃ stored, runOut sem (storesOf MRI MFI instr ++ rest) rt = runOut sem rest stored ∧
      Held MFI ⟨update state.regs reg value, state.world⟩ stored ∧ stored.stack = base := by
  unfold storesOf
  simp only [defined]
  by_cases unused : MRI.useEmpty reg = true
  · refine ⟨{ rt with stack := base }, ?_, ⟨held.world, fun other index known => ?_⟩, rfl⟩
    · simp [unused, runOut, execOut, popValue, top, controlOf]
    · have apart : other ≠ reg := by
        rintro rfl
        rw [read other index known] at unused
        cases unused
      simp only [update_of_ne apart]
      exact held.locals other index known
  · obtain ⟨slot, known⟩ := slots.result reg defined (Bool.eq_false_iff.mpr unused)
    have numbered : slotOf MFI reg = slot := slotOf_extends (Extends.refl MFI) known
    refine ⟨{ rt with stack := base, locals := update rt.locals slot value }, ?_,
      ⟨held.world, fun other index found => ?_⟩, rfl⟩
    · simp [unused, runOut, execOut, popValue, top, controlOf, numbered]
    · by_cases same : other = reg
      · subst other
        obtain rfl : index = slot := Option.some.inj (found.symm.trans known)
        simp only [update_self]
      · have apart : index ≠ slot := by
          rintro rfl
          exact same (separate.distinct other reg index found known)
        simp only [update_of_ne apart, update_of_ne same]
        exact held.locals other index found

theorem runOut_loads (slots : HasSlots MRI MFI instr) (backwards : ReadsSameBackwards instr)
    (held : Held MFI state rt) (rest : List OutInstr) :
    runOut sem (loadsOf MFI instr.useRegisters ++ rest) rt = runOut sem rest
      { rt with stack := instr.useRegisters.map state.regs ++ rt.stack } := by
  rw [runOut_loadsOf, backwards]
  have values : instr.useRegisters.map (fun reg => rt.locals (slotOf MFI reg)) =
      instr.useRegisters.map state.regs := by
    refine map_congr_left fun reg member => ?_
    obtain ⟨index, known⟩ := slots.uses reg member
    rw [slotOf_extends (Extends.refl MFI) known]
    exact held.locals reg index known
  rw [values]

theorem runOut_original (sem : MachineInstr → List Word → World → Word × World × Control)
    (rest : List OutInstr) (base : List Word) (values : List Word)
    (count : values.length = ref.instr.useRegisters.length) :
    runOut sem (.original ref :: rest) { rt with stack := values ++ base } =
      if (sem ref.instr values rt.world).2.2 = .next then
        runOut sem rest { rt with
          stack := if ref.instr.defRegister.isSome then
            (sem ref.instr values rt.world).1 :: base else base
          world := (sem ref.instr values rt.world).2.1 }
      else some ({ rt with
          stack := if ref.instr.defRegister.isSome then
            (sem ref.instr values rt.world).1 :: base else base
          world := (sem ref.instr values rt.world).2.1 }, (sem ref.instr values rt.world).2.2) := by
  have enough : ¬ (values ++ base).length < ref.instr.useRegisters.length := by
    rw [length_append]
    omega
  have taken : (values ++ base).take ref.instr.useRegisters.length = values := by
    rw [← count, take_left]
  have left : (values ++ base).drop ref.instr.useRegisters.length = base := by
    rw [← count, drop_left]
  simp only [runOut, execOut, EVMStackAlloc.execOriginal, if_neg enough, taken, left, controlOf,
    effectOf, Option.bind_some]

theorem runOut_codeOf (lawful : Lawful sem) (separate : Separate MFI) (read : OnlyRead MRI MFI)
    (slots : HasSlots MRI MFI ref.instr) (backwards : ReadsSameBackwards ref.instr)
    (copy : ref.instr.opcode = pMOVE_r → IsCopy ref.instr) (held : Held MFI state rt)
    (rest : List OutInstr) :
    ∃ stored, Held MFI (runInstr sem ref.instr state).1 stored ∧ stored.stack = rt.stack ∧
      runOut sem (codeOf MRI MFI ref ++ rest) rt =
        if (runInstr sem ref.instr state).2 = .next then runOut sem rest stored
        else some (stored, (runInstr sem ref.instr state).2) := by
  unfold codeOf
  rw [List.append_assoc, List.append_assoc, runOut_loads slots backwards held]
  by_cases moves : ref.instr.opcode = pMOVE_r
  · obtain ⟨one, result⟩ := copy moves
    obtain ⟨src, operand⟩ := length_eq_one_iff.mp one
    obtain ⟨reg, defined⟩ := Option.ne_none_iff_exists'.mp result
    have copied := lawful.copies ref.instr (state.regs src) state.world moves
    have after : runInstr sem ref.instr state =
        (⟨update state.regs reg (state.regs src), state.world⟩, .next) := by
      simp only [runInstr, operand, map_singleton, copied, defined]
    have kept : keepInstr ref = [] := if_pos moves
    have loaded : Held MFI state { rt with stack := state.regs src :: rt.stack } :=
      ⟨held.world, held.locals⟩
    obtain ⟨stored, ran, holds, base⟩ :=
      runOut_storesOf sem separate read slots defined loaded rfl rest
    rw [after, operand, kept]
    exact ⟨stored, holds, base, ran⟩
  · have kept : keepInstr ref = [.original ref] := if_neg moves
    have count : (ref.instr.useRegisters.map state.regs).length = ref.instr.useRegisters.length :=
      length_map ..
    rw [kept, singleton_append, runOut_original sem _ _ _ count, held.world]
    cases defined : ref.instr.defRegister with
    | none =>
        have silent : storesOf MRI MFI ref.instr = [] := by simp only [storesOf, defined]
        refine ⟨_, ⟨?_, ?_⟩, ?_, by rw [silent]; rfl⟩
        · simp only [runInstr]
        · simp only [runInstr, defined]
          exact held.locals
        · rfl
    | some reg =>
        have continues := lawful.results ref.instr (ref.instr.useRegisters.map state.regs) state.world
          (by rw [defined]; exact Option.some_ne_none reg)
        have loaded : Held MFI
            ⟨state.regs, (sem ref.instr (ref.instr.useRegisters.map state.regs) state.world).2.1⟩
            { rt with
              stack := (sem ref.instr (ref.instr.useRegisters.map state.regs) state.world).1 :: rt.stack
              world := (sem ref.instr (ref.instr.useRegisters.map state.regs) state.world).2.1 } :=
          ⟨rfl, held.locals⟩
        obtain ⟨stored, ran, holds, base⟩ :=
          runOut_storesOf sem separate read slots defined loaded rfl rest
        refine ⟨stored, ?_, base, ?_⟩
        · simp only [runInstr, defined]
          exact holds
        · simp only [runInstr, continues, if_true, Option.isSome_some]
          exact ran

theorem runOut_codes (lawful : Lawful sem) (separate : Separate MFI) (read : OnlyRead MRI MFI)
    {refs : List InstrRef} (slots : ∀ ref ∈ refs, HasSlots MRI MFI ref.instr)
    (backwards : ∀ ref ∈ refs, ReadsSameBackwards ref.instr)
    (copies : ∀ ref ∈ refs, ref.instr.opcode = pMOVE_r → IsCopy ref.instr)
    (held : Held MFI state rt) :
    ∃ final, runOut sem (refs.flatMap (codeOf MRI MFI)) rt =
        some (final, (runInstrs sem refs state).2) ∧
      Held MFI (runInstrs sem refs state).1 final ∧ final.stack = rt.stack := by
  -- induction on the instructions; one that sends control elsewhere ends both runs
  induction refs generalizing state rt with
  | nil => exact ⟨rt, rfl, held, rfl⟩
  | cons ref rest ih =>
      obtain ⟨stored, holds, base, ran⟩ := runOut_codeOf lawful separate read
        (slots ref mem_cons_self) (backwards ref mem_cons_self)
        (copies ref mem_cons_self) held (rest.flatMap (codeOf MRI MFI))
      rw [flatMap_cons, ran, runInstrs]
      by_cases continues : (runInstr sem ref.instr state).2 = .next
      · rw [if_pos continues, if_pos continues]
        obtain ⟨final, finished, agrees, below⟩ := ih
          (fun other member => slots other (mem_cons_of_mem ref member))
          (fun other member => backwards other (mem_cons_of_mem ref member))
          (fun other member => copies other (mem_cons_of_mem ref member)) holds
        exact ⟨final, finished, agrees, below.trans base⟩
      · rw [if_neg continues, if_neg continues]
        exact ⟨stored, rfl, holds, base⟩

end Simulation

theorem bodyAt_converted (converted : Converted F MFI codes) (block : Nat) :
    bodyAt codes block = (bodyRefs F block).flatMap (codeOf F.regInfo MFI) := by
  rw [converted.codes, bodyAt, getElem?_map]
  by_cases inside : block < F.blocks.length
  · rw [getElem?_range inside]
    rfl
  · have outside : F.instrRefs block = [] := by
      rw [eq_nil_iff_forall_not_mem]
      intro ref member
      exact inside (MachineFunction.lt_of_mem_instrRefs member)
    rw [List.getElem?_eq_none (by simpa using inside)]
    simp [bodyRefs, outside]

theorem mem_allRefs_of_mem_bodyRefs {block : Nat} {ref : InstrRef}
    (member : ref ∈ bodyRefs F block) : ref ∈ F.allRefs := by
  have inBlock : ref ∈ F.instrRefs block := by
    unfold bodyRefs at member
    split at member
    · exact (dropWhile_sublist _).subset member
    · exact member
  exact MachineFunction.mem_allRefs_of_mem_instrRefs inBlock

theorem executesAlike_of_backwards (converted : Converted F MFI codes)
    (copies : ∀ ref ∈ F.allRefs, ref.instr.opcode = pMOVE_r → IsCopy ref.instr)
    (backwards : ∀ ref ∈ F.allRefs, ReadsSameBackwards ref.instr) :
    ExecutesAlike F MFI codes := by
  intro World sem lawful count
  induction count with
  | zero => exact fun position state rt held => ⟨rt, rfl, held, rfl⟩
  | succ count ih =>
      intro position state rt held
      cases position with
      | none => exact ⟨rt, rfl, held, rfl⟩
      | some block =>
          obtain ⟨after, ran, agrees, base⟩ := runOut_codes lawful converted.separate converted.read
            (fun ref member => converted.slots ref (mem_allRefs_of_mem_bodyRefs member))
            (fun ref member => backwards ref (mem_allRefs_of_mem_bodyRefs member))
            (fun ref member => copies ref (mem_allRefs_of_mem_bodyRefs member)) held
          obtain ⟨final, finished, holds, below⟩ := ih _ _ after agrees
          refine ⟨final, ?_, holds, below.trans base⟩
          rw [runConverted, bodyAt_converted converted, ran]
          exact finished

/-- The pass completes, and the converted function has its operands in order and executes
as the register form does. -/
def KeepsOperandOrder (F : MachineFunction) : Prop :=
  ∃ MFI codes, rewriteFunction F = some (MFI, codes) ∧ (∀ ref ∈ F.allRefs, LoadsInOrder MFI ref.instr) ∧
    ExecutesAlike F MFI codes

/-- That is so exactly when every register that is read is defined first in the layout, and
the register operands of every instruction read the same backwards. -/
theorem operandOrder_iff_backwards (F : MachineFunction)
    (copies : ∀ ref ∈ F.allRefs, ref.instr.opcode = pMOVE_r → IsCopy ref.instr) :
    KeepsOperandOrder F ↔ DefinedFirst [] F.allRefs ∧ ∀ ref ∈ F.allRefs, ReadsSameBackwards ref.instr := by
  constructor
  · rintro ⟨MFI, codes, done, ordered, _⟩
    have converted := rewriteFunction_converted done
    refine ⟨(rewriteFunction_isSome_iff F).mp (Option.isSome_iff_exists.mpr ⟨_, done⟩), fun ref member => ?_⟩
    exact (loadsInOrder_iff converted.separate (converted.slots ref member)).mp (ordered ref member)
  · rintro ⟨defined, backwards⟩
    obtain ⟨⟨MFI, codes⟩, done⟩ := Option.isSome_iff_exists.mp ((rewriteFunction_isSome_iff F).mpr defined)
    have converted := rewriteFunction_converted done
    refine ⟨MFI, codes, done, fun ref member => ?_, executesAlike_of_backwards converted copies backwards⟩
    exact (loadsInOrder_iff converted.separate (converted.slots ref member)).mpr (backwards ref member)

/-- Define registers 1 and 2, subtract one from another and return the
difference. -/
def subtracting (minuend subtrahend : Register) : MachineFunction where
  blocks := [⟨[⟨.inst 5, some 1, []⟩, ⟨.inst 4, some 2, []⟩,
    ⟨.inst 3, some 3, [.reg minuend, .reg subtrahend]⟩, ⟨.inst 2, none, [.reg 3]⟩], [], []⟩]
  getInterval := fun _ => unreadInterval
  hasEntry := cons_ne_nil _ _
  edges := rfl
  nonzero := rfl

/-- A register subtracted from itself reads the same backwards. -/
theorem subtracting_itself_executesAlike : KeepsOperandOrder (subtracting 1 1) :=
  (operandOrder_iff_backwards (subtracting 1 1) (by decide)).mpr (by decide)

private def difference (instr : MachineInstr) (values : List Word) (world : Unit) :
    Word × Unit × Control :=
  (match instr.opcode, values with
    | .inst 5, [] => 5
    | .inst 4, [] => 3
    | .inst 3, [left, right] => left - right
    | _, values => values.headD 0, world, .next)

/-- Three minus five is computed where five minus three was meant. -/
theorem subtracting_not_executesAlike :
    ∃ MFI codes, rewriteFunction (subtracting 1 2) = some (MFI, codes) ∧
      (∃ ref ∈ (subtracting 1 2).allRefs, ¬ LoadsInOrder MFI ref.instr) ∧
      ¬ ExecutesAlike (subtracting 1 2) MFI codes := by
  refine ⟨⟨[(1, 0), (2, 1), (3, 2)], 2⟩, ((rewriteFunction (subtracting 1 2)).map Prod.snd).getD [],
    by decide, ?_, fun alike => ?_⟩
  · refine ⟨⟨0, 2, ⟨.inst 3, some 3, [.reg 1, .reg 2]⟩⟩, by decide, fun ordered => ?_⟩
    have loaded := ordered [.pGETLOCAL_r 1 0, .pGETLOCAL_r 2 1] rfl
      ⟨[], fun slot => if slot = 0 then 1 else 0, ()⟩
    have ended := congrArg StackState.stack (Option.some.inj loaded)
    exact absurd ended (by decide)
  · have lawful : Lawful difference := by
      constructor
      · rintro ⟨opcode, _, _⟩ value world rfl
        rfl
      · intro _ _ _ _
        rfl
    obtain ⟨final, ran, holds, _⟩ := alike Unit difference lawful 1 (some 0) ⟨fun _ => 0, ()⟩
      ⟨[], fun _ => 0, ()⟩ ⟨rfl, fun _ _ _ => rfl⟩
    have computed := holds.locals 3 2 rfl
    have reversed := congrArg (Option.map fun result => result.2.locals 2) ran
    rw [Option.map_some, computed] at reversed
    exact absurd reversed (by decide)

end EvmBackend.EVMVRegToMem
