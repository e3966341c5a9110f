/-
Incoming arguments at -O0: the markers arranged at the start of the entry
block, each with the store that is put behind it, and the pops of unused
arguments.

A marker does nothing when the code runs, so the first store takes the top of
the stack. The first marker is that of the last argument.
-/

import EvmBackend.ArgumentMove
import EvmBackend.ReservedCells
import EvmBackend.VRegToMem.Rewriting

namespace EvmBackend.EVMVRegToMem

open List Option Function

open EVMStackAlloc (stackArgs bodyRefs StackState execOut)
open EVMArgumentMove (Arranged Signature sortedEntry stackArg popArg MRIuseEmpty)
open EVM (Word Machine Inst)
open ByteMemory (Apart apart_iff)

def entryCode (codes : List BlockCode) : List OutInstr :=
  (codes[0]?.map fun code => code.prologue ++ code.body).getD []

def argumentPrologue (codes : List BlockCode) (count : Nat) (unused : List Register) :
    List OutInstr :=
  (entryCode codes).take (2 * (count + unused.length))

def execArgument (out : OutInstr) (rt : StackState Word Unit) : Option (StackState Word Unit) :=
  match out with
  | .original ref =>
      if EVMStackAlloc.isStackArg ref then some rt
      else execOut (fun _ _ world => (0, world)) out rt
  | _ => execOut (fun _ _ world => (0, world)) out rt

def expandPrologue (frame : CompiledFrame) (fpaddr : Nat) (code : List OutInstr) : List Inst :=
  code.flatMap fun out =>
    match out with
    | .pPUTLOCAL_r _ slot => expandLOCAL frame fpaddr slot
    | _ => []

/-- The slot of each argument holds the value found at its place on the stack,
and the arguments are off the stack: with slots of its own, and in the memory
of a machine that enters the function with the given frame pointer. -/
structure ArgumentsHeld (frame : CompiledFrame) (fpaddr : Nat) (pointer : Word)
    (MFI : EVMMachineFunctionInfo) (codes : List BlockCode) (count : Nat) (arg : Nat → Register)
    (unused : List Register) : Prop where
  slots : ∀ (values base : List Word) (locals : Nat → Word), values.length = count →
    ∃ final, Runs.run execArgument (argumentPrologue codes count unused)
        ⟨values ++ base, locals, ()⟩ = some final ∧ final.stack = base ∧
      ∀ index < count, values[index]? = some (final.locals (slotOf MFI (arg index)))
  memory : ∀ (machine : Machine) (values base : List Word), values.length = count →
    machine.stack = values ++ base →
    EVM.loadWord machine.memory (BitVec.ofNat 256 fpaddr) = pointer →
    ∃ after, Runs.run EVM.execute
        (expandPrologue frame fpaddr ((codes[0]?.map BlockCode.prologue).getD [])) machine =
          some after ∧ after.stack = base ∧
      ∀ index < count, values[index]? = some (EVM.loadWord after.memory
        (localAddress frame fpaddr (slotOf MFI (arg index)) after.memory))

variable {F : MachineFunction} {MFI next : EVMMachineFunctionInfo} {codes : List BlockCode}
  {MRI : MachineRegisterInfo}

variable {refs : List InstrRef} {reg : Register} {place : Nat}

theorem rewriteInstrs_numbers {code : List OutInstr} {regs : List Register}
    (defines : refs.map (fun ref => ref.instr.defRegister) = regs.map some)
    (used : ∀ reg ∈ regs, MRI.useEmpty reg = false) (distinct : regs.Nodup)
    (unnumbered : ∀ reg ∈ regs, MFI.getMemoryIndex reg = none)
    (done : rewriteInstrs MRI refs MFI = some (next, code)) :
    ∀ place reg, regs[place]? = some reg →
      next.getMemoryIndex reg = some (MFI.reg2index.length + place) := by
  induction refs generalizing MFI regs code with
  | nil =>
      have empty : regs = [] := by simpa using defines.symm
      subst empty
      intro place reg absent
      cases absent
  | cons ref rest ih =>
      cases regs with
      | nil => cases defines
      | cons first later =>
          obtain ⟨defined, deeper⟩ := List.cons.inj defines
          obtain ⟨⟨middle, start⟩, rewritten, done⟩ := bind_eq_some_iff.mp done
          obtain ⟨⟨last, tail⟩, remaining, same⟩ := bind_eq_some_iff.mp done
          cases same
          have fresh := unnumbered first mem_cons_self
          have read := used first mem_cons_self
          have allocated : middle = (MFI.allocateMemoryIndex first).1 := by
            unfold rewriteInstr storeResult at rewritten
            simp only [defined, read] at rewritten
            obtain ⟨_, _, same⟩ := map_eq_some_iff.mp rewritten
            cases same
            rfl
          have grown : middle.reg2index.length = MFI.reg2index.length + 1 := by
            rw [allocated, length_allocateMemoryIndex, if_pos fresh]
          have number : middle.getMemoryIndex first = some MFI.reg2index.length := by
            have given := (allocateMemoryIndex_spec MFI first).2
            rw [← allocated] at given
            rw [given]
            unfold EVMMachineFunctionInfo.allocateMemoryIndex
            rw [fresh]
          have others : ∀ reg ∈ later, middle.getMemoryIndex reg = none := by
            intro reg member
            by_contra known
            obtain ⟨index, held⟩ := ne_none_iff_exists'.mp known
            rw [allocated] at held
            rcases allocateMemoryIndex_cases MFI first reg index held with old | ⟨rfl, _, _⟩
            · rw [unnumbered reg (mem_cons_of_mem first member)] at old
              cases old
            · exact (nodup_cons.mp distinct).1 member
          have rest := ih deeper (fun reg member => used reg (mem_cons_of_mem first member))
            (nodup_cons.mp distinct).2 others remaining
          intro place reg found
          cases place with
          | zero =>
              obtain rfl := Option.some.inj found
              exact (rewriteInstrs_spec remaining).1 _ _ number
          | succ place =>
              rw [rest place reg found, grown]
              congr 1
              omega

/-! ### The entry block -/

theorem map_instr_instrRefs (F : MachineFunction) (block : Nat) :
    (F.instrRefs block).map InstrRef.instr = F.instrs block := by
  unfold MachineFunction.instrRefs
  rw [List.map_map]
  exact zipIdx_map_fst 0 (F.instrs block)

theorem useEmpty_of_read (read : MRIuseEmpty F.blocks reg = false) :
    F.regInfo.useEmpty reg = false := by
  obtain ⟨block, member, MI, inBlock, reads⟩ := EVMArgumentMove.MRIuseEmpty_eq_false.mp read
  obtain ⟨place, inside, rfl⟩ := getElem_of_mem member
  obtain ⟨index, here, rfl⟩ := getElem_of_mem inBlock
  have found : (F.instrs place)[index]? = some (F.blocks[place].instrs[index]) := by
    unfold MachineFunction.instrs blockInstrs
    rw [List.getElem?_eq_getElem inside, map_some, getD_some,
      List.getElem?_eq_getElem here]
  have listed : (⟨place, index, F.blocks[place].instrs[index]⟩ : InstrRef) ∈ F.allRefs :=
    MachineFunction.mem_allRefs.mpr found
  exact useEmpty_of_uses listed reads

section Entry

variable {count : Nat} {arg : Nat → Register} {unused : List Register} {body : List MachineInstr}

theorem entry_instrs (arranged : Arranged count arg unused body F.blocks) :
    F.instrs 0 = sortedEntry count arg unused body := by
  obtain ⟨first, later, same⟩ := arranged.entry
  unfold MachineFunction.instrs blockInstrs
  rw [same]
  rfl

private theorem while_of_split {test : MachineInstr → Bool} {front back : List MachineInstr}
    (all : ∀ MI ∈ front, test MI = true) (none : ∀ MI ∈ back, test MI = false) :
    (front ++ back).takeWhile test = front ∧ (front ++ back).dropWhile test = back := by
  rw [takeWhile_append_of_pos all, dropWhile_append_of_pos all]
  cases back with
  | nil => exact ⟨append_nil _, rfl⟩
  | cons MI rest =>
      have stops : ¬ test MI = true := by simp [none MI mem_cons_self]
      rw [takeWhile_cons_of_neg stops, dropWhile_cons_of_neg stops]
      exact ⟨append_nil _, rfl⟩

theorem entry_split (arranged : Arranged count arg unused body F.blocks) :
    (stackArgs F 0).map InstrRef.instr =
        (List.range count).reverse.map (fun index => stackArg (arg index) index) ∧
      (bodyRefs F 0).map InstrRef.instr = unused.map popArg ++ body := by
  have front : ∀ MI ∈ (List.range count).reverse.map (fun index => stackArg (arg index) index),
      EVMArgumentMove.isStackArg MI = true := by
    intro MI member
    obtain ⟨index, _, rfl⟩ := List.mem_map.mp member
    rfl
  have back : ∀ MI ∈ unused.map popArg ++ body, EVMArgumentMove.isStackArg MI = false := by
    intro MI member
    rcases mem_append.mp member with popped | inner
    · obtain ⟨reg, _, rfl⟩ := List.mem_map.mp popped
      rfl
    · exact arranged.markers MI inner
  have test : EVMStackAlloc.isStackArg = EVMArgumentMove.isStackArg ∘ InstrRef.instr := rfl
  have whole : (F.instrRefs 0).map InstrRef.instr =
      (List.range count).reverse.map (fun index => stackArg (arg index) index) ++
        (unused.map popArg ++ body) := by
    rw [map_instr_instrRefs, entry_instrs arranged, sortedEntry, List.append_assoc]
  obtain ⟨taken, left⟩ := while_of_split front back
  unfold stackArgs bodyRefs
  rw [if_pos rfl, if_pos rfl, test, ← takeWhile_map, ← dropWhile_map, whole]
  exact ⟨taken, left⟩

theorem rewriteFunction_entry (done : rewriteFunction F = some (MFI, codes)) :
    ∃ middle prologue, rewriteInstrs F.regInfo (stackArgs F 0) ⟨[], 0⟩ = some (middle, prologue) ∧
      Extends MFI middle ∧ codes[0]? = some (blockCodeOf F MFI 0) := by
  have converted := rewriteFunction_converted done
  obtain ⟨size, positive⟩ := Nat.exists_eq_succ_of_ne_zero
    (fun zero => F.hasEntry (length_eq_zero_iff.mp zero))
  unfold rewriteFunction at done
  rw [positive, Nat.succ_eq_add_one, range_succ_eq_map] at done
  obtain ⟨⟨after, first⟩, entry, done⟩ := bind_eq_some_iff.mp done
  obtain ⟨⟨last, later⟩, remaining, same⟩ := bind_eq_some_iff.mp done
  cases same
  obtain ⟨⟨middle, prologue⟩, args, entry⟩ := bind_eq_some_iff.mp entry
  obtain ⟨⟨ended, body⟩, inner, same⟩ := bind_eq_some_iff.mp entry
  cases same
  refine ⟨middle, prologue, args, ?_, ?_⟩
  · exact (rewriteBlocks_spec remaining).1.trans (rewriteInstrs_spec inner).1
  · rw [converted.codes, positive, getElem?_map, getElem?_range (Nat.succ_pos size)]
    rfl

theorem getElem?_reverse_range {count : Nat} (inside : place < count) :
    ((List.range count).reverse)[place]? = some (count - 1 - place) := by
  rw [getElem?_reverse (by simpa using inside), length_range,
    getElem?_range (by omega)]

theorem slotOf_arg (arranged : Arranged count arg unused body F.blocks)
    (done : rewriteFunction F = some (MFI, codes)) (inside : place < count) :
    slotOf MFI (arg (count - 1 - place)) = place := by
  obtain ⟨middle, prologue, args, extended, _⟩ := rewriteFunction_entry done
  have instrs := (entry_split arranged).1
  have defines : (stackArgs F 0).map (fun ref => ref.instr.defRegister) =
      ((List.range count).reverse.map arg).map some := by
    have mapped := congrArg (List.map MachineInstr.defRegister) instrs
    rw [List.map_map, List.map_map] at mapped
    rw [List.map_map]
    exact mapped
  have used : ∀ reg ∈ (List.range count).reverse.map arg, F.regInfo.useEmpty reg = false := by
    intro reg member
    obtain ⟨index, inRange, rfl⟩ := List.mem_map.mp member
    exact useEmpty_of_read (arranged.read index (mem_range.mp (mem_reverse.mp inRange)))
  have distinct : ((List.range count).reverse.map arg).Nodup := by
    refine List.Nodup.map_on (fun left inLeft right inRight same => ?_)
      (nodup_reverse.mpr nodup_range)
    exact arranged.distinct left (mem_range.mp (mem_reverse.mp inLeft)) right
      (mem_range.mp (mem_reverse.mp inRight)) same
  have numbers := rewriteInstrs_numbers defines used distinct (fun _ _ => rfl) args place
    (arg (count - 1 - place)) (by rw [getElem?_map, getElem?_reverse_range inside]; rfl)
  rw [slotOf_extends extended numbers]
  exact Nat.zero_add place

end Entry

/-! ### Running the prologue -/

theorem codeOf_marker {ref : InstrRef} {index : Nat} (marker : ref.instr = stackArg reg index)
    (used : MRI.useEmpty reg = false) :
    codeOf MRI MFI ref = [.original ref, .pPUTLOCAL_r reg (slotOf MFI reg)] := by
  have kept : keepInstr ref = [.original ref] := by
    unfold keepInstr
    rw [marker]
    rfl
  unfold codeOf storesOf
  rw [kept, marker]
  simp only [EVMArgumentMove.defRegister_stackArg, used]
  rfl

theorem codeOf_pop {ref : InstrRef} (pops : ref.instr = popArg reg) :
    codeOf MRI MFI ref = [.pGETLOCAL_r reg (slotOf MFI reg), .original ref] := by
  have kept : keepInstr ref = [.original ref] := by
    unfold keepInstr
    rw [pops]
    rfl
  unfold codeOf storesOf
  rw [kept, pops]
  rfl

theorem run_markers {pairs : List (Register × Nat)} {start : Nat}
    (markers : refs.map InstrRef.instr = pairs.map fun pair => stackArg pair.1 pair.2)
    (used : ∀ pair ∈ pairs, MRI.useEmpty pair.1 = false)
    (numbered : ∀ place pair, pairs[place]? = some pair → slotOf MFI pair.1 = start + place)
    {values : List Word} (base : List Word) (size : values.length = pairs.length)
    (locals : Nat → Word) :
    ∃ final, Runs.run execArgument (refs.flatMap (codeOf MRI MFI)) ⟨values ++ base, locals, ()⟩ =
        some ⟨base, final, ()⟩ ∧
      (∀ place value, values[place]? = some value → final (start + place) = value) ∧
      ∀ slot < start, final slot = locals slot := by
  induction refs generalizing pairs values start locals with
  | nil =>
      have none : pairs = [] := map_eq_nil_iff.mp markers.symm
      subst none
      have empty : values = [] := length_eq_zero_iff.mp size
      subst empty
      exact ⟨locals, rfl, (fun _ _ absent => by cases absent), fun _ _ => rfl⟩
  | cons ref rest ih =>
      cases pairs with
      | nil => cases markers
      | cons pair later =>
          cases values with
          | nil => cases size
          | cons value others =>
              obtain ⟨marker, deeper⟩ := List.cons.inj markers
              have slot : slotOf MFI pair.1 = start := numbered 0 pair rfl
              have code : codeOf MRI MFI ref = [.original ref, .pPUTLOCAL_r pair.1 (slotOf MFI pair.1)] :=
                codeOf_marker marker (used pair mem_cons_self)
              have skips : EVMStackAlloc.isStackArg ref = true := by
                unfold EVMStackAlloc.isStackArg
                rw [marker]
                rfl
              have stored : Runs.run execArgument ((ref :: rest).flatMap (codeOf MRI MFI))
                  ⟨value :: others ++ base, locals, ()⟩ =
                  Runs.run execArgument (rest.flatMap (codeOf MRI MFI))
                    ⟨others ++ base, update locals start value, ()⟩ := by
                rw [flatMap_cons, code, slot, List.cons_append, Runs.run_cons, execArgument,
                  if_pos skips]
                rfl
              obtain ⟨final, ran, held, kept⟩ := ih deeper
                (fun other member => used other (mem_cons_of_mem pair member))
                (fun place other found => by
                  rw [numbered (place + 1) other found, Nat.add_assoc, Nat.add_comm 1 place])
                (Nat.succ.inj size) (update locals start value)
              refine ⟨final, stored.trans ran, fun place found known => ?_, fun slot below => ?_⟩
              · cases place with
                | zero =>
                    obtain rfl := Option.some.inj known
                    rw [Nat.add_zero, kept start (Nat.lt_succ_self start), update_self]
                | succ place =>
                    rw [← held place found known]
                    congr 1
                    omega
              · rw [kept slot (Nat.lt_succ_of_lt below), update_of_ne (by omega)]

theorem run_pops {regs : List Register} (pops : refs.map InstrRef.instr = regs.map popArg)
    (rt : StackState Word Unit) :
    Runs.run execArgument (refs.flatMap (codeOf MRI MFI)) rt = some rt := by
  induction refs generalizing regs with
  | nil => rfl
  | cons ref rest ih =>
      cases regs with
      | nil => cases pops
      | cons reg later =>
          obtain ⟨pop, deeper⟩ := List.cons.inj pops
          have executed : EVMStackAlloc.isStackArg ref = false := by
            unfold EVMStackAlloc.isStackArg
            rw [pop]
            rfl
          have one : ref.instr.useRegisters = [reg] := by
            rw [pop]
            rfl
          have nothing : ref.instr.defRegister = none := by
            rw [pop]
            rfl
          rw [flatMap_cons, codeOf_pop pop, Runs.run_append]
          have dropped : Runs.run execArgument
              [.pGETLOCAL_r reg (slotOf MFI reg), .original ref] rt = some rt := by
            simp [execArgument, execOut, executed, EVMStackAlloc.execOriginal, one, nothing]
          rw [dropped]
          exact ih deeper

theorem expandPrologue_markers {pairs : List (Register × Nat)} {start : Nat}
    (frame : CompiledFrame) (fpaddr : Nat)
    (markers : refs.map InstrRef.instr = pairs.map fun pair => stackArg pair.1 pair.2)
    (used : ∀ pair ∈ pairs, MRI.useEmpty pair.1 = false)
    (numbered : ∀ place pair, pairs[place]? = some pair → slotOf MFI pair.1 = start + place) :
    expandPrologue frame fpaddr (refs.flatMap (codeOf MRI MFI)) =
      (List.range' start pairs.length).flatMap (expandLOCAL frame fpaddr) := by
  induction refs generalizing pairs start with
  | nil =>
      have none : pairs = [] := map_eq_nil_iff.mp markers.symm
      subst none
      rfl
  | cons ref rest ih =>
      cases pairs with
      | nil => cases markers
      | cons pair later =>
          obtain ⟨marker, deeper⟩ := List.cons.inj markers
          have slot : slotOf MFI pair.1 = start := numbered 0 pair rfl
          have tail := ih deeper (fun other member => used other (mem_cons_of_mem pair member))
            (fun place other found => by
              rw [numbered (place + 1) other found, Nat.add_assoc, Nat.add_comm 1 place])
          rw [flatMap_cons, codeOf_marker marker (used pair mem_cons_self), slot,
            length_cons, range'_succ, flatMap_cons, ← tail]
          rfl

/-! ### The store of one argument on the machine -/

section Store

variable {frame : CompiledFrame} {fpaddr : Nat} {pointer : Word} {memory : ByteMemory.Memory}

def slotAddress (frame : CompiledFrame) (pointer : Word) : Word :=
  BitVec.ofNat 256 (frame.slotAt 0) + pointer

section

variable (entered : EVM.loadWord memory (BitVec.ofNat 256 fpaddr) = pointer)

include entered

theorem localAddress_slotAddress :
    localAddress frame fpaddr 0 memory = slotAddress frame pointer := by
  rw [localAddress, slotAddress, entered]

theorem loadWord_stored
    (apart : Apart (BitVec.ofNat 256 fpaddr).toNat 32 (slotAddress frame pointer).toNat 32) (value : Word) :
    EVM.loadWord (EVM.storeWord memory (slotAddress frame pointer) value)
      (localAddress frame fpaddr 0 (EVM.storeWord memory (slotAddress frame pointer) value)) = value := by
  have kept : EVM.loadWord (EVM.storeWord memory (slotAddress frame pointer) value)
      (BitVec.ofNat 256 fpaddr) = pointer := by
    rw [EVM.loadWord_storeWord_apart apart, entered]
  rw [localAddress_slotAddress kept, EVM.loadWord_storeWord_same]

theorem toNat_slotAddress :
    (slotAddress frame pointer).toNat = ((BitVec.ofNat 256 (frame.slotAt 0)).toNat +
      ByteMemory.loadBytes memory (BitVec.ofNat 256 fpaddr).toNat 32) % 2 ^ 256 := by
  rw [slotAddress, BitVec.toNat_add, ← entered, EVM.toNat_loadWord]

/-- Where slot 0 meets the cell of the frame pointer, another byte in both moves
the slot away from them: the last of the cell, or the first where the slot
begins in front of the cell. -/
theorem shared_byte_moves_slot
    (overlaps : ¬ Apart (BitVec.ofNat 256 fpaddr).toNat 32 (slotAddress frame pointer).toNat 32) :
    ∃ place byte, ((slotAddress frame pointer).toNat ≤ place ∧ place < (slotAddress frame pointer).toNat + 32) ∧
      Apart (slotAddress frame pointer).toNat 32 (slotAddress frame
        (EVM.loadWord (update memory place byte) (BitVec.ofNat 256 fpaddr))).toNat 32 ∧
      Apart (BitVec.ofNat 256 fpaddr).toNat 32 (slotAddress frame
        (EVM.loadWord (update memory place byte) (BitVec.ofNat 256 fpaddr))).toNat 32 := by
  have before : (slotAddress frame pointer).toNat = ((BitVec.ofNat 256 (frame.slotAt 0)).toNat +
      ByteMemory.loadBytes memory (BitVec.ofNat 256 fpaddr).toNat 32) % 2 ^ 256 := toNat_slotAddress entered
  have after : ∀ place byte, (slotAddress frame (EVM.loadWord (update memory place byte)
      (BitVec.ofNat 256 fpaddr))).toNat = ((BitVec.ofNat 256 (frame.slotAt 0)).toNat +
      ByteMemory.loadBytes (update memory place byte) (BitVec.ofNat 256 fpaddr).toNat 32) % 2 ^ 256 :=
    fun place byte => toNat_slotAddress rfl
  have bounded := (BitVec.ofNat 256 fpaddr).isLt
  have small := ByteMemory.loadBytes_lt memory (BitVec.ofNat 256 fpaddr).toNat 32
  generalize (BitVec.ofNat 256 fpaddr).toNat = cell at before after overlaps bounded small ⊢
  generalize (slotAddress frame pointer).toNat = slot at before overlaps ⊢
  unfold Apart at overlaps
  by_cases front : cell ≤ slot
  · refine ⟨cell + 31, memory (cell + 31) + 64#8, by omega, ?_⟩
    have moved := ByteMemory.loadBytes_update memory cell 31 0 (memory (cell + 31) + 64#8)
    simp only [BitVec.toNat_add, BitVec.toNat_ofNat, pow_zero, Nat.mul_one, Nat.reduceAdd] at moved
    rw [after]
    unfold Apart
    omega
  · refine ⟨cell, memory cell + 1#8, by omega, ?_⟩
    have moved := ByteMemory.loadBytes_update memory cell 0 31 (memory cell + 1#8)
    simp only [BitVec.toNat_add, BitVec.toNat_ofNat, Nat.add_zero, Nat.reduceAdd] at moved
    rw [after]
    unfold Apart
    omega

end

end Store

/-! ### Which argument is where -/

/-- What the passes promise about the arguments of a function: they finish, and
the arguments are put where `ArgumentsHeld` says. -/
def TakesArguments (F : MachineFunction) (frame : CompiledFrame) (fpaddr : Nat) (pointer : Word)
    (count : Nat) : Prop :=
  ∃ MFI codes, rewriteFunction F = some (MFI, codes) ∧
    ∃ arg unused body, Arranged count arg unused body F.blocks ∧
      ArgumentsHeld frame fpaddr pointer MFI codes count arg unused

section Held

variable {count : Nat} {arg : Nat → Register} {unused : List Register} {body : List MachineInstr}

def argPairs (count : Nat) (arg : Nat → Register) : List (Register × Nat) :=
  (List.range count).reverse.map fun index => (arg index, index)

theorem length_argPairs (count : Nat) (arg : Nat → Register) : (argPairs count arg).length = count := by
  simp [argPairs]

theorem markers_argPairs (arranged : Arranged count arg unused body F.blocks) :
    (stackArgs F 0).map InstrRef.instr =
      (argPairs count arg).map fun pair => stackArg pair.1 pair.2 := by
  rw [(entry_split arranged).1, argPairs, List.map_map]
  rfl

theorem used_argPairs (arranged : Arranged count arg unused body F.blocks) :
    ∀ pair ∈ argPairs count arg, F.regInfo.useEmpty pair.1 = false := by
  intro pair member
  obtain ⟨index, inRange, rfl⟩ := List.mem_map.mp member
  exact useEmpty_of_read (arranged.read index (mem_range.mp (mem_reverse.mp inRange)))

theorem numbered_argPairs (arranged : Arranged count arg unused body F.blocks)
    (done : rewriteFunction F = some (MFI, codes)) :
    ∀ place pair, (argPairs count arg)[place]? = some pair → slotOf MFI pair.1 = 0 + place := by
  intro place pair found
  have inside : place < count := by
    have short := (List.getElem?_eq_some_iff.mp found).1
    rwa [length_argPairs] at short
  rw [argPairs, getElem?_map, getElem?_reverse_range inside] at found
  obtain rfl := Option.some.inj found
  rw [slotOf_arg arranged done inside, Nat.zero_add]

private theorem length_flatMap_two (two : ∀ ref ∈ refs, (codeOf F.regInfo MFI ref).length = 2) :
    (refs.flatMap (codeOf F.regInfo MFI)).length = 2 * refs.length := by
  induction refs with
  | nil => rfl
  | cons ref rest ih =>
      rw [flatMap_cons, length_append, two ref mem_cons_self,
        ih fun other member => two other (mem_cons_of_mem ref member), length_cons]
      omega

section

variable (arranged : Arranged count arg unused body F.blocks) (done : rewriteFunction F = some (MFI, codes))

include arranged done

theorem argumentPrologue_eq :
    ∃ pops : List InstrRef, pops.map InstrRef.instr = unused.map popArg ∧
      argumentPrologue codes count unused =
        (stackArgs F 0).flatMap (codeOf F.regInfo MFI) ++ pops.flatMap (codeOf F.regInfo MFI) := by
  obtain ⟨_, _, _, _, entry⟩ := rewriteFunction_entry done
  obtain ⟨pops, inner, split, popped, _⟩ := map_eq_append_iff.mp (entry_split arranged).2
  refine ⟨pops, popped, ?_⟩
  have sizeMarkers : ((stackArgs F 0).flatMap (codeOf F.regInfo MFI)).length = 2 * count := by
    rw [length_flatMap_two]
    · have lengths := congrArg List.length (markers_argPairs arranged)
      rw [length_map, length_map, length_argPairs] at lengths
      rw [lengths]
    · intro ref member
      have listed : ref.instr ∈ (argPairs count arg).map fun pair => stackArg pair.1 pair.2 := by
        rw [← markers_argPairs arranged]
        exact List.mem_map.mpr ⟨ref, member, rfl⟩
      obtain ⟨pair, inside, same⟩ := List.mem_map.mp listed
      rw [codeOf_marker same.symm (used_argPairs arranged pair inside)]
      rfl
  have sizePops : (pops.flatMap (codeOf F.regInfo MFI)).length = 2 * unused.length := by
    rw [length_flatMap_two]
    · have lengths := congrArg List.length popped
      rw [length_map, length_map] at lengths
      rw [lengths]
    · intro ref member
      have listed : ref.instr ∈ unused.map popArg := by
        rw [← popped]
        exact List.mem_map.mpr ⟨ref, member, rfl⟩
      obtain ⟨reg, _, same⟩ := List.mem_map.mp listed
      rw [codeOf_pop same.symm]
      rfl
  unfold argumentPrologue entryCode
  rw [entry, map_some, getD_some, blockCodeOf, split, flatMap_append,
    ← List.append_assoc]
  exact take_left' (by rw [length_append, sizeMarkers, sizePops, Nat.mul_add])

theorem run_argumentPrologue {values : List Word} (base : List Word)
    (locals : Nat → Word) (size : values.length = count) :
    ∃ final, Runs.run execArgument (argumentPrologue codes count unused)
        ⟨values ++ base, locals, ()⟩ = some ⟨base, final, ()⟩ ∧
      ∀ index < count, values[count - 1 - index]? = some (final (slotOf MFI (arg index))) := by
  obtain ⟨pops, popped, code⟩ := argumentPrologue_eq arranged done
  obtain ⟨final, ran, held, _⟩ := run_markers (markers_argPairs arranged)
    (used_argPairs arranged) (numbered_argPairs arranged done) base
    (size.trans (length_argPairs count arg).symm) locals
  refine ⟨final, ?_, fun index inside => ?_⟩
  · rw [code, Runs.run_append, ran]
    exact run_pops popped _
  · have place : slotOf MFI (arg index) = count - 1 - index := by
      have counted := slotOf_arg arranged done (show count - 1 - index < count by omega)
      rwa [show count - 1 - (count - 1 - index) = index by omega] at counted
    have short : count - 1 - index < values.length := by omega
    have value := held (count - 1 - index) _ (List.getElem?_eq_getElem short)
    rw [place, ← Nat.zero_add (count - 1 - index), value, Nat.zero_add,
      List.getElem?_eq_getElem short]

theorem expandPrologue_entry (frame : CompiledFrame) (fpaddr : Nat) :
    expandPrologue frame fpaddr ((codes[0]?.map BlockCode.prologue).getD []) =
      (List.range' 0 count).flatMap (expandLOCAL frame fpaddr) := by
  obtain ⟨_, _, _, _, entry⟩ := rewriteFunction_entry done
  rw [entry, map_some, getD_some, blockCodeOf]
  rw [expandPrologue_markers frame fpaddr (markers_argPairs arranged) (used_argPairs arranged)
    (numbered_argPairs arranged done), length_argPairs]

end

variable {frame : CompiledFrame} {fpaddr : Nat} {pointer : Word}

def StoresClear (frame : CompiledFrame) (fpaddr : Nat) (pointer : Word) (count : Nat) : Prop :=
  count = 0 ∨ count = 1 ∧ Apart (BitVec.ofNat 256 fpaddr).toNat 32 (slotAddress frame pointer).toNat 32

instance : Decidable (StoresClear frame fpaddr pointer count) :=
  inferInstanceAs (Decidable (_ ∨ _ ∧ _))

theorem argumentsHeld_of_clear (arranged : Arranged count arg unused body F.blocks)
    (done : rewriteFunction F = some (MFI, codes)) (clear : StoresClear frame fpaddr pointer count) :
    ArgumentsHeld frame fpaddr pointer MFI codes count arg unused := by
  refine ⟨fun values base locals size => ?_, fun machine values base size operands entered => ?_⟩
  · obtain ⟨final, ran, held⟩ := run_argumentPrologue arranged done base locals size
    refine ⟨_, ran, rfl, fun index inside => ?_⟩
    rw [← held index inside]
    congr 1
    rcases clear with none | ⟨one, _⟩ <;> omega
  · rw [expandPrologue_entry arranged done]
    rcases clear with rfl | ⟨rfl, apart⟩
    · rw [length_eq_zero_iff.mp size] at operands
      exact ⟨machine, rfl, operands, fun index inside => absurd inside (Nat.not_lt_zero index)⟩
    · obtain ⟨value, rfl⟩ := length_eq_one_iff.mp size
      have stored := run_expandLOCAL frame fpaddr 0 operands
      rw [localAddress_slotAddress entered] at stored
      refine ⟨_, stored, rfl, fun index inside => ?_⟩
      obtain rfl : index = 0 := by omega
      rw [show slotOf MFI (arg 0) = 0 from slotOf_arg arranged done Nat.one_pos,
        loadWord_stored entered apart]
      rfl

theorem not_argumentsHeld_of_many (arranged : Arranged count arg unused body F.blocks)
    (done : rewriteFunction F = some (MFI, codes)) (many : 1 < count) :
    ¬ ArgumentsHeld frame fpaddr pointer MFI codes count arg unused := by
  intro holds
  have size : ((1 : Word) :: List.replicate (count - 1) 0).length = count := by
    rw [length_cons, length_replicate]
    omega
  obtain ⟨final, ran, held⟩ := run_argumentPrologue arranged done [] (fun _ => 0) size
  obtain ⟨other, ranToo, _, promised⟩ := holds.slots _ [] (fun _ => 0) size
  obtain rfl := Option.some.inj (ran.symm.trans ranToo)
  have first := (held 0 (by omega)).trans (promised 0 (by omega)).symm
  obtain ⟨below, same⟩ := Nat.exists_eq_add_of_lt many
  rw [show count - 1 - 0 = below + 1 by omega, getElem?_cons_succ,
    getElem?_replicate, if_pos (by omega)] at first
  cases first

theorem loadWord_of_argumentsHeld (arranged : Arranged 1 arg unused body F.blocks)
    (done : rewriteFunction F = some (MFI, codes))
    (holds : ArgumentsHeld frame fpaddr pointer MFI codes 1 arg unused)
    (memory : ByteMemory.Memory)
    (entered : EVM.loadWord memory (BitVec.ofNat 256 fpaddr) = pointer) (byte : BitVec 8)
    (inside : (slotAddress frame pointer).toNat ≤ place ∧ place < (slotAddress frame pointer).toNat + 32) :
    EVM.loadWord (update memory place byte) (slotAddress frame pointer) =
      EVM.loadWord (update memory place byte) (slotAddress frame
        (EVM.loadWord (update memory place byte) (BitVec.ofNat 256 fpaddr))) := by
  obtain ⟨after, ran, _, held⟩ := holds.memory ⟨0, [EVM.loadWord (update memory place byte)
    (slotAddress frame pointer)], memory⟩ [_] [] rfl rfl entered
  have stored := @run_expandLOCAL frame fpaddr 0 ⟨0, [EVM.loadWord
    (update memory place byte) (slotAddress frame pointer)], memory⟩ _ _ rfl
  rw [localAddress_slotAddress entered, EVM.storeWord_loadWord_update memory _ byte inside] at stored
  rw [expandPrologue_entry arranged done] at ran
  obtain rfl := Option.some.inj (stored.symm.trans ran)
  have promised := held 0 Nat.one_pos
  rw [show slotOf MFI (arg 0) = 0 from slotOf_arg arranged done Nat.one_pos,
    localAddress_slotAddress rfl] at promised
  exact Option.some.inj promised

theorem not_argumentsHeld_of_overlap (arranged : Arranged 1 arg unused body F.blocks)
    (done : rewriteFunction F = some (MFI, codes))
    (overlaps : ¬ Apart (BitVec.ofNat 256 fpaddr).toNat 32 (slotAddress frame pointer).toNat 32) :
    ¬ ArgumentsHeld frame fpaddr pointer MFI codes 1 arg unused := by
  intro holds
  have entered : EVM.loadWord (EVM.storeWord (fun _ => 0) (BitVec.ofNat 256 fpaddr) pointer)
      (BitVec.ofNat 256 fpaddr) = pointer := EVM.loadWord_storeWord_same _ _ _
  generalize EVM.storeWord (fun _ => 0) (BitVec.ofNat 256 fpaddr) pointer = memory at entered
  obtain ⟨place, byte, inside, offSlot, offCell⟩ := shared_byte_moves_slot entered overlaps
  have same := loadWord_of_argumentsHeld arranged done holds (EVM.storeWord memory
    (slotAddress frame (EVM.loadWord (update memory place byte) (BitVec.ofNat 256 fpaddr)))
    (EVM.loadWord (update memory place byte) (slotAddress frame pointer) + 1))
    ((EVM.loadWord_storeWord_apart offCell).trans entered) byte inside
  -- the place the slot moves to holds a value that is not the argument
  rw [EVM.update_storeWord byte (apart_iff.mp offSlot place inside.1 inside.2),
    EVM.loadWord_storeWord_apart offSlot, EVM.loadWord_storeWord_apart offCell,
    EVM.loadWord_storeWord_same] at same
  exact absurd same.symm (by simp)

end Held

/-- A function gets its arguments from the stack exactly when every register
that is read is defined first in the layout, and it has no argument, or one
whose slot is off the cell of the frame pointer. -/
theorem takesArguments_iff_storesClear {signature : Signature} {entry : MachineBasicBlock}
    {rest : List MachineBasicBlock} (accepts : EVMArgumentMove.Accepts signature entry.instrs)
    (arranged : EVMArgumentMove.runOnMachineFunction signature (entry :: rest) = some F.blocks)
    (frame : CompiledFrame) (fpaddr : Nat) (pointer : Word) :
    TakesArguments F frame fpaddr pointer signature.count ↔
      DefinedFirst [] F.allRefs ∧ StoresClear frame fpaddr pointer signature.count := by
  rw [← rewriteFunction_isSome_iff, isSome_iff_exists]
  constructor
  · rintro ⟨MFI, codes, done, arg, unused, body, sorted, held⟩
    refine ⟨⟨_, done⟩, ?_⟩
    by_contra unclear
    obtain none | one | many := lt_trichotomy signature.count 1
    · exact unclear (.inl (by omega))
    · rw [StoresClear, one] at unclear
      rw [one] at sorted held
      exact not_argumentsHeld_of_overlap sorted done (fun apart => unclear (.inr ⟨rfl, apart⟩)) held
    · exact not_argumentsHeld_of_many sorted done many held
  · rintro ⟨⟨⟨MFI, codes⟩, done⟩, clear⟩
    obtain ⟨arg, unused, body, sorted⟩ :=
      EVMArgumentMove.runOnMachineFunction_arranged accepts arranged
    exact ⟨MFI, codes, done, arg, unused, body, sorted, argumentsHeld_of_clear sorted done clear⟩

def returning : MachineFunction where
  blocks := [⟨[stackArg 1 0, ⟨pRETURNSUBVOID_r, none, [.reg 1]⟩], [], []⟩]
  getInterval := fun _ => unreadInterval
  hasEntry := cons_ne_nil _ _
  edges := rfl
  nonzero := rfl

def emptyLeaf : CompiledFrame := CompiledFrame.identityFrame []

/-- Entered with frame pointer 96 in the cell at 32. -/
theorem returning_takesArguments : TakesArguments returning emptyLeaf 32 96 1 := by
  have accepts : EVMArgumentMove.Accepts ⟨0, true, 1⟩ [⟨pRETURNSUBVOID_r, none, []⟩] := by
    refine ⟨?_, by decide, by decide, by decide⟩
    intro MI member marker
    obtain rfl := mem_singleton.mp member
    cases marker
  have arranged : EVMArgumentMove.runOnMachineFunction ⟨0, true, 1⟩
      [⟨[⟨pRETURNSUBVOID_r, none, []⟩], [], []⟩] = some returning.blocks := by decide
  exact (takesArguments_iff_storesClear accepts arranged emptyLeaf 32 96).mpr (by decide)

def identity : MachineFunction where
  blocks := [⟨[stackArg 2 1, stackArg 1 0, ⟨pRETURNSUB_r, none, [.reg 2, .reg 1]⟩], [], []⟩]
  getInterval := fun _ => unreadInterval
  hasEntry := cons_ne_nil _ _
  edges := rfl
  nonzero := rfl

/-- The entry function `main(i256 a)`, which sends all there is to the account of the argument. -/
def entryOfOne : MachineFunction where
  blocks := [⟨[stackArg 1 0, ⟨.inst 0xff, none, [.reg 1]⟩], [], []⟩]
  getInterval := fun _ => unreadInterval
  hasEntry := cons_ne_nil _ _
  edges := rfl
  nonzero := rfl

/-- The argument is stored as the return address, and the return address as the
argument. The entry function runs with frame pointer 0 and stores its argument
over the cell. -/
theorem identity_not_takesArguments :
    EVMArgumentMove.runOnMachineFunction ⟨1, true, 2⟩
        [⟨[stackArg 1 0, ⟨pRETURNSUB_r, none, [.reg 1]⟩], [], []⟩] = some identity.blocks ∧
      (∀ frame fpaddr pointer, ¬ TakesArguments identity frame fpaddr pointer 2) ∧
    EVMArgumentMove.runOnMachineFunction ⟨1, false, 2⟩
        [⟨[stackArg 1 0, ⟨.inst 0xff, none, [.reg 1]⟩], [], []⟩] = some entryOfOne.blocks ∧
      ¬ TakesArguments entryOfOne emptyLeaf 0 0 1 := by
  refine ⟨by decide, ?_, by decide, ?_⟩
  · rintro frame fpaddr pointer ⟨MFI, codes, done, arg, unused, body, sorted, held⟩
    exact not_argumentsHeld_of_many sorted done (by decide) held
  · rintro ⟨MFI, codes, done, arg, unused, body, sorted, held⟩
    exact not_argumentsHeld_of_overlap sorted done (by decide) held

end EvmBackend.EVMVRegToMem
