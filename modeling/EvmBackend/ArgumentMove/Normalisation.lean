/-
The shape the pass brings the entry block into, and when it gets there.

A new instruction copies the debug location of its neighbour, so an entry block
that holds nothing but argument markers is in the way of every pop: the pass
then asserts. In all other cases the block is brought into shape.
-/

import EvmBackend.ArgumentMove

namespace EvmBackend.EVMArgumentMove

open List Option

def isReturn (MI : MachineInstr) : Bool := MI.opcode == pRETURNSUB_r || MI.opcode == pRETURNSUBVOID_r

def rebuildReturn (hasSubroutine : Bool) (returnAddrReg : Option Register) (MI : MachineInstr) :
    MachineInstr :=
  if hasSubroutine then MI else patchReturn returnAddrReg MI

def rebuildBlock (hasSubroutine : Bool) (returnAddrReg : Option Register)
    (block : MachineBasicBlock) : MachineBasicBlock :=
  { block with instrs := block.instrs.map (rebuildReturn hasSubroutine returnAddrReg) }

def signatureOf (hasSubroutine isMainFunction : Bool) (numStackArgs : Nat) (nextReg : Register) :
    Signature :=
  ⟨numStackArgs, !isMainFunction && !hasSubroutine, nextReg⟩

def others (entry : MachineBasicBlock) : List MachineInstr :=
  entry.instrs.filter fun MI => !isStackArg MI

/-- One marker for each argument from the last to the first, with the registers
the present ones have, a pop for each argument nobody reads, and the other
instructions in their order; returns start with the return address. -/
structure Normalised (hasSubroutine : Bool) (signature : Signature) (entry : MachineBasicBlock)
    (rest blocks : List MachineBasicBlock) (arg : Nat → Register) (unused : List Register)
    (returnAddrReg : Option Register) : Prop where
  shape : blocks =
    { entry with
      instrs := sortedEntry signature.count arg unused
        ((others entry).map (rebuildReturn hasSubroutine returnAddrReg)) } ::
      rest.map (rebuildBlock hasSubroutine returnAddrReg)
  distinct : ∀ left < signature.count, ∀ right < signature.count, arg left = arg right → left = right
  kept : ∀ reg index, stackArg reg index ∈ entry.instrs → arg index = reg
  once : unused.Nodup
  popped : ∀ reg, reg ∈ unused ↔ (∃ index < signature.count, reg = arg index) ∧
    MRIuseEmpty ({ entry with
      instrs := (others entry).map (rebuildReturn hasSubroutine returnAddrReg) } ::
        rest.map (rebuildBlock hasSubroutine returnAddrReg)) reg = true
  returnAddress : returnAddrReg =
    if signature.takesReturnAddress then some (arg signature.numStackArgs) else none
  returns : signature.takesReturnAddress = true → ∀ block ∈ blocks, ∀ MI ∈ block.instrs,
    isReturn MI = true → MI.explicitUses.head? = some (.reg (arg signature.numStackArgs))

/-- What selection hands over: markers of some of the arguments, and registers
below the next new one. -/
structure Selected (numStackArgs : Nat) (nextReg : Register) (entry : MachineBasicBlock)
    (rest : List MachineBasicBlock) : Prop where
  accepts : ∀ takesReturnAddress, Accepts ⟨numStackArgs, takesReturnAddress, nextReg⟩ entry.instrs
  reads : ∀ block ∈ entry :: rest, ∀ MI ∈ block.instrs, ∀ reg ∈ MI.useRegisters, reg < nextReg

/-- Either some instruction other than a marker stands in the entry block, or no
pop is needed: every argument has its marker and is read, and a return address
has a block to go into and a return that reads it. -/
def HasInsertionPoint (hasSubroutine : Bool) (signature : Signature) (entry : MachineBasicBlock)
    (rest : List MachineBasicBlock) : Prop :=
  others entry ≠ [] ∨
    ((∀ index < signature.numStackArgs, ∃ reg, stackArg reg index ∈ entry.instrs ∧
        MRIuseEmpty ((entry :: rest).map (rebuildBlock hasSubroutine none)) reg = false) ∧
      (signature.takesReturnAddress = true → entry.instrs ≠ [] ∧
        ∃ block ∈ entry :: rest, ∃ MI ∈ block.instrs, isReturn MI = true))

theorem isStackArg_rebuildReturn (hasSubroutine : Bool) (returnAddrReg : Option Register)
    (MI : MachineInstr) : isStackArg (rebuildReturn hasSubroutine returnAddrReg MI) = isStackArg MI := by
  unfold rebuildReturn
  split
  · rfl
  · exact isStackArg_patchReturn returnAddrReg MI

theorem patchReturn_opcode (returnAddrReg : Option Register) (MI : MachineInstr) :
    (patchReturn returnAddrReg MI).opcode = MI.opcode := by
  unfold patchReturn
  simp only
  split
  · rfl
  · split <;> rfl

variable {reg : Register} {MI : MachineInstr} {index : Nat}

theorem mem_patchReturn_useRegisters {returnAddrReg : Option Register} :
    reg ∈ (patchReturn returnAddrReg MI).useRegisters ↔
      (isReturn MI = true ∧ returnAddrReg = some reg) ∨
        reg ∈ (patchReturn none MI).useRegisters := by
  unfold patchReturn isReturn MachineInstr.useRegisters
  by_cases value : MI.opcode = pRETURNSUB_r
  · cases returnAddrReg with
    | none => simp [value]
    | some address => simp [value, MachineOperand.register?, eq_comm]
  · by_cases void : MI.opcode = pRETURNSUBVOID_r
    · have differs : pRETURNSUBVOID_r ≠ pRETURNSUB_r := by decide
      cases returnAddrReg with
      | none => simp [void, differs]
      | some address => simp [void, differs, MachineOperand.register?, eq_comm]
    · simp [value, void]

theorem patchReturn_none_useRegisters (reads : reg ∈ (patchReturn none MI).useRegisters) :
    reg ∈ MI.useRegisters := by
  unfold patchReturn MachineInstr.useRegisters at reads
  unfold MachineInstr.useRegisters
  by_cases value : MI.opcode = pRETURNSUB_r
  · simp only [value, if_true, toList_none, map_nil, nil_append] at reads
    exact ((take_sublist 1 _).filterMap _).subset reads
  · by_cases void : MI.opcode = pRETURNSUBVOID_r
    · have differs : pRETURNSUBVOID_r ≠ pRETURNSUB_r := by decide
      simp [void, differs] at reads
    · simpa [value, void] using reads

theorem head_patchReturn {address : Register} (returns : isReturn MI = true) :
    (patchReturn (some address) MI).explicitUses.head? = some (.reg address) := by
  unfold patchReturn
  unfold isReturn at returns
  by_cases value : MI.opcode = pRETURNSUB_r
  · simp [value]
  · have void : MI.opcode = pRETURNSUBVOID_r := by simpa [value] using returns
    have differs : pRETURNSUBVOID_r ≠ pRETURNSUB_r := by decide
    simp [void, differs]

theorem patchReturn_of_isStackArg (marker : isStackArg MI = true)
    (returnAddrReg : Option Register) : patchReturn returnAddrReg MI = MI := by
  have isMarker : MI.opcode = .pSTACKARG_r := eq_of_beq marker
  unfold patchReturn
  rw [isMarker]
  rfl

theorem mem_rebuildReturn_useRegisters {hasSubroutine : Bool} {returnAddrReg : Option Register} :
    reg ∈ (rebuildReturn hasSubroutine returnAddrReg MI).useRegisters ↔
      (hasSubroutine = false ∧ isReturn MI = true ∧ returnAddrReg = some reg) ∨
        reg ∈ (rebuildReturn hasSubroutine none MI).useRegisters := by
  cases hasSubroutine with
  | true => simp [rebuildReturn]
  | false => simpa [rebuildReturn] using mem_patchReturn_useRegisters

theorem rebuildReturn_none_useRegisters {hasSubroutine : Bool}
    (reads : reg ∈ (rebuildReturn hasSubroutine none MI).useRegisters) : reg ∈ MI.useRegisters := by
  cases hasSubroutine with
  | true => exact reads
  | false => exact patchReturn_none_useRegisters reads

/-! ### Markers -/

theorem insertRemoved_others (missing : List Nat) (nextReg : Register) (entry : List MachineInstr) :
    (insertRemoved missing nextReg entry).2.filter (fun MI => !isStackArg MI) =
      entry.filter fun MI => !isStackArg MI := by
  induction missing generalizing nextReg entry with
  | nil => rfl
  | cons index rest ih =>
      unfold insertRemoved
      rw [ih, filter_cons_of_neg (by simp)]

theorem insertRemoved_spec (missing : List Nat) (nextReg : Register) (entry : List MachineInstr) :
    nextReg ≤ (insertRemoved missing nextReg entry).1 ∧
      entry ⊆ (insertRemoved missing nextReg entry).2 ∧
      ∀ MI ∈ (insertRemoved missing nextReg entry).2,
        MI ∈ entry ∨ ∃ reg index, MI = stackArg reg index ∧ nextReg ≤ reg := by
  induction missing generalizing nextReg entry with
  | nil => exact ⟨Nat.le_refl _, List.Subset.refl _, fun _ member => .inl member⟩
  | cons index rest ih =>
      obtain ⟨grows, keeps, only⟩ := ih (nextReg + 1) (stackArg nextReg index :: entry)
      refine ⟨Nat.le_of_succ_le grows, fun MI member => keeps (mem_cons_of_mem _ member), ?_⟩
      intro MI member
      rcases only MI member with inside | ⟨reg, number, same, above⟩
      · rcases mem_cons.mp inside with isNew | old
        · exact .inr ⟨nextReg, index, isNew, Nat.le_refl _⟩
        · exact .inl old
      · exact .inr ⟨reg, number, same, Nat.le_of_succ_le above⟩

section Prepared

variable {hasSubroutine isMainFunction : Bool} {numStackArgs : Nat} {nextReg : Register}
  {entry : MachineBasicBlock} {rest : List MachineBasicBlock}

/-- The blocks with all markers in the entry block and the returns rebuilt, for
either kind of target. -/
structure Filled (hasSubroutine : Bool) (signature : Signature) (entry : MachineBasicBlock)
    (rest : List MachineBasicBlock) (first : MachineBasicBlock) (later : List MachineBasicBlock)
    (arg : Nat → Register) (returnAddrReg : Option Register) : Prop where
  complete : Complete signature.count arg first.instrs
  others : others first = (others entry).map (rebuildReturn hasSubroutine returnAddrReg)
  frame : { first with instrs := entry.instrs } = entry
  later : later = rest.map (rebuildBlock hasSubroutine returnAddrReg)
  kept : ∀ reg index, stackArg reg index ∈ entry.instrs → stackArg reg index ∈ first.instrs
  new : ∀ reg index, stackArg reg index ∈ first.instrs →
    stackArg reg index ∈ entry.instrs ∨ signature.nextReg ≤ reg
  returnAddress : returnAddrReg =
    if signature.takesReturnAddress then some (arg signature.numStackArgs) else none
  above : ∀ reg ∈ returnAddrReg, signature.nextReg ≤ reg
  plain : signature.takesReturnAddress = true → hasSubroutine = false

private theorem stackArg_inj {reg' : Register} {index' : Nat}
    (same : stackArg reg index = stackArg reg' index') : reg = reg' ∧ index = index' := by
  have sameReg := congrArg MachineInstr.defRegister same
  have sameIndex := congrArg argIndex same
  rw [defRegister_stackArg, defRegister_stackArg, Option.some.injEq] at sameReg
  rw [argIndex_stackArg, argIndex_stackArg, Option.some.injEq] at sameIndex
  exact ⟨sameReg, sameIndex⟩

private theorem complete_arg {count : Nat} {arg : Nat → Register} {instrs : List MachineInstr}
    (complete : Complete count arg instrs) (member : stackArg reg index ∈ instrs) :
      index < count ∧ arg index = reg := by
  obtain ⟨number, inside, same⟩ := List.mem_map.mp
    (complete.markers.mem_iff.mp (mem_filter.mpr ⟨member, rfl⟩))
  obtain ⟨sameReg, rfl⟩ := stackArg_inj same
  exact ⟨mem_range.mp inside, sameReg⟩

private theorem filter_map_rebuild (returnAddrReg : Option Register) (instrs : List MachineInstr) :
    (instrs.map (rebuildReturn hasSubroutine returnAddrReg)).filter (fun MI => !isStackArg MI) =
      (instrs.filter fun MI => !isStackArg MI).map (rebuildReturn hasSubroutine returnAddrReg) := by
  rw [List.filter_map]
  congr 2
  funext MI
  rw [Function.comp_apply, isStackArg_rebuildReturn]

theorem filled_with_subroutines (selected : Selected numStackArgs nextReg entry rest) :
    ∃ arg, Filled true ⟨numStackArgs, false, nextReg⟩ entry rest
      { entry with instrs := (insertRemoved (missingArgs numStackArgs entry.instrs) nextReg
        entry.instrs).2 } rest arg none := by
  obtain ⟨pairs, marked, numbers⟩ := insertRemoved_missing_marked (selected.accepts false)
  obtain ⟨arg, complete⟩ := complete_of_pairs marked.args numbers marked.registers
  obtain ⟨_, keeps, only⟩ :=
    insertRemoved_spec (missingArgs numStackArgs entry.instrs) nextReg entry.instrs
  have unchanged : rebuildReturn true none = id := rfl
  refine ⟨arg, complete, ?_, rfl, ?_, fun _ _ member => keeps member, ?_, rfl,
    fun _ absent => (by cases absent), fun takes => (by cases takes)⟩
  · rw [unchanged, List.map_id]
    exact insertRemoved_others _ _ _
  · have same : rebuildBlock true none = id := by
      funext block
      unfold rebuildBlock
      rw [unchanged, List.map_id]
      rfl
    rw [same, List.map_id]
  · intro reg index member
    rcases only _ member with old | ⟨reg', index', same, above⟩
    · exact .inl old
    · obtain ⟨rfl, _⟩ := stackArg_inj same
      exact .inr above

/-- The marker of the return address in front of the others, if there is one. -/
private def withMarker (returnAddrReg : Option Register) (numStackArgs : Nat)
    (instrs : List MachineInstr) : List MachineInstr :=
  (returnAddrReg.map fun destReg => stackArg destReg numStackArgs).toList ++ instrs

private theorem mem_withMarker_rebuilt (returnAddrReg : Option Register) (numStackArgs : Nat)
    (instrs : List MachineInstr) (reg : Register) (index : Nat) :
    stackArg reg index ∈
        (withMarker returnAddrReg numStackArgs instrs).map (rebuildReturn false returnAddrReg) ↔
      (returnAddrReg = some reg ∧ index = numStackArgs) ∨ stackArg reg index ∈ instrs := by
  have unpatched : stackArg reg index ∈
        (withMarker returnAddrReg numStackArgs instrs).map (rebuildReturn false returnAddrReg) ↔
      stackArg reg index ∈ withMarker returnAddrReg numStackArgs instrs := by
    constructor
    · intro member
      obtain ⟨MI, inside, same⟩ := List.mem_map.mp member
      have isMarker : isStackArg MI = true := by
        rw [← isStackArg_rebuildReturn false returnAddrReg MI, same]
        rfl
      have unchanged : rebuildReturn false returnAddrReg MI = MI :=
        patchReturn_of_isStackArg isMarker returnAddrReg
      rw [← same, unchanged]
      exact inside
    · intro member
      exact List.mem_map.mpr ⟨stackArg reg index, member, rfl⟩
  rw [unpatched]
  unfold withMarker
  rw [mem_append]
  refine or_congr_left ?_
  cases returnAddrReg with
  | none => simp
  | some destReg =>
      simp only [map_some, toList_some, mem_singleton, Option.some.injEq]
      constructor
      · intro same
        obtain ⟨rfl, rfl⟩ := stackArg_inj same
        exact ⟨rfl, rfl⟩
      · rintro ⟨rfl, rfl⟩
        rfl

private theorem prepared_eq (signature : Signature) :
    prepared signature entry rest =
      let arranged := insertRemoved (missingArgs signature.numStackArgs entry.instrs)
        signature.nextReg entry.instrs
      let returnAddrReg := if signature.takesReturnAddress then some arranged.1 else none
      ({ entry with
          instrs := (withMarker returnAddrReg signature.numStackArgs arranged.2).map
            (rebuildReturn false returnAddrReg) },
        rest.map (rebuildBlock false returnAddrReg)) := by
  unfold prepared addReturnAddress
  cases signature.takesReturnAddress with
  | false | true => rfl

theorem filled_without_subroutines {signature : Signature}
    (accepts : Accepts signature entry.instrs) (rest : List MachineBasicBlock) :
    ∃ arg returnAddrReg, Filled false signature entry rest (prepared signature entry rest).1
      (prepared signature entry rest).2 arg returnAddrReg := by
  obtain ⟨arg, complete⟩ := prepared_complete accepts rest
  obtain ⟨grows, keeps, only⟩ := insertRemoved_spec
    (missingArgs signature.numStackArgs entry.instrs) signature.nextReg entry.instrs
  have sameOthers := insertRemoved_others
    (missingArgs signature.numStackArgs entry.instrs) signature.nextReg entry.instrs
  rw [prepared_eq] at complete ⊢
  simp only at complete ⊢
  generalize insertRemoved (missingArgs signature.numStackArgs entry.instrs) signature.nextReg
    entry.instrs = arranged at complete grows keeps only sameOthers ⊢
  generalize chosen : (if signature.takesReturnAddress then some arranged.1 else none) =
    returnAddrReg at complete ⊢
  have marker := mem_withMarker_rebuilt returnAddrReg signature.numStackArgs arranged.2
  have isNew : ∀ reg ∈ returnAddrReg, reg = arranged.1 := by
    intro reg isAddress
    rw [← chosen] at isAddress
    split at isAddress
    · exact (Option.some.inj isAddress).symm
    · cases isAddress
  refine ⟨arg, returnAddrReg, complete, ?_, rfl, rfl, ?_, ?_, ?_, ?_, fun _ => rfl⟩
  · change List.filter _ (List.map _ _) = _
    rw [filter_map_rebuild]
    unfold withMarker others
    rw [filter_append, sameOthers]
    cases returnAddrReg with
    | none | some => rfl
  · intro reg index member
    exact (marker reg index).mpr (.inr (keeps member))
  · intro reg index member
    rcases (marker reg index).mp member with ⟨isAddress, _⟩ | inside
    · rw [isNew reg isAddress]
      exact .inr grows
    · rcases only _ inside with old | ⟨reg', index', same, above⟩
      · exact .inl old
      · obtain ⟨rfl, _⟩ := stackArg_inj same
        exact .inr above
  · cases takes : signature.takesReturnAddress with
    | false =>
        rw [takes] at chosen
        exact chosen.symm
    | true =>
        rw [takes, if_pos rfl] at chosen
        obtain ⟨_, known⟩ := complete_arg complete
          ((marker arranged.1 signature.numStackArgs).mpr (.inl ⟨chosen.symm, rfl⟩))
        rw [if_pos rfl, known, chosen]
  · intro reg isAddress
    rw [isNew reg isAddress]
    exact grows

variable {signature : Signature} {first : MachineBasicBlock} {later : List MachineBasicBlock}
  {arg : Nat → Register} {returnAddrReg : Option Register}

private theorem stackArg_reads {register : Register} :
    register ∉ (stackArg reg index).useRegisters := by
  intro member
  cases member

section

variable (filled : Filled hasSubroutine signature entry rest first later arg returnAddrReg)

include filled

private theorem Filled.useEmpty_iff
    (reg : Register) :
    MRIuseEmpty (first :: later) reg =
      MRIuseEmpty ({ entry with
        instrs := (EVMArgumentMove.others entry).map (rebuildReturn hasSubroutine returnAddrReg) } ::
          rest.map (rebuildBlock hasSubroutine returnAddrReg)) reg := by
  rw [Bool.eq_iff_iff, ← not_iff_not, Bool.not_eq_true, Bool.not_eq_true, MRIuseEmpty_eq_false,
    MRIuseEmpty_eq_false, ← filled.later, ← filled.others]
  simp only [exists_mem_cons_iff]
  refine or_congr_left ?_
  constructor
  · rintro ⟨MI, member, reads⟩
    refine ⟨MI, mem_filter.mpr ⟨member, ?_⟩, reads⟩
    cases marker : isStackArg MI with
    | false => rfl
    | true =>
        obtain ⟨index, _, rfl⟩ := List.mem_map.mp
          (filled.complete.markers.mem_iff.mp (mem_filter.mpr ⟨member, marker⟩))
        exact absurd reads stackArg_reads
  · rintro ⟨MI, member, reads⟩
    exact ⟨MI, (mem_filter.mp member).1, reads⟩

private theorem unusedArgs_perm
    (useEmpty : Register → Bool) :
    (unusedArgs useEmpty first.instrs).Perm
      (((List.range signature.count).map arg).filter useEmpty) := by
  unfold unusedArgs
  refine List.Perm.filter _ ?_
  have registers := filled.complete.markers.filterMap MachineInstr.defRegister
  rw [filterMap_map] at registers
  refine registers.trans (List.Perm.of_eq ?_)
  simp [Function.comp_def]

theorem Filled.sorted
    {sorted : List MachineInstr}
    (done : sortStackArgs (MRIuseEmpty (first :: later)) first.instrs = some sorted) :
    Normalised hasSubroutine signature entry rest ({ first with instrs := sorted } :: later) arg
      (unusedArgs (MRIuseEmpty (first :: later)) first.instrs) returnAddrReg := by
  rw [sortStackArgs_complete filled.complete] at done
  split at done
  · cases done
  have isSorted : sorted = sortedEntry signature.count arg
      (unusedArgs (MRIuseEmpty (first :: later)) first.instrs) (EVMArgumentMove.others first) :=
    (Option.some.inj done).symm
  have perm := unusedArgs_perm filled (MRIuseEmpty (first :: later))
  have distinctArgs : ((List.range signature.count).map arg).Nodup := by
    refine List.Nodup.map_on ?_ nodup_range
    intro left inLeft right inRight same
    exact filled.complete.distinct left (mem_range.mp inLeft) right (mem_range.mp inRight) same
  refine ⟨?_, filled.complete.distinct, ?_, ?_, ?_, filled.returnAddress, ?_⟩
  · rw [isSorted, filled.others, filled.later]
    have frame := filled.frame
    rw [← frame]
  · intro reg index member
    exact (complete_arg filled.complete (filled.kept reg index member)).2
  · exact perm.nodup_iff.mpr (distinctArgs.filter _)
  · intro reg
    rw [perm.mem_iff, mem_filter, ← filled.useEmpty_iff]
    refine and_congr_left fun _ => ?_
    simp only [List.mem_map, mem_range, eq_comm]
  · intro takes block member MI inside returns
    have rebuilt : ∃ original, MI = rebuildReturn hasSubroutine returnAddrReg original := by
      rcases mem_cons.mp member with rfl | inLater
      · simp only [isSorted, sortedEntry, mem_append, List.mem_map] at inside
        rcases inside with (⟨index, _, rfl⟩ | ⟨reg, _, rfl⟩) | inOthers
        · cases returns
        · cases returns
        · rw [filled.others] at inOthers
          obtain ⟨original, _, rfl⟩ := List.mem_map.mp inOthers
          exact ⟨original, rfl⟩
      · rw [filled.later] at inLater
        obtain ⟨given, _, rfl⟩ := List.mem_map.mp inLater
        obtain ⟨original, _, rfl⟩ := List.mem_map.mp inside
        exact ⟨original, rfl⟩
    obtain ⟨original, rfl⟩ := rebuilt
    have address : returnAddrReg = some (arg signature.numStackArgs) := by
      rw [filled.returnAddress, if_pos takes]
    have patched : rebuildReturn hasSubroutine returnAddrReg original =
        patchReturn (some (arg signature.numStackArgs)) original := by
      rw [filled.plain takes, address]
      rfl
    rw [patched] at returns ⊢
    unfold isReturn at returns
    rw [patchReturn_opcode] at returns
    exact head_patchReturn returns

theorem Filled.sortStackArgs_isSome :
    (sortStackArgs (MRIuseEmpty (first :: later)) first.instrs).isSome = true ↔
      EVMArgumentMove.others entry ≠ [] ∨
        ∀ index < signature.count, MRIuseEmpty (first :: later) (arg index) = false := by
  rw [sortStackArgs_complete filled.complete]
  have perm := unusedArgs_perm filled (MRIuseEmpty (first :: later))
  have noOthers : first.instrs.filter (fun MI => !isStackArg MI) = [] ↔
      EVMArgumentMove.others entry = [] := by
    change EVMArgumentMove.others first = [] ↔ _
    rw [filled.others, map_eq_nil_iff]
  have noUnused : unusedArgs (MRIuseEmpty (first :: later)) first.instrs = [] ↔
      ∀ index < signature.count, MRIuseEmpty (first :: later) (arg index) = false := by
    rw [← length_eq_zero_iff, perm.length_eq, length_eq_zero_iff, filter_eq_nil_iff]
    simp
  by_cases stuck : unusedArgs (MRIuseEmpty (first :: later)) first.instrs ≠ [] ∧
      first.instrs.filter (fun MI => !isStackArg MI) = []
  · rw [if_pos stuck, ← noUnused, ne_eq, ← noOthers]
    simp [stuck.1, stuck.2]
  · rw [if_neg stuck, ← noUnused, ne_eq, ← noOthers]
    simp only [isSome_some, true_iff]
    by_contra neither
    rw [not_or, not_not] at neither
    exact stuck ⟨neither.2, neither.1⟩

end

theorem used_rebuilt_iff (blocks : List MachineBasicBlock) (reg : Register) :
    MRIuseEmpty (blocks.map (rebuildBlock hasSubroutine returnAddrReg)) reg = false ↔
      ∃ block ∈ blocks, ∃ MI ∈ block.instrs,
        reg ∈ (rebuildReturn hasSubroutine returnAddrReg MI).useRegisters := by
  rw [MRIuseEmpty_eq_false]
  simp [rebuildBlock]

/-- An argument is read in the end if some instruction of the original blocks
reads it once the returns are rebuilt. -/
theorem Filled.used_iff
    (filled : Filled hasSubroutine signature entry rest first later arg returnAddrReg)
    (markers : ∀ MI ∈ entry.instrs, isStackArg MI = true → ∃ reg index, MI = stackArg reg index)
    (reg : Register) :
    MRIuseEmpty (first :: later) reg = false ↔
      ∃ block ∈ entry :: rest, ∃ MI ∈ block.instrs,
        reg ∈ (rebuildReturn hasSubroutine returnAddrReg MI).useRegisters := by
  rw [filled.useEmpty_iff, MRIuseEmpty_eq_false]
  simp only [exists_mem_cons_iff]
  refine or_congr ?_ (by simp [rebuildBlock])
  constructor
  · rintro ⟨rebuilt, member, reads⟩
    obtain ⟨MI, inside, rfl⟩ := List.mem_map.mp member
    exact ⟨MI, (mem_filter.mp inside).1, reads⟩
  · rintro ⟨MI, member, reads⟩
    refine ⟨_, List.mem_map.mpr ⟨MI, mem_filter.mpr ⟨member, ?_⟩, rfl⟩, reads⟩
    cases marker : isStackArg MI with
    | false => rfl
    | true =>
        obtain ⟨reg', index, rfl⟩ := markers MI member marker
        have unchanged : rebuildReturn hasSubroutine returnAddrReg (stackArg reg' index) =
            stackArg reg' index := by
          cases hasSubroutine <;> rfl
        rw [unchanged] at reads
        exact absurd reads stackArg_reads

theorem runOnSubtarget_filled (hasSubroutine isMainFunction : Bool)
    (selected : Selected numStackArgs nextReg entry rest) :
    ∃ first later arg returnAddrReg,
      Filled hasSubroutine (signatureOf hasSubroutine isMainFunction numStackArgs nextReg) entry rest
        first later arg returnAddrReg ∧
      runOnSubtarget hasSubroutine isMainFunction numStackArgs nextReg (entry :: rest) =
        if entry.instrs = [] ∧
            (signatureOf hasSubroutine isMainFunction numStackArgs nextReg).count ≠ 0 then none
        else (sortStackArgs (MRIuseEmpty (first :: later)) first.instrs).map fun sorted =>
          { first with instrs := sorted } :: later := by
  cases hasSubroutine with
  | false =>
      obtain ⟨arg, returnAddrReg, filled⟩ :=
        filled_without_subroutines (selected.accepts !isMainFunction) rest
      have same : signatureOf false isMainFunction numStackArgs nextReg =
          ⟨numStackArgs, !isMainFunction, nextReg⟩ := by
        simp [signatureOf]
      rw [same]
      exact ⟨_, _, arg, returnAddrReg, filled, runOnMachineFunction_cons _ entry rest⟩
  | true =>
      obtain ⟨arg, filled⟩ := filled_with_subroutines selected
      have same : signatureOf true isMainFunction numStackArgs nextReg =
          ⟨numStackArgs, false, nextReg⟩ := by
        simp [signatureOf]
      rw [same]
      refine ⟨_, _, arg, none, filled, ?_⟩
      have count : (⟨numStackArgs, false, nextReg⟩ : Signature).count = numStackArgs := rfl
      rw [count]
      unfold runOnSubtarget arrangeStackArgs
      by_cases empty : entry.instrs = [] ∧ numStackArgs ≠ 0
      · rw [if_pos empty]
        simp [empty.1, missingArgs_nil, empty.2]
      · have missing : ¬(missingArgs numStackArgs entry.instrs ≠ [] ∧ entry.instrs = []) := by
          rintro ⟨some, none⟩
          rw [none, missingArgs_nil] at some
          exact empty ⟨none, by simpa using some⟩
        rw [if_neg empty]
        simp only [if_true, if_neg missing, bind_eq_bind, bind_some, Option.pure_def,
          map_eq_bind]
        rfl

end Prepared

section Success

variable {hasSubroutine isMainFunction : Bool} {numStackArgs : Nat} {nextReg : Register}
  {entry first : MachineBasicBlock} {rest later : List MachineBasicBlock}
  {signature : Signature} {arg : Nat → Register} {returnAddrReg : Option Register}

private theorem Filled.marker_mem
    (filled : Filled hasSubroutine signature entry rest first later arg returnAddrReg)
    (inside : index < signature.count) :
    stackArg (arg index) index ∈ first.instrs :=
  (mem_filter.mp (filled.complete.markers.mem_iff.mpr
    (List.mem_map.mpr ⟨index, mem_range.mpr inside, rfl⟩))).1

private theorem reads_old
    (old : ∀ block ∈ entry :: rest, ∀ MI ∈ block.instrs, ∀ reg ∈ MI.useRegisters, reg < signature.nextReg)
    {block : MachineBasicBlock} (member : block ∈ entry :: rest) (inside : MI ∈ block.instrs)
    (reads : reg ∈ (rebuildReturn hasSubroutine returnAddrReg MI).useRegisters) :
    (isReturn MI = true ∧ returnAddrReg = some reg) ∨
      (reg < signature.nextReg ∧ reg ∈ (rebuildReturn hasSubroutine none MI).useRegisters) := by
  rcases mem_rebuildReturn_useRegisters.mp reads with ⟨_, returns, address⟩ | kept
  · exact .inl ⟨returns, address⟩
  · exact .inr ⟨old block member MI inside reg (rebuildReturn_none_useRegisters kept), kept⟩

private theorem numStackArgs_lt_count
    (takes : signature.takesReturnAddress = true) : signature.numStackArgs < signature.count := by
  unfold Signature.count
  rw [if_pos takes]
  exact Nat.lt_succ_self _

/-- If every argument is read in the end, it had its marker and was read before,
and some return reads the return address. -/
private theorem Filled.given_of_used
    (filled : Filled hasSubroutine signature entry rest first later arg returnAddrReg)
    (markers : ∀ MI ∈ entry.instrs, isStackArg MI = true → ∃ reg index, MI = stackArg reg index)
    (old : ∀ block ∈ entry :: rest, ∀ MI ∈ block.instrs, ∀ reg ∈ MI.useRegisters,
      reg < signature.nextReg)
    (used : ∀ index < signature.count, MRIuseEmpty (first :: later) (arg index) = false) :
    (∀ index < signature.numStackArgs, ∃ reg, stackArg reg index ∈ entry.instrs ∧
        MRIuseEmpty ((entry :: rest).map (rebuildBlock hasSubroutine none)) reg = false) ∧
      (signature.takesReturnAddress = true →
        ∃ block ∈ entry :: rest, ∃ MI ∈ block.instrs, isReturn MI = true) := by
  constructor
  · intro index inside
    have inCount : index < signature.count := Nat.lt_of_lt_of_le inside (Nat.le_add_right _ _)
    obtain ⟨block, member, MI, inBlock, reads⟩ :=
      (filled.used_iff markers (arg index)).mp (used index inCount)
    rcases reads_old old member inBlock reads with ⟨_, address⟩ | ⟨small, kept⟩
    · -- only the last argument is the return address
      rw [filled.returnAddress] at address
      split at address
      · rename_i takes
        have last := filled.complete.distinct _ (numStackArgs_lt_count takes) index inCount
          (Option.some.inj address)
        omega
      · cases address
    · refine ⟨arg index, ?_, (used_rebuilt_iff _ _).mpr ⟨block, member, MI, inBlock, kept⟩⟩
      rcases filled.new _ index (filled.marker_mem inCount) with present | above
      · exact present
      · exact absurd small (Nat.not_lt.mpr above)
  · intro takes
    have inCount := numStackArgs_lt_count takes
    obtain ⟨block, member, MI, inBlock, reads⟩ :=
      (filled.used_iff markers _).mp (used _ inCount)
    have address : returnAddrReg = some (arg signature.numStackArgs) := by
      rw [filled.returnAddress, if_pos takes]
    rcases reads_old old member inBlock reads with ⟨returns, _⟩ | ⟨small, _⟩
    · exact ⟨block, member, MI, inBlock, returns⟩
    · exact absurd small (Nat.not_lt.mpr (filled.above _ address))

private theorem Filled.used_of_given
    (filled : Filled hasSubroutine signature entry rest first later arg returnAddrReg)
    (markers : ∀ MI ∈ entry.instrs, isStackArg MI = true → ∃ reg index, MI = stackArg reg index)
    (present : ∀ index < signature.numStackArgs, ∃ reg, stackArg reg index ∈ entry.instrs ∧
      MRIuseEmpty ((entry :: rest).map (rebuildBlock hasSubroutine none)) reg = false)
    (returns : signature.takesReturnAddress = true →
      ∃ block ∈ entry :: rest, ∃ MI ∈ block.instrs, isReturn MI = true) :
    ∀ index < signature.count, MRIuseEmpty (first :: later) (arg index) = false := by
  intro index inside
  rw [filled.used_iff markers]
  by_cases isArgument : index < signature.numStackArgs
  · obtain ⟨reg, member, used⟩ := present index isArgument
    obtain ⟨_, rfl⟩ := complete_arg filled.complete (filled.kept reg index member)
    obtain ⟨block, inBlocks, MI, inBlock, reads⟩ := (used_rebuilt_iff _ _).mp used
    exact ⟨block, inBlocks, MI, inBlock, mem_rebuildReturn_useRegisters.mpr (.inr reads)⟩
  · have takes : signature.takesReturnAddress = true := by
      by_contra without
      simp only [Signature.count, without] at inside
      exact isArgument inside
    have isLast : index = signature.numStackArgs := by
      simp only [Signature.count, takes, if_true] at inside
      omega
    obtain ⟨block, inBlocks, MI, inBlock, isRet⟩ := returns takes
    refine ⟨block, inBlocks, MI, inBlock, mem_rebuildReturn_useRegisters.mpr (.inl ⟨?_, isRet, ?_⟩)⟩
    · exact filled.plain takes
    · rw [filled.returnAddress, if_pos takes, isLast]

/-- The pass normalises the entry block exactly if it finds an instruction to
insert before whenever it has to insert one. -/
theorem normalised_iff_hasInsertionPoint (selected : Selected numStackArgs nextReg entry rest) :
    (∃ blocks arg unused returnAddrReg,
      runOnSubtarget hasSubroutine isMainFunction numStackArgs nextReg (entry :: rest) = some blocks ∧
        Normalised hasSubroutine (signatureOf hasSubroutine isMainFunction numStackArgs nextReg)
          entry rest blocks arg unused returnAddrReg) ↔
      HasInsertionPoint hasSubroutine
        (signatureOf hasSubroutine isMainFunction numStackArgs nextReg) entry rest := by
  obtain ⟨first, later, arg, returnAddrReg, filled, runs⟩ :=
    runOnSubtarget_filled hasSubroutine isMainFunction selected
  generalize named : signatureOf hasSubroutine isMainFunction numStackArgs nextReg = signature
    at filled runs ⊢
  have sameNext : signature.nextReg = nextReg := by rw [← named]; rfl
  have markers : ∀ MI ∈ entry.instrs, isStackArg MI = true → ∃ reg index, MI = stackArg reg index := by
    intro MI member marker
    obtain ⟨reg, index, same, _⟩ := (selected.accepts true).markers MI member marker
    exact ⟨reg, index, same⟩
  have old : ∀ block ∈ entry :: rest, ∀ MI ∈ block.instrs, ∀ reg ∈ MI.useRegisters,
      reg < signature.nextReg := by
    rw [sameNext]
    exact selected.reads
  constructor
  · rintro ⟨blocks, _, _, _, done, _⟩
    rw [runs] at done
    split at done
    · cases done
    rename_i filledBlock
    obtain ⟨sorted, sorts, _⟩ := map_eq_some_iff.mp done
    rcases filled.sortStackArgs_isSome.mp (isSome_iff_exists.mpr ⟨sorted, sorts⟩) with
      some | used
    · exact .inl some
    · obtain ⟨present, returns⟩ := filled.given_of_used markers old used
      refine .inr ⟨present, fun takes => ⟨fun empty => filledBlock ⟨empty, ?_⟩, returns takes⟩⟩
      exact Nat.ne_of_gt (Nat.lt_of_le_of_lt (Nat.zero_le _) (numStackArgs_lt_count takes))
  · intro point
    have filledBlock : ¬(entry.instrs = [] ∧ signature.count ≠ 0) := by
      rintro ⟨empty, arguments⟩
      rcases point with some | ⟨present, returns⟩
      · exact some (by unfold others; rw [empty]; rfl)
      · have noReturnAddress : ¬signature.takesReturnAddress = true :=
          fun takes => (returns takes).1 empty
        have someArg : 0 < signature.numStackArgs := by
          simp only [Signature.count, noReturnAddress] at arguments
          exact Nat.pos_of_ne_zero arguments
        obtain ⟨reg, member, _⟩ := present 0 someArg
        rw [empty] at member
        cases member
    have sorts : (sortStackArgs (MRIuseEmpty (first :: later)) first.instrs).isSome = true := by
      rw [filled.sortStackArgs_isSome]
      rcases point with some | ⟨present, returns⟩
      · exact .inl some
      · exact .inr (filled.used_of_given markers present fun takes => (returns takes).2)
    obtain ⟨sorted, done⟩ := isSome_iff_exists.mp sorts
    refine ⟨_, arg, _, returnAddrReg, ?_, filled.sorted done⟩
    rw [runs, if_neg filledBlock, done]
    rfl

/-- An entry block that only falls through to a loop storing its argument. -/
def fallingEntry : MachineBasicBlock := ⟨[stackArg 1 0], [1], []⟩

def storingLoop : MachineBasicBlock := ⟨[⟨.inst 0x55, none, [.reg 1, .reg 1]⟩], [1], [0, 1]⟩

/-- With a second argument nobody reads there is no place for the pop. -/
theorem fallingEntry_not_normalised :
    Selected 2 2 fallingEntry [storingLoop] ∧
      ¬∃ blocks arg unused returnAddrReg,
        runOnSubtarget false false 2 2 [fallingEntry, storingLoop] = some blocks ∧
          Normalised false (signatureOf false false 2 2) fallingEntry [storingLoop] blocks arg unused
            returnAddrReg := by
  refine ⟨⟨fun takes => ⟨?_, by decide, by decide, by cases takes <;> decide⟩, by decide⟩, ?_⟩
  · intro MI member _
    obtain rfl := mem_singleton.mp member
    exact ⟨1, 0, rfl, Nat.zero_lt_succ 1⟩
  · rintro ⟨blocks, _, _, _, done, _⟩
    have fails : runOnSubtarget false false 2 2 [fallingEntry, storingLoop] = none := by decide
    rw [fails] at done
    cases done

/-- A store before the marker of the only argument, which is returned. -/
def storingEntry : MachineBasicBlock :=
  ⟨[⟨.inst 0x55, none, []⟩, stackArg 1 0, ⟨pRETURNSUB_r, none, [.reg 1]⟩], [], []⟩

theorem storingEntry_normalised :
    Selected 1 2 storingEntry [] ∧
      ∃ blocks arg unused returnAddrReg,
        runOnSubtarget false false 1 2 [storingEntry] = some blocks ∧
          Normalised false (signatureOf false false 1 2) storingEntry [] blocks arg unused
            returnAddrReg := by
  have selected : Selected 1 2 storingEntry [] := by
    refine ⟨fun takes => ⟨?_, by decide, by decide, by cases takes <;> decide⟩, by decide⟩
    intro MI member marker
    simp only [storingEntry, mem_cons, not_mem_nil, or_false] at member
    rcases member with rfl | rfl | rfl
    · cases marker
    · exact ⟨1, 0, rfl, Nat.zero_lt_succ 0⟩
    · cases marker
  exact ⟨selected, (normalised_iff_hasInsertionPoint selected).mpr (.inl (by decide))⟩

end Success

end EvmBackend.EVMArgumentMove
