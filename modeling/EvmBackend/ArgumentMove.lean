/-
The pass that arranges the incoming arguments at the start of the entry block.

An argument that was removed gets its marker back, the return address becomes
the last argument, and the markers are moved to the front with the last one
first. Arguments nobody reads are popped behind them.

A new instruction takes the debug location of the one it is inserted before, and
the source asserts that there is one: without it there is no result.
-/

import EvmBackend.MachineFunction
import Mathlib.Data.List.Nodup

namespace EvmBackend

open List

def pRETURNSUB_r : Opcode := .inst 257

def pRETURNSUBVOID_r : Opcode := .inst 258

variable {entry : List MachineInstr} {pairs : List (Register × Nat)} {signature : Signature}
    {nextReg : Register}

namespace EVMArgumentMove

def isStackArg (MI : MachineInstr) : Bool := MI.opcode == .pSTACKARG_r

def stackArg (reg : Register) (index : Nat) : MachineInstr := ⟨.pSTACKARG_r, some reg, [.imm index]⟩

def popArg (reg : Register) : MachineInstr := ⟨.inst 0x50, none, [.reg reg]⟩

def argIndex (MI : MachineInstr) : Option Nat :=
  match MI.explicitUses with
  | [.imm index] => some index.toNat
  | _ => none

/-- Markers for the missing arguments, each at the very start of the block and
with a new register. -/
def insertRemoved : List Nat → Register → List MachineInstr → Register × List MachineInstr
  | [], nextReg, entry => (nextReg, entry)
  | index :: rest, nextReg, entry =>
      insertRemoved rest (nextReg + 1) (stackArg nextReg index :: entry)

def missingArgs (numStackArgs : Nat) (entry : List MachineInstr) : List Nat :=
  (List.range numStackArgs).filter fun index =>
    !((entry.filter isStackArg).filterMap argIndex).contains index

def arrangeStackArgs (numStackArgs : Nat) (nextReg : Register) (entry : List MachineInstr) :
    Option (Register × List MachineInstr) :=
  if missingArgs numStackArgs entry ≠ [] ∧ entry = [] then none
  else some (insertRemoved (missingArgs numStackArgs entry) nextReg entry)

def patchReturn (returnAddrReg : Option Register) (MI : MachineInstr) : MachineInstr :=
  let address := returnAddrReg.toList.map MachineOperand.reg
  if MI.opcode = pRETURNSUB_r then
    { MI with explicitUses := address ++ MI.explicitUses.take 1 }
  else if MI.opcode = pRETURNSUBVOID_r then
    { MI with explicitUses := address }
  else MI

def MRIuseEmpty (blocks : List MachineBasicBlock) (reg : Register) : Bool :=
  !blocks.any fun block => block.instrs.any fun MI => MI.useRegisters.contains reg

/-- The markers in front of everything else, the last argument first, then a
pop for each unused one. There is no result if a number is missing. -/
def sortStackArgs (useEmpty : Register → Bool) (entry : List MachineInstr) :
    Option (List MachineInstr) :=
  let args := entry.filter isStackArg
  let unusedArgs := (args.filterMap MachineInstr.defRegister).filter useEmpty
  let others := entry.filter fun MI => !isStackArg MI
  if unusedArgs ≠ [] ∧ others = [] then
    none
  else
    ((List.range args.length).reverse.mapM fun index =>
      args.find? fun MI => argIndex MI == some index).map fun sorted =>
        sorted ++ unusedArgs.map popArg ++ others

/-- What the pass finds: the number of arguments, whether the return address is
one of them, and the next new register. -/
structure Signature where
  numStackArgs : Nat
  takesReturnAddress : Bool
  nextReg : Register
  deriving DecidableEq, Repr

def Signature.count (signature : Signature) : Nat :=
  signature.numStackArgs + if signature.takesReturnAddress then 1 else 0

/-- The marker of the return address, if the function takes one, and the returns
of all blocks with their operands set anew. -/
def addReturnAddress (signature : Signature) (nextReg : Register) (entry : MachineBasicBlock)
    (rest : List MachineBasicBlock) : MachineBasicBlock × List MachineBasicBlock :=
  let returnAddrReg := if signature.takesReturnAddress then some nextReg else none
  let marked := match returnAddrReg with
    | some destReg => stackArg destReg signature.numStackArgs :: entry.instrs
    | none => entry.instrs
  ({ entry with instrs := marked.map (patchReturn returnAddrReg) },
    rest.map fun block => { block with instrs := block.instrs.map (patchReturn returnAddrReg) })

def insertRetAddrArg (signature : Signature) (nextReg : Register) (entry : MachineBasicBlock)
    (rest : List MachineBasicBlock) : Option (MachineBasicBlock × List MachineBasicBlock) :=
  if signature.takesReturnAddress = true ∧ entry.instrs = [] then none
  else some (addReturnAddress signature nextReg entry rest)

def runOnMachineFunction (signature : Signature) (blocks : List MachineBasicBlock) :
    Option (List MachineBasicBlock) :=
  match blocks with
  | [] => none
  | entry :: rest => do
      let arranged ← arrangeStackArgs signature.numStackArgs signature.nextReg entry.instrs
      let (entry, rest) ← insertRetAddrArg signature arranged.1 { entry with instrs := arranged.2 } rest
      let sorted ← sortStackArgs (MRIuseEmpty (entry :: rest)) entry.instrs
      return { entry with instrs := sorted } :: rest

/-- The pass for either kind of target: subroutines return by themselves, so
their target adds no return address and leaves the returns alone. -/
def runOnSubtarget (hasSubroutine isMainFunction : Bool) (numStackArgs : Nat) (nextReg : Register)
    (blocks : List MachineBasicBlock) : Option (List MachineBasicBlock) :=
  if hasSubroutine then
    match blocks with
    | [] => none
    | entry :: rest => do
        let arranged ← arrangeStackArgs numStackArgs nextReg entry.instrs
        let sorted ← sortStackArgs
          (MRIuseEmpty ({ entry with instrs := arranged.2 } :: rest)) arranged.2
        return { entry with instrs := sorted } :: rest
  else
    runOnMachineFunction ⟨numStackArgs, !isMainFunction, nextReg⟩ blocks

/-- Selection creates at most one marker for an argument, with a register of its
own, and registers are numbered below the next one. -/
structure Accepts (signature : Signature) (entry : List MachineInstr) : Prop where
  markers : ∀ MI ∈ entry, isStackArg MI = true →
    ∃ reg index, MI = stackArg reg index ∧ index < signature.numStackArgs
  numbers : ((entry.filter isStackArg).filterMap argIndex).Nodup
  registers : ((entry.filter isStackArg).filterMap MachineInstr.defRegister).Nodup
  below : ∀ MI ∈ entry, ∀ reg ∈ MI.defRegister, reg < signature.nextReg

/-- The markers of the block are those of arguments 0 up to the count, in some
order, with pairwise different registers. -/
structure Complete (count : Nat) (arg : Nat → Register) (entry : List MachineInstr) : Prop where
  markers : (entry.filter isStackArg).Perm ((List.range count).map fun index => stackArg (arg index) index)
  distinct : ∀ left < count, ∀ right < count, arg left = arg right → left = right

@[simp]
theorem isStackArg_stackArg (reg : Register) (index : Nat) : isStackArg (stackArg reg index) = true :=
  rfl

@[simp]
theorem argIndex_stackArg (reg : Register) (index : Nat) : argIndex (stackArg reg index) = some index :=
  rfl

@[simp]
theorem defRegister_stackArg (reg : Register) (index : Nat) :
    (stackArg reg index).defRegister = some reg :=
  rfl

theorem exists_pairs {args : List MachineInstr}
    (markers : ∀ MI ∈ args, ∃ reg index, MI = stackArg reg index) :
    ∃ pairs : List (Register × Nat), args = pairs.map fun pair => stackArg pair.1 pair.2 := by
  induction args with
  | nil => exact ⟨[], rfl⟩
  | cons MI rest ih =>
      obtain ⟨reg, index, rfl⟩ := markers MI mem_cons_self
      obtain ⟨pairs, rfl⟩ := ih fun other member => markers other (mem_cons_of_mem _ member)
      exact ⟨(reg, index) :: pairs, rfl⟩

theorem complete_of_pairs {count : Nat}
    (args : entry.filter isStackArg = pairs.map fun pair => stackArg pair.1 pair.2)
    (numbers : (pairs.map Prod.snd).Perm (List.range count))
    (registers : (pairs.map Prod.fst).Nodup) : ∃ arg, Complete count arg entry := by
  have once : (pairs.map Prod.snd).Nodup := numbers.nodup_iff.mpr nodup_range
  -- the register of a number is found at its only marker
  let arg : Nat → Register := fun index => ((pairs.find? fun pair => pair.2 == index).map Prod.fst).getD 0
  have found : ∀ pair ∈ pairs, arg pair.2 = pair.1 := by
    intro pair member
    have hits : (pairs.find? fun other => other.2 == pair.2).isSome = true :=
      find?_isSome.mpr ⟨pair, member, beq_self_eq_true pair.2⟩
    obtain ⟨other, hit⟩ := Option.isSome_iff_exists.mp hits
    have number := find?_some hit
    rw [beq_iff_eq] at number
    have same : other = pair :=
      inj_on_of_nodup_map once (mem_of_find?_eq_some hit) member number
    simp only [arg, hit, same, Option.map_some, Option.getD_some]
  have rebuilt : (pairs.map Prod.snd).map (fun index => (arg index, index)) = pairs := by
    rw [List.map_map]
    conv_rhs => rw [← List.map_id pairs]
    exact map_congr_left fun pair member => Prod.ext (found pair member) rfl
  refine ⟨arg, ?_, ?_⟩
  · rw [args]
    conv_lhs => rw [← rebuilt]
    rw [List.map_map]
    exact numbers.map _
  · intro left inLeft right inRight same
    have leftMember : (arg left, left) ∈ pairs := by
      rw [← rebuilt]
      exact List.mem_map.mpr ⟨left, numbers.mem_iff.mpr (mem_range.mpr inLeft), rfl⟩
    have rightMember : (arg right, right) ∈ pairs := by
      rw [← rebuilt]
      exact List.mem_map.mpr ⟨right, numbers.mem_iff.mpr (mem_range.mpr inRight), rfl⟩
    exact congrArg Prod.snd (inj_on_of_nodup_map registers leftMember rightMember same)

/-! ### Arranging -/

structure Marked (pairs : List (Register × Nat)) (nextReg : Register) (entry : List MachineInstr) :
    Prop where
  args : entry.filter isStackArg = pairs.map fun pair => stackArg pair.1 pair.2
  registers : (pairs.map Prod.fst).Nodup
  below : ∀ pair ∈ pairs, pair.1 < nextReg

theorem Marked.cons (marked : Marked pairs nextReg entry) (index : Nat) :
    Marked ((nextReg, index) :: pairs) (nextReg + 1) (stackArg nextReg index :: entry) := by
  refine ⟨?_, ?_, fun pair member => ?_⟩
  · rw [filter_cons_of_pos (isStackArg_stackArg _ _), marked.args, map_cons]
  · refine nodup_cons.mpr ⟨fun repeated => ?_, marked.registers⟩
    obtain ⟨pair, member, same⟩ := List.mem_map.mp repeated
    have small := marked.below pair member
    rw [same] at small
    exact Nat.lt_irrefl _ small
  · rcases mem_cons.mp member with rfl | old
    · exact Nat.lt_succ_self _
    · exact Nat.lt_succ_of_lt (marked.below pair old)

theorem insertRemoved_marked (missing : List Nat) (marked : Marked pairs nextReg entry) :
    ∃ added, Marked (added ++ pairs) (insertRemoved missing nextReg entry).1
        (insertRemoved missing nextReg entry).2 ∧ (added.map Prod.snd).Perm missing := by
  induction missing generalizing pairs nextReg entry with
  | nil => exact ⟨[], marked, List.Perm.refl _⟩
  | cons index rest ih =>
      obtain ⟨added, grown, numbers⟩ := ih (marked.cons index)
      refine ⟨added ++ [(nextReg, index)], ?_, ?_⟩
      · rw [List.append_assoc]
        exact grown
      · rw [map_append]
        exact perm_append_comm.trans (numbers.cons index)

theorem accepts_marked (accepts : Accepts signature entry) :
    ∃ pairs, Marked pairs signature.nextReg entry ∧ (pairs.map Prod.snd).Nodup ∧
      (∀ pair ∈ pairs, pair.2 < signature.numStackArgs) ∧
      (entry.filter isStackArg).filterMap argIndex = pairs.map Prod.snd := by
  have inEntry : ∀ MI ∈ entry.filter isStackArg, MI ∈ entry ∧ isStackArg MI = true :=
    fun MI member => mem_filter.mp member
  obtain ⟨pairs, listed⟩ := exists_pairs fun MI member => by
    obtain ⟨reg, index, same, _⟩ := accepts.markers MI (inEntry MI member).1 (inEntry MI member).2
    exact ⟨reg, index, same⟩
  have numbers := accepts.numbers
  have registers := accepts.registers
  rw [listed, filterMap_map] at numbers registers
  have member : ∀ pair ∈ pairs, stackArg pair.1 pair.2 ∈ entry.filter isStackArg := by
    intro pair inside
    rw [listed]
    exact List.mem_map.mpr ⟨pair, inside, rfl⟩
  refine ⟨pairs, ⟨listed, ?_, fun pair inside => ?_⟩, ?_, fun pair inside => ?_, ?_⟩
  · simpa [Function.comp_def] using registers
  · exact accepts.below _ (inEntry _ (member pair inside)).1 pair.1 rfl
  · simpa [Function.comp_def] using numbers
  · obtain ⟨reg, index, same, small⟩ :=
      accepts.markers _ (inEntry _ (member pair inside)).1 rfl
    have number := congrArg argIndex same
    rw [argIndex_stackArg, argIndex_stackArg] at number
    rw [Option.some.inj number]
    exact small
  · rw [listed, filterMap_map]
    simp [Function.comp_def]

theorem insertRemoved_missing_marked (accepts : Accepts signature entry) :
    ∃ pairs, Marked pairs
        (insertRemoved (missingArgs signature.numStackArgs entry) signature.nextReg entry).1
        (insertRemoved (missingArgs signature.numStackArgs entry) signature.nextReg entry).2 ∧
      (pairs.map Prod.snd).Perm (List.range signature.numStackArgs) := by
  obtain ⟨pairs, marked, once, small, present⟩ := accepts_marked accepts
  unfold missingArgs
  rw [present]
  obtain ⟨added, grown, numbers⟩ := insertRemoved_marked
    ((List.range signature.numStackArgs).filter fun index =>
      !(pairs.map Prod.snd).contains index) marked
  refine ⟨added ++ pairs, grown, ?_⟩
  have kept : (pairs.map Prod.snd).Perm ((List.range signature.numStackArgs).filter fun index =>
      (pairs.map Prod.snd).contains index) := by
    refine (perm_ext_iff_of_nodup once (nodup_range.filter _)).mpr fun index => ?_
    rw [mem_filter, mem_range, contains_iff_mem]
    refine ⟨fun member => ⟨?_, member⟩, And.right⟩
    obtain ⟨pair, inside, rfl⟩ := List.mem_map.mp member
    exact small pair inside
  rw [map_append]
  exact ((numbers.append kept).trans perm_append_comm).trans
    (filter_append_perm _ (List.range signature.numStackArgs))

theorem isStackArg_patchReturn (returnAddrReg : Option Register) (MI : MachineInstr) :
    isStackArg (patchReturn returnAddrReg MI) = isStackArg MI := by
  unfold patchReturn isStackArg
  simp only
  split
  · rfl
  · split <;> rfl

theorem Marked.patchReturn (marked : Marked pairs nextReg entry) (returnAddrReg : Option Register) :
    Marked pairs nextReg (entry.map (patchReturn returnAddrReg)) := by
  refine ⟨?_, marked.registers, marked.below⟩
  have sameTest : isStackArg ∘ EVMArgumentMove.patchReturn returnAddrReg = isStackArg :=
    funext (isStackArg_patchReturn returnAddrReg)
  rw [List.filter_map, sameTest, marked.args, List.map_map]
  rfl

theorem addReturnAddress_complete (entry : MachineBasicBlock) (rest : List MachineBasicBlock)
    (marked : Marked pairs nextReg entry.instrs)
    (numbers : (pairs.map Prod.snd).Perm (List.range signature.numStackArgs)) :
    ∃ arg, Complete signature.count arg (addReturnAddress signature nextReg entry rest).1.instrs := by
  unfold addReturnAddress Signature.count
  cases signature.takesReturnAddress with
  | false =>
      have patched := marked.patchReturn none
      exact complete_of_pairs patched.args numbers patched.registers
  | true =>
      have patched := (marked.cons signature.numStackArgs).patchReturn (some nextReg)
      refine complete_of_pairs patched.args ?_ patched.registers
      rw [map_cons, if_pos rfl, range_succ]
      exact (numbers.cons signature.numStackArgs).trans (perm_append_singleton _ _).symm

/-! ### Sorting -/

private theorem mapM_eq_some_map {α β : Type} {find : α → Option β} {result : α → β} {xs : List α}
    (finds : ∀ x ∈ xs, find x = some (result x)) : xs.mapM find = some (xs.map result) := by
  induction xs with
  | nil => rfl
  | cons x rest ih =>
      rw [mapM_cons, finds x mem_cons_self,
        ih fun other member => finds other (mem_cons_of_mem x member)]
      rfl

def unusedArgs (useEmpty : Register → Bool) (entry : List MachineInstr) : List Register :=
  ((entry.filter isStackArg).filterMap MachineInstr.defRegister).filter useEmpty

theorem sortStackArgs_complete {useEmpty : Register → Bool} {count : Nat} {arg : Nat → Register}
    (complete : Complete count arg entry) :
    sortStackArgs useEmpty entry =
      if unusedArgs useEmpty entry ≠ [] ∧ entry.filter (fun MI => !isStackArg MI) = [] then none
      else some ((List.range count).reverse.map (fun index => stackArg (arg index) index) ++
        (unusedArgs useEmpty entry).map popArg ++ entry.filter fun MI => !isStackArg MI) := by
  have size : (entry.filter isStackArg).length = count := by
    rw [complete.markers.length_eq, length_map, length_range]
  have finds : ∀ index ∈ (List.range count).reverse,
      (entry.filter isStackArg).find? (fun MI => argIndex MI == some index) =
        some (stackArg (arg index) index) := by
    intro index member
    have inside : index < count := mem_range.mp (mem_reverse.mp member)
    have listed : stackArg (arg index) index ∈ entry.filter isStackArg :=
      complete.markers.mem_iff.mpr (List.mem_map.mpr ⟨index, mem_range.mpr inside, rfl⟩)
    have hits : ((entry.filter isStackArg).find? fun MI => argIndex MI == some index).isSome = true :=
      find?_isSome.mpr ⟨_, listed, by simp⟩
    obtain ⟨MI, hit⟩ := Option.isSome_iff_exists.mp hits
    obtain ⟨other, _, rfl⟩ := List.mem_map.mp (complete.markers.mem_iff.mp (mem_of_find?_eq_some hit))
    have number := find?_some hit
    rw [beq_iff_eq, argIndex_stackArg, Option.some.injEq] at number
    rw [hit, number]
  unfold sortStackArgs
  simp only [size, mapM_eq_some_map finds, Option.map_some, unusedArgs]
  rfl

def sortedEntry (count : Nat) (arg : Nat → Register) (unused : List Register)
    (body : List MachineInstr) : List MachineInstr :=
  (List.range count).reverse.map (fun index => stackArg (arg index) index) ++
    unused.map popArg ++ body

/-- The blocks the pass leaves: in front of the entry block the markers from the
last argument to the first, behind them pops of some arguments, and no marker
in the rest. Every argument is read somewhere. -/
structure Arranged (count : Nat) (arg : Nat → Register) (unused : List Register)
    (body : List MachineInstr) (blocks : List MachineBasicBlock) : Prop where
  entry : ∃ (first : MachineBasicBlock) (later : List MachineBasicBlock),
    blocks = { first with instrs := sortedEntry count arg unused body } :: later
  markers : ∀ MI ∈ body, isStackArg MI = false
  distinct : ∀ left < count, ∀ right < count, arg left = arg right → left = right
  popped : ∀ reg ∈ unused, ∃ index < count, reg = arg index
  read : ∀ index < count, MRIuseEmpty blocks (arg index) = false

theorem MRIuseEmpty_eq_false {blocks : List MachineBasicBlock} {reg : Register} :
    MRIuseEmpty blocks reg = false ↔
      ∃ block ∈ blocks, ∃ MI ∈ block.instrs, reg ∈ MI.useRegisters := by
  unfold MRIuseEmpty
  simp only [Bool.not_eq_false', List.any_eq_true, contains_iff_mem]

/-- The blocks when the markers are complete and the returns rebuilt, before
anything is moved. -/
def prepared (signature : Signature) (entry : MachineBasicBlock) (rest : List MachineBasicBlock) :
    MachineBasicBlock × List MachineBasicBlock :=
  let arranged := insertRemoved (missingArgs signature.numStackArgs entry.instrs) signature.nextReg
    entry.instrs
  addReturnAddress signature arranged.1 { entry with instrs := arranged.2 } rest

theorem insertRemoved_eq_nil_iff (missing : List Nat) (nextReg : Register)
    (entry : List MachineInstr) :
    (insertRemoved missing nextReg entry).2 = [] ↔ missing = [] ∧ entry = [] := by
  induction missing generalizing nextReg entry with
  | nil => simp [insertRemoved]
  | cons index rest ih => simp [insertRemoved, ih]

theorem missingArgs_nil (numStackArgs : Nat) : missingArgs numStackArgs [] = List.range numStackArgs := by
  simp [missingArgs]

theorem runOnMachineFunction_cons (signature : Signature) (entry : MachineBasicBlock)
    (rest : List MachineBasicBlock) :
    runOnMachineFunction signature (entry :: rest) =
      if entry.instrs = [] ∧ signature.count ≠ 0 then none
      else (sortStackArgs
          (MRIuseEmpty ((prepared signature entry rest).1 :: (prepared signature entry rest).2))
          (prepared signature entry rest).1.instrs).map fun sorted =>
        { (prepared signature entry rest).1 with instrs := sorted } ::
          (prepared signature entry rest).2 := by
  by_cases empty : entry.instrs = [] ∧ signature.count ≠ 0
  · rw [if_pos empty]
    obtain ⟨noInstr, some⟩ := empty
    unfold runOnMachineFunction arrangeStackArgs
    simp only [noInstr, missingArgs_nil]
    by_cases arguments : signature.numStackArgs = 0
    · have takes : signature.takesReturnAddress = true := by
        by_contra without
        simp [Signature.count, arguments, without] at some
      simp [arguments, insertRemoved, insertRetAddrArg, takes]
    · rw [if_pos ⟨by simpa using arguments, trivial⟩]
      rfl
  · rw [if_neg empty]
    have arranged : arrangeStackArgs signature.numStackArgs signature.nextReg entry.instrs =
        some (insertRemoved (missingArgs signature.numStackArgs entry.instrs) signature.nextReg
          entry.instrs) := by
      refine if_neg fun missing => empty ⟨missing.2, fun none => missing.1 ?_⟩
      have noArgs : signature.numStackArgs = 0 := by
        unfold Signature.count at none
        omega
      rw [noArgs]
      rfl
    have without : entry.instrs = [] → signature.takesReturnAddress = false := by
      intro noInstr
      by_contra takes
      refine empty ⟨noInstr, ?_⟩
      simp [Signature.count, takes]
    have added : insertRetAddrArg signature
        (insertRemoved (missingArgs signature.numStackArgs entry.instrs) signature.nextReg
          entry.instrs).1
        { entry with instrs := (insertRemoved (missingArgs signature.numStackArgs entry.instrs)
          signature.nextReg entry.instrs).2 } rest = some (prepared signature entry rest) := by
      refine if_neg fun impossible => ?_
      have noInstr := ((insertRemoved_eq_nil_iff _ _ _).mp impossible.2).2
      rw [without noInstr] at impossible
      cases impossible.1
    unfold runOnMachineFunction
    simp only [arranged, added, Option.bind_eq_bind, Option.bind_some, Option.pure_def,
      Option.map_eq_bind]
    rfl

theorem prepared_complete {entry : MachineBasicBlock} (accepts : Accepts signature entry.instrs)
    (rest : List MachineBasicBlock) :
    ∃ arg, Complete signature.count arg (prepared signature entry rest).1.instrs := by
  obtain ⟨pairs, marked, numbers⟩ := insertRemoved_missing_marked accepts
  exact addReturnAddress_complete _ rest marked numbers

theorem runOnMachineFunction_arranged {entry : MachineBasicBlock}
    {rest blocks : List MachineBasicBlock} (accepts : Accepts signature entry.instrs)
    (done : runOnMachineFunction signature (entry :: rest) = some blocks) :
    ∃ arg unused body, Arranged signature.count arg unused body blocks := by
  obtain ⟨arg, complete⟩ := prepared_complete accepts rest
  rw [runOnMachineFunction_cons] at done
  generalize prepared signature entry rest = result at complete done
  obtain ⟨first, later⟩ := result
  split at done
  · cases done
  rw [sortStackArgs_complete complete] at done
  split at done
  · cases done
  simp only [Option.map_some, Option.some.injEq] at done
  have inArgs : ∀ index < signature.count,
      stackArg (arg index) index ∈ first.instrs.filter isStackArg := fun index inside =>
    complete.markers.mem_iff.mpr (List.mem_map.mpr ⟨index, mem_range.mpr inside, rfl⟩)
  refine ⟨arg, unusedArgs (MRIuseEmpty (first :: later)) first.instrs,
    first.instrs.filter fun MI => !isStackArg MI, ⟨first, later, done.symm⟩, ?_, complete.distinct,
    ?_, ?_⟩
  · intro MI member
    exact (Bool.not_eq_true' _).mp (mem_filter.mp member).2
  · intro reg member
    obtain ⟨MI, marker, defines⟩ := mem_filterMap.mp (mem_filter.mp member).1
    obtain ⟨index, inside, rfl⟩ := List.mem_map.mp (complete.markers.mem_iff.mp marker)
    exact ⟨index, mem_range.mp inside, (Option.some.inj defines).symm⟩
  · intro index inside
    rw [MRIuseEmpty_eq_false, ← done]
    by_cases empty : MRIuseEmpty (first :: later) (arg index) = true
    · have listed : arg index ∈ unusedArgs (MRIuseEmpty (first :: later)) first.instrs :=
        mem_filter.mpr ⟨mem_filterMap.mpr ⟨_, inArgs index inside, rfl⟩, empty⟩
      refine ⟨_, mem_cons_self, popArg (arg index), ?_, mem_singleton.mpr rfl⟩
      exact mem_append_left _ (mem_append_right _ (List.mem_map.mpr ⟨_, listed, rfl⟩))
    · obtain ⟨block, member, MI, inBlock, reads⟩ :=
        MRIuseEmpty_eq_false.mp (Bool.eq_false_iff.mpr empty)
      rcases mem_cons.mp member with rfl | other
      · refine ⟨_, mem_cons_self, MI, mem_append_right _ ?_, reads⟩
        refine mem_filter.mpr ⟨inBlock, ?_⟩
        by_contra marker
        have isMarker : isStackArg MI = true := by simpa using marker
        obtain ⟨number, _, rfl⟩ := List.mem_map.mp
          (complete.markers.mem_iff.mp (mem_filter.mpr ⟨inBlock, isMarker⟩))
        cases reads
      · exact ⟨block, mem_cons_of_mem _ other, MI, inBlock, reads⟩

end EVMArgumentMove

end EvmBackend
