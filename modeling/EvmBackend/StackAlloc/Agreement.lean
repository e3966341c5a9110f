/-
Two runs of the allocator on one function, from pass objects that differ in
the slot map they were left with.

Only the map carries over from one function to the next; everything else the
pass reads is set anew. The steps that read no map do the same in both runs,
and one that hands out a slot does if the maps are equal.
-/

import EvmBackend.StackAlloc.FrameSize

namespace EvmBackend.EVMStackAlloc

open Option

/-! ### States that differ in their slot maps -/

def withMaps (slots : List Register) (edges : Nat → Option (List Register × List Register))
    (st : EVMStackAlloc) : EVMStackAlloc :=
  { st with memoryAssignment := slots, edgeset2assignment := edges }

section Frame

variable (slots : List Register) (edges : Nat → Option (List Register × List Register))
  (F : MachineFunction) (st : EVMStackAlloc)

theorem findRegDepth_withMaps (reg : Register) :
    findRegDepth reg (st.withMaps slots edges) = findRegDepth reg st := rfl

theorem pop_withMaps : pop (st.withMaps slots edges) = (pop st).map (withMaps slots edges) := by
  obtain ⟨_, _, stack, _, _, _, _, _, _, _, _⟩ := st
  cases stack <;> rfl

theorem insertDupBefore_withMaps (index : Nat) :
    insertDupBefore index (st.withMaps slots edges) =
      (insertDupBefore index st).map (withMaps slots edges) := by
  unfold insertDupBefore
  rw [Option.map_map]
  rfl

theorem insertSwapBefore_withMaps (index : Nat) :
    insertSwapBefore index (st.withMaps slots edges) =
      (insertSwapBefore index st).map (withMaps slots edges) := by
  unfold insertSwapBefore
  rw [Option.map_map]
  rfl

theorem insertSwapAfter_withMaps (index : Nat) :
    insertSwapAfter index (st.withMaps slots edges) =
      (insertSwapAfter index st).map (withMaps slots edges) := by
  unfold insertSwapAfter
  rw [Option.map_map]
  rfl

theorem insertSwapPoint_withMaps (index : Nat) :
    insertSwapPoint index (st.withMaps slots edges) =
      (insertSwapPoint index st).map (withMaps slots edges) := by
  unfold insertSwapPoint
  rw [Option.map_map]
  rfl

theorem insertPopBefore_withMaps :
    insertPopBefore (st.withMaps slots edges) = (insertPopBefore st).map (withMaps slots edges) :=
  pop_withMaps slots edges { st with before := st.before ++ [.POP_r] }

theorem insertPopAfter_withMaps :
    insertPopAfter (st.withMaps slots edges) = (insertPopAfter st).map (withMaps slots edges) :=
  pop_withMaps slots edges { st with after := .POP_r :: st.after }

theorem insertPopPoint_withMaps :
    insertPopPoint (st.withMaps slots edges) = (insertPopPoint st).map (withMaps slots edges) :=
  pop_withMaps slots edges { st with between := st.between ++ [.POP_r] }

theorem SwapRegToTop_withMaps (reg : Register) :
    SwapRegToTop reg (st.withMaps slots edges) =
      (SwapRegToTop reg st).map (withMaps slots edges) := by
  unfold SwapRegToTop
  rw [findRegDepth_withMaps, bind_eq_bind, Option.map_bind]
  congr 1
  funext depth
  by_cases deep : depth ≠ 0
  · rw [if_pos deep, insertSwapBefore_withMaps, Function.comp_apply, if_pos deep]
  · rw [if_neg deep, Function.comp_apply, if_neg deep]
    rfl

theorem DupRegToTop_withMaps (reg : Register) :
    DupRegToTop reg (st.withMaps slots edges) =
      (DupRegToTop reg st).map (withMaps slots edges) := by
  unfold DupRegToTop
  rw [findRegDepth_withMaps, bind_eq_bind, Option.map_bind]
  congr 1
  funext depth
  exact insertDupBefore_withMaps slots edges st (depth + 1)

theorem insertLoad_withMaps (reg : Register) (ref : InstrRef) (memSlot : Nat) :
    insertLoadFromMemoryBefore reg ref memSlot (st.withMaps slots edges) =
      (insertLoadFromMemoryBefore reg ref memSlot st).withMaps slots edges := rfl

private theorem bind_withMaps {first second : EVMStackAlloc → Option EVMStackAlloc}
    (one : ∀ st, first (st.withMaps slots edges) = (first st).map (withMaps slots edges))
    (two : ∀ st, second (st.withMaps slots edges) = (second st).map (withMaps slots edges)) :
    (first (st.withMaps slots edges)).bind second =
      ((first st).bind second).map (withMaps slots edges) := by
  rw [one]
  cases first st with
  | none => rfl
  | some next => exact two next

theorem handleUnaryOpcode_withMaps (ref : InstrRef) (reg : Register) :
    handleUnaryOpcode F ref reg (st.withMaps slots edges) =
      (handleUnaryOpcode F ref reg st).map (withMaps slots edges) := by
  unfold handleUnaryOpcode
  change (if (st.lookup reg).region = .NONSTACK then _ else _) = _
  by_cases inMemory : (st.lookup reg).region = .NONSTACK
  · simp only [if_pos inMemory]
    rfl
  · simp only [if_neg inMemory, findRegDepth_withMaps, bind_eq_bind, Option.map_bind]
    congr 1
    funext depth
    change (if regIsLastUse F st.MRI ref reg = true then _ else _) = _
    by_cases last : regIsLastUse F st.MRI ref reg = true
    · simp only [if_pos last, Function.comp_apply]
      by_cases deep : depth ≠ 0
      · simp only [if_pos deep, insertSwapBefore_withMaps]
      · simp only [if_neg deep]
        rfl
    · simp only [if_neg last, Function.comp_apply, insertDupBefore_withMaps]

theorem handleStackOperands_withMaps (reg1 reg2 : Register) (lastUse1 lastUse2 : Bool) :
    handleStackOperands reg1 reg2 lastUse1 lastUse2 (st.withMaps slots edges) =
      (handleStackOperands reg1 reg2 lastUse1 lastUse2 st).map (withMaps slots edges) := by
  have swapTo := fun reg st => SwapRegToTop_withMaps slots edges st reg
  have dupTo := fun reg st => DupRegToTop_withMaps slots edges st reg
  have swapAt := fun index st => insertSwapBefore_withMaps slots edges st index
  unfold handleStackOperands
  simp only [findRegDepth_withMaps, bind_eq_bind, Option.map_bind]
  congr 1
  funext depth1
  rw [Function.comp_apply, Option.map_bind]
  congr 1
  funext depth2
  rw [Function.comp_apply]
  cases lastUse1 <;> cases lastUse2 <;> simp only
  · exact bind_withMaps slots edges st (dupTo reg2) (dupTo reg1)
  · exact bind_withMaps slots edges st (swapTo reg2) (dupTo reg1)
  · split
    · exact bind_withMaps slots edges st (dupTo reg2) (swapTo reg1)
    · split
      · exact swapTo reg1 st
      · exact bind_withMaps slots edges st (dupTo reg2) fun st =>
          bind_withMaps slots edges st (swapAt 1) (swapTo reg1)
  · split
    · rfl
    · split
      · exact bind_withMaps slots edges st (swapAt 1) fun st =>
          bind_withMaps slots edges st (swapTo reg2) (swapTo reg1)
      · split
        · exact swapTo reg1 st
        · split
          · exact swapAt 1 st
          · exact bind_withMaps slots edges st (swapTo reg2) fun st =>
              bind_withMaps slots edges st (swapAt 1) (swapTo reg1)

theorem handleBinaryOpcode_withMaps (ref : InstrRef) (reg1 reg2 : Register) :
    handleBinaryOpcode F ref reg1 reg2 (st.withMaps slots edges) =
      (handleBinaryOpcode F ref reg1 reg2 st).map (withMaps slots edges) := by
  have load := fun reg memSlot (st : EVMStackAlloc) =>
    congrArg some (insertLoad_withMaps slots edges st reg ref memSlot)
  unfold handleBinaryOpcode
  change (if (st.lookup reg1).region = .NONSTACK ∧ (st.lookup reg2).region = .NONSTACK then _
    else if (st.lookup reg1).region = .NONSTACK then
      (if regIsLastUse F st.MRI ref reg2 = true then _ else _)
    else if (st.lookup reg2).region = .NONSTACK then
      (if regIsLastUse F st.MRI ref reg1 = true then _ else _)
    else _) = _
  by_cases bothMemory : (st.lookup reg1).region = .NONSTACK ∧ (st.lookup reg2).region = .NONSTACK
  · simp only [if_pos bothMemory]
    rfl
  simp only [if_neg bothMemory, bind_eq_bind]
  by_cases memory1 : (st.lookup reg1).region = .NONSTACK
  · simp only [if_pos memory1]
    by_cases last : regIsLastUse F st.MRI ref reg2 = true
    · simp only [if_pos last]
      exact bind_withMaps slots edges st (fun st => SwapRegToTop_withMaps slots edges st reg2)
        (load reg1 (st.lookup reg1).slot)
    · simp only [if_neg last]
      exact bind_withMaps slots edges st (fun st => DupRegToTop_withMaps slots edges st reg2)
        (load reg1 (st.lookup reg1).slot)
  simp only [if_neg memory1]
  by_cases memory2 : (st.lookup reg2).region = .NONSTACK
  · simp only [if_pos memory2]
    by_cases last : regIsLastUse F st.MRI ref reg1 = true
    · simp only [if_pos last]
      refine bind_withMaps slots edges st (fun st => SwapRegToTop_withMaps slots edges st reg1)
        fun middle => ?_
      exact SwapRegToTop_withMaps slots edges
        (insertLoadFromMemoryBefore reg2 ref (st.lookup reg2).slot middle) reg1
    · simp only [if_neg last]
      exact DupRegToTop_withMaps slots edges
        (insertLoadFromMemoryBefore reg2 ref (st.lookup reg2).slot st) reg1
  · simp only [if_neg memory2]
    exact handleStackOperands_withMaps slots edges st reg1 reg2 _ _

theorem handleArbitraryUse_withMaps (ref : InstrRef) (use : RegUseType) :
    handleArbitraryUse ref use (st.withMaps slots edges) =
      (handleArbitraryUse ref use st).map (withMaps slots edges) := by
  unfold handleArbitraryUse
  cases use.isMemUse with
  | true => rfl
  | false => exact DupRegToTop_withMaps slots edges st use.reg

theorem popUses_withMaps (count : Nat) :
    popUses count (st.withMaps slots edges) = (popUses count st).map (withMaps slots edges) := by
  induction count generalizing st with
  | zero => rfl
  | succ count ih => exact bind_withMaps slots edges st (pop_withMaps slots edges) ih

theorem handleUses_withMaps (ref : InstrRef) :
    handleUses F ref (st.withMaps slots edges) =
      (handleUses F ref st).map (withMaps slots edges) := by
  have same : calculateUseRegs F ref (st.withMaps slots edges) = calculateUseRegs F ref st := rfl
  unfold handleUses
  rw [same]
  simp only [bind_eq_bind, Option.map_bind]
  congr 1
  funext useTypes
  rw [Function.comp_apply]
  have popped := fun st => popUses_withMaps slots edges st useTypes.length
  match useTypes with
  | [] => exact popped st
  | [use] =>
      exact bind_withMaps slots edges st
        (fun st => handleUnaryOpcode_withMaps slots edges F st ref use.reg) popped
  | [use1, use2] =>
      exact bind_withMaps slots edges st
        (fun st => handleBinaryOpcode_withMaps slots edges F st ref use1.reg use2.reg) popped
  | use1 :: use2 :: use3 :: rest =>
      refine bind_withMaps slots edges st (fun st => ?_) popped
      exact Runs.run_commutes _ (fun use st => handleArbitraryUse_withMaps slots edges st ref use) _ st

theorem cleanUpUse_withMaps (atEnd : Bool) (use : RegUseType) :
    cleanUpUse atEnd use (st.withMaps slots edges) =
      (cleanUpUse atEnd use st).map (withMaps slots edges) := by
  have popped : ∀ st : EVMStackAlloc,
      (if atEnd = true then insertPopAfter (st.withMaps slots edges)
        else insertPopPoint (st.withMaps slots edges)) =
      (if atEnd = true then insertPopAfter st else insertPopPoint st).map (withMaps slots edges) := by
    intro st
    cases atEnd with
    | true => exact insertPopAfter_withMaps slots edges st
    | false => exact insertPopPoint_withMaps slots edges st
  unfold cleanUpUse
  cases use.isLastUse with
  | false => rfl
  | true =>
      simp only [if_true, findRegDepth_withMaps, bind_eq_bind, Option.map_bind]
      congr 1
      funext depth
      rw [Function.comp_apply]
      by_cases deep : depth ≠ 0
      · simp only [if_pos deep]
        cases atEnd with
        | true =>
            exact bind_withMaps slots edges st
              (fun st => insertSwapAfter_withMaps slots edges st depth) popped
        | false =>
            exact bind_withMaps slots edges st
              (fun st => insertSwapPoint_withMaps slots edges st depth) popped
      · simp only [if_neg deep]
        exact popped st

theorem cleanUpDeadRegisters_withMaps (ref : InstrRef) :
    cleanUpDeadRegisters F ref (st.withMaps slots edges) =
      (cleanUpDeadRegisters F ref st).map (withMaps slots edges) := by
  have same : calculateUseRegs F ref (st.withMaps slots edges) = calculateUseRegs F ref st := rfl
  unfold cleanUpDeadRegisters
  split
  · rfl
  · rw [same]
    simp only [bind_eq_bind, Option.map_bind]
    congr 1
    funext useTypes
    exact Runs.run_commutes _ (fun use st => cleanUpUse_withMaps slots edges st _ use) _ st

theorem popIfDead_withMaps (block : Nat) (xreg : Register) :
    popIfDead F block xreg (st.withMaps slots edges) =
      (popIfDead F block xreg st).map (withMaps slots edges) := by
  unfold popIfDead
  change (if regIsDeadAtBeginningOfMBB F st.MRI xreg block = true then _ else _) = _
  by_cases dead : regIsDeadAtBeginningOfMBB F st.MRI xreg block = true
  · simp only [if_pos dead]
    exact bind_withMaps slots edges st (fun st => SwapRegToTop_withMaps slots edges st xreg)
      (insertPopBefore_withMaps slots edges)
  · simp only [if_neg dead]
    rfl

theorem insertAssignment_withMaps (reg : Register) (assignment : StackAssignment) :
    insertAssignment reg assignment (st.withMaps slots edges) =
      (insertAssignment reg assignment st).withMaps slots edges := by
  have known : (st.withMaps slots edges).regAssignments reg = st.regAssignments reg := rfl
  unfold insertAssignment
  rw [known]
  cases st.regAssignments reg <;> rfl

theorem handleDef_withMaps (ref : InstrRef) (silent : storedRegister F (.define ref) st = none) :
    handleDef F ref (st.withMaps slots edges) =
      (handleDef F ref st).map (withMaps slots edges) := by
  unfold storedRegister at silent
  unfold handleDef
  cases defined : ref.instr.defRegister with
  | none => rfl
  | some defReg =>
      simp only [defined] at silent
      split at silent
      · rename_i kept
        obtain ⟨oneDef, either⟩ := (Bool.and_eq_true _ _).mp kept
        change (if st.MRI.hasOneDef defReg = true then
          (if st.MRI.useEmpty defReg = true then _ else _) else _) = _
        simp only [if_pos oneDef]
        by_cases unused : st.MRI.useEmpty defReg = true
        · simp only [if_pos unused, insertAssignment_withMaps]
          exact insertPopAfter_withMaps slots edges _
        · rw [Bool.eq_false_iff.mpr unused, Bool.false_or] at either
          simp only [if_neg unused, if_pos either, insertAssignment_withMaps]
          rfl
      · cases silent

theorem analyzeStackArg_withMaps (first arg : InstrRef)
    (silent : storedRegister F (.stackArg first arg) st = none) :
    analyzeStackArg F first arg (st.withMaps slots edges) =
      (analyzeStackArg F first arg st).map (withMaps slots edges) := by
  unfold storedRegister at silent
  unfold analyzeStackArg
  simp only at silent
  split at silent
  · rename_i either
    change (if st.MRI.useEmpty (argRegister arg) = true then _ else _) = _
    by_cases unused : st.MRI.useEmpty (argRegister arg) = true
    · simp only [if_pos unused, insertAssignment_withMaps]
      generalize insertAssignment (argRegister arg) ⟨.NO_ALLOCATION, 0⟩ st = noted
      exact pop_withMaps slots edges { noted with before := noted.before.insertIdx arg.index .POP_r }
    · rw [Bool.eq_false_iff.mpr unused, Bool.false_or] at either
      simp only [if_neg unused, if_pos either, insertAssignment_withMaps]
      rfl
  · cases silent

end Frame

section Stores

variable (edges : Nat → Option (List Register × List Register)) (st : EVMStackAlloc)

def withEdges : EVMStackAlloc := { st with edgeset2assignment := edges }

theorem allocateMemorySlot_withEdges (reg : Register) :
    allocateMemorySlot reg (st.withEdges edges) =
      ((allocateMemorySlot reg st).1.withEdges edges, (allocateMemorySlot reg st).2) := by
  unfold allocateMemorySlot
  change (if (st.memoryAssignment.findIdx? (· == 0)).getD 0 = 0 then _ else _) = _
  by_cases atEnd : (st.memoryAssignment.findIdx? (· == 0)).getD 0 = 0
  · simp only [if_pos atEnd]
    rfl
  · simp only [if_neg atEnd]
    rfl

theorem insertAssignment_withEdges (reg : Register) (assignment : StackAssignment) :
    insertAssignment reg assignment (st.withEdges edges) =
      (insertAssignment reg assignment st).withEdges edges := by
  have known : (st.withEdges edges).regAssignments reg = st.regAssignments reg := rfl
  unfold insertAssignment
  rw [known]
  cases st.regAssignments reg <;> rfl

theorem pop_withEdges : pop (st.withEdges edges) = (pop st).map (withEdges edges) := by
  obtain ⟨_, _, stack, _, _, _, _, _, _, _, _⟩ := st
  cases stack <;> rfl

theorem insertSwapBefore_withEdges (index : Nat) :
    insertSwapBefore index (st.withEdges edges) =
      (insertSwapBefore index st).map (withEdges edges) := by
  unfold insertSwapBefore
  rw [Option.map_map]
  rfl

theorem storeDef_withEdges (ref : InstrRef) (defReg : Register) :
    storeDef ref defReg (st.withEdges edges) = (storeDef ref defReg st).withEdges edges := by
  unfold storeDef
  rw [allocateMemorySlot_withEdges]
  simp only [insertAssignment_withEdges]
  rfl

theorem handleDef_withEdges (F : MachineFunction) {ref : InstrRef} {defReg : Register}
    (isDef : ref.instr.defRegister = some defReg)
    (shared : st.MRI.hasOneDef defReg = true → st.MRI.useEmpty defReg = false ∧
      defIsLocal F ref defReg = false) :
    handleDef F ref (st.withEdges edges) = (handleDef F ref st).map (withEdges edges) := by
  unfold handleDef
  simp only [isDef]
  change (if st.MRI.hasOneDef defReg = true then
    (if st.MRI.useEmpty defReg = true then _ else _) else _) = _
  by_cases oneDef : st.MRI.hasOneDef defReg = true
  · simp only [if_pos oneDef, (shared oneDef).1, (shared oneDef).2, Bool.false_eq_true, if_false,
      storeDef_withEdges, map_some]
  · simp only [if_neg oneDef, storeDef_withEdges, map_some]

theorem analyzeStackArg_withEdges (F : MachineFunction) (first arg : InstrRef)
    (used : st.MRI.useEmpty (argRegister arg) = false)
    (shared : defIsLocal F arg (argRegister arg) = false) :
    analyzeStackArg F first arg (st.withEdges edges) =
      (analyzeStackArg F first arg st).map (withEdges edges) := by
  unfold analyzeStackArg
  change (if st.MRI.useEmpty (argRegister arg) = true then _ else _) = _
  rw [allocateMemorySlot_withEdges]
  simp only [used, shared, Bool.false_eq_true, if_false, insertAssignment_withEdges,
    bind_eq_bind, Option.map_bind]
  generalize insertAssignment _ _ _ = placed
  change (placed.findRegDepth (argRegister arg)).bind _ = _
  congr 1
  funext depth
  rw [Function.comp_apply]
  by_cases deep : depth ≠ 0
  · simp only [if_pos deep, insertSwapBefore_withEdges]
    cases insertSwapBefore depth placed with
    | none => rfl
    | some swapped =>
        exact pop_withEdges edges (insertStoreToMemoryBefore (argRegister arg) first
          (allocateMemorySlot (argRegister arg) st).2 swapped)
  · simp only [if_neg deep]
    exact pop_withEdges edges (insertStoreToMemoryBefore (argRegister arg) first
      (allocateMemorySlot (argRegister arg) st).2 placed)

end Stores

/-! ### Two runs of one function -/

/-- The maps are equal, or that of the pass that has seen nothing is empty. -/
def MapsAgree (left right : List Register) : Prop := left = right ∨ right = []

/-- A state of the pass against the state of one that has seen nothing. -/
structure Agree (left right : EVMStackAlloc) : Prop where
  same : right = left.withMaps right.memoryAssignment right.edgeset2assignment
  maps : MapsAgree left.memoryAssignment right.memoryAssignment
  edges : ∀ index,
    ((left.edgeset2assignment index).getD ([], [])).1 =
      ((right.edgeset2assignment index).getD ([], [])).1 ∧
    MapsAgree ((left.edgeset2assignment index).getD ([], [])).2
      ((right.edgeset2assignment index).getD ([], [])).2

/-- A slot is handed out from an empty map where the function has no slot in
use: no map of an earlier function is in the way. -/
def OwnSlots (F : MachineFunction) (step : AllocStep) (pair : EVMStackAlloc × EVMStackAlloc) : Prop :=
  storedRegister F step pair.1 ≠ none → pair.2.memoryAssignment = [] → pair.1.memoryAssignment = []

instance (F : MachineFunction) (step : AllocStep) (pair : EVMStackAlloc × EVMStackAlloc) :
    Decidable (OwnSlots F step pair) :=
  inferInstanceAs (Decidable (_ → _ → _))

section Agreement

variable {F : MachineFunction} {left right nextLeft nextRight : EVMStackAlloc}

theorem Agree.of_commutes (agree : Agree left right)
    (action : EVMStackAlloc → Option EVMStackAlloc)
    (commutes : ∀ slots edges,
      action (left.withMaps slots edges) = (action left).map (withMaps slots edges))
    (one : action left = some nextLeft) (two : action right = some nextRight)
    (maps : nextLeft.memoryAssignment = left.memoryAssignment)
    (edges : nextLeft.edgeset2assignment = left.edgeset2assignment) : Agree nextLeft nextRight := by
  rw [agree.same, commutes, one] at two
  obtain rfl := Option.some.inj two
  refine ⟨rfl, ?_, ?_⟩
  · change MapsAgree nextLeft.memoryAssignment right.memoryAssignment
    rw [maps]
    exact agree.maps
  · change ∀ index, ((nextLeft.edgeset2assignment index).getD ([], [])).1 =
      ((right.edgeset2assignment index).getD ([], [])).1 ∧ _
    rw [edges]
    exact agree.edges

theorem Agree.of_stores (agree : Agree left right)
    (action : EVMStackAlloc → Option EVMStackAlloc)
    (commutes : ∀ edges, action (left.withEdges edges) = (action left).map (withEdges edges))
    (equal : left.memoryAssignment = right.memoryAssignment)
    (one : action left = some nextLeft) (two : action right = some nextRight)
    (edges : nextLeft.edgeset2assignment = left.edgeset2assignment) : Agree nextLeft nextRight := by
  have same : right = left.withEdges right.edgeset2assignment := by
    rw [agree.same, ← equal]
    rfl
  rw [same, commutes, one] at two
  obtain rfl := Option.some.inj two
  refine ⟨rfl, .inl rfl, ?_⟩
  change ∀ index, ((nextLeft.edgeset2assignment index).getD ([], [])).1 =
    ((right.edgeset2assignment index).getD ([], [])).1 ∧ _
  rw [edges]
  exact agree.edges

theorem MapsAgree.freed {dead : Register → Bool} {left right freedLeft freedRight : List Register}
    (maps : MapsAgree left right) (one : freeDeadSlots dead left.length 0 left = some freedLeft)
    (two : freeDeadSlots dead right.length 0 right = some freedRight) :
    MapsAgree freedLeft freedRight := by
  rcases maps with rfl | rfl
  · exact .inl (Option.some.inj (one.symm.trans two))
  · cases two
    exact .inr rfl

theorem beginOfBlockUpdates_agree {block : Nat} (agree : Agree left right)
    (one : beginOfBlockUpdates F block left = some nextLeft)
    (two : beginOfBlockUpdates F block right = some nextRight) : Agree nextLeft nextRight := by
  unfold beginOfBlockUpdates at one two
  by_cases noPred : F.predecessors block = []
  · rw [if_pos noPred] at one two
    cases one
    cases two
    exact agree
  rw [if_neg noPred] at one two
  obtain ⟨⟨xLeft, mapLeft⟩, handedLeft, one⟩ := bind_eq_some_iff.mp one
  obtain ⟨⟨xRight, mapRight⟩, handedRight, two⟩ := bind_eq_some_iff.mp two
  obtain ⟨poppedLeft, popping, one⟩ := bind_eq_some_iff.mp one
  obtain ⟨poppedRight, alsoPopping, two⟩ := bind_eq_some_iff.mp two
  obtain ⟨slotsLeft, freeing, one⟩ := bind_eq_some_iff.mp one
  obtain ⟨slotsRight, alsoFreeing, two⟩ := bind_eq_some_iff.mp two
  obtain rfl := Option.some.inj one
  obtain rfl := Option.some.inj two
  obtain ⟨sameStack, maps⟩ : xLeft = xRight ∧ MapsAgree mapLeft mapRight := by
    rw [agree.same] at handedRight
    unfold takenOver at handedLeft handedRight
    split at handedLeft
    · cases handedLeft
    · rename_i pred rest preds
      simp only [preds] at handedRight
      obtain ⟨setIndex, found, heldLeft⟩ := map_eq_some_iff.mp handedLeft
      obtain ⟨alsoIndex, alsoFound, heldRight⟩ := map_eq_some_iff.mp handedRight
      obtain rfl := Option.some.inj (found.symm.trans alsoFound)
      have held := agree.edges setIndex
      change (right.edgeset2assignment setIndex).getD ([], []) = (xRight, mapRight) at heldRight
      rw [heldLeft, heldRight] at held
      exact held
  subst sameStack
  -- the pops are the same, the maps are freed of the same occupants
  have changed : poppedRight = poppedLeft.withMaps mapRight right.edgeset2assignment := by
    have commuted := Runs.run_commutes _
      (fun xreg st => popIfDead_withMaps mapRight right.edgeset2assignment F st block xreg)
      xLeft.reverse { left with stack := xLeft ++ left.stack, memoryAssignment := mapLeft, before := [] }
    rw [popping] at commuted
    rw [agree.same] at alsoPopping
    exact Option.some.inj (alsoPopping.symm.trans commuted)
  subst changed
  obtain ⟨inserted, stack, rfl, _⟩ := popDead_frame popping
  rw [agree.same] at alsoFreeing
  refine ⟨?_, maps.freed freeing alsoFreeing, agree.edges⟩
  rw [agree.same]
  rfl

theorem endOfBlockUpdates_agree {block : Nat} (agree : Agree left right)
    (one : endOfBlockUpdates F block left = some nextLeft)
    (two : endOfBlockUpdates F block right = some nextRight) : Agree nextLeft nextRight := by
  rcases endOfBlockUpdates_eq_some one with ⟨none, rfl⟩ | ⟨later, rest, index, edges, found, rfl⟩
  · rcases endOfBlockUpdates_eq_some two with ⟨_, rfl⟩ | ⟨later, rest, _, edges, _, _⟩
    · exact agree
    · rw [none] at edges
      cases edges
  · rcases endOfBlockUpdates_eq_some two with ⟨none, _⟩ | ⟨_, _, alsoIndex, alsoEdges, alsoFound, rfl⟩
    · rw [none] at edges
      cases edges
    · obtain ⟨rfl, rfl⟩ := List.cons.inj (edges.symm.trans alsoEdges)
      have sets : right.edgeSets = left.edgeSets := by
        rw [agree.same]
        rfl
      have sameStack : right.stack = left.stack := by
        rw [agree.same]
        rfl
      rw [sets] at alsoFound
      obtain rfl := Option.some.inj (found.symm.trans alsoFound)
      refine ⟨?_, agree.maps, fun other => ?_⟩
      · rw [agree.same]
        rfl
      · by_cases written : other = index
        · simp only [written, Function.update_self, getD_some]
          exact ⟨sameStack.symm, agree.maps⟩
        · simp only [Function.update_of_ne written]
          exact agree.edges other

/-- One step of both runs: as long as slots come from the function's own map,
they differ in leftover maps only. -/
theorem allocStep_agree {step : AllocStep} (agree : Agree left right)
    (own : OwnSlots F step (left, right)) (one : allocStep F step left = some nextLeft)
    (two : allocStep F step right = some nextRight) : Agree nextLeft nextRight := by
  have equalMaps : storedRegister F step left ≠ none →
      left.memoryAssignment = right.memoryAssignment := by
    intro stores
    rcases agree.maps with same | empty
    · exact same
    · rw [own stores empty, empty]
  cases step with
  | emptyBlock =>
      cases one
      exact agree.of_commutes (fun st => some (closeBlock st)) (fun slots edges => rfl) rfl two rfl rfl
  | noInsertionPoint => cases one
  | openBlock block =>
      cases one
      exact agree.of_commutes (fun st => some (openBlock F block st)) (fun slots edges => rfl) rfl two
        rfl rfl
  | stackArg first arg =>
      by_cases silent : storedRegister F (.stackArg first arg) left = none
      · refine agree.of_commutes (analyzeStackArg F first arg)
          (fun slots edges => analyzeStackArg_withMaps slots edges F left first arg silent) one two ?_ ?_
        all_goals
          rcases analyzeStackArg_eq_some one with ⟨_, _, _, _, rfl⟩ | ⟨_, _, rfl⟩ | ⟨used, shared, _⟩
          · rfl
          · rfl
          · simp [storedRegister, used, shared] at silent
      · have used : left.MRI.useEmpty (argRegister arg) = false ∧
            defIsLocal F arg (argRegister arg) = false := by
          simpa [storedRegister] using silent
        refine agree.of_stores (analyzeStackArg F first arg)
          (fun edges => analyzeStackArg_withEdges edges left F first arg used.1 used.2)
          (equalMaps silent) one two ?_
        rcases analyzeStackArg_eq_some one with ⟨_, _, _, _, rfl⟩ | ⟨_, _, rfl⟩ |
          ⟨_, _, _, _, _, _, _, _, _, _, _, _, _, _, _, rfl⟩
        · rfl
        · rfl
        · rfl
  | beginBlock block => exact beginOfBlockUpdates_agree agree one two
  | uses ref =>
      obtain ⟨_, _, _, rfl, _⟩ := handleUses_frame one
      exact agree.of_commutes (handleUses F ref)
        (fun slots edges => handleUses_withMaps slots edges F left ref) one two rfl rfl
  | define ref =>
      by_cases silent : storedRegister F (.define ref) left = none
      · refine agree.of_commutes (handleDef F ref)
          (fun slots edges => handleDef_withMaps slots edges F left ref silent) one two ?_ ?_
        all_goals
          rcases handleDef_eq_some one with ⟨_, rfl⟩ | ⟨defReg, isDef, unused | onStack | inMemory⟩
          · rfl
          · obtain ⟨_, _, _, _, _, rfl⟩ := unused
            rfl
          · obtain ⟨_, _, _, rfl⟩ := onStack
            rfl
          · rw [storedRegister_of_shared isDef inMemory.1] at silent
            cases silent
      · rcases handleDef_eq_some one with ⟨noDef, _⟩ | ⟨defReg, isDef, unused | onStack | inMemory⟩
        · exact absurd (by simp [storedRegister, noDef]) silent
        · exact absurd (by simp [storedRegister, isDef, unused.1, unused.2.1]) silent
        · exact absurd (by simp [storedRegister, isDef, onStack.1, onStack.2.2.1]) silent
        · refine agree.of_stores (handleDef F ref)
            (fun edges => handleDef_withEdges edges left F isDef inMemory.1) (equalMaps silent) one two ?_
          obtain ⟨_, _, _, _, result⟩ := storeDef_eq ref defReg left
          rw [inMemory.2, result]
  | cleanUp ref =>
      obtain ⟨cleanedLeft, cleaning, rfl⟩ := map_eq_some_iff.mp one
      obtain ⟨cleanedRight, alsoCleaning, rfl⟩ := map_eq_some_iff.mp two
      have kept := agree.of_commutes (cleanUpDeadRegisters F ref)
        (fun slots edges => cleanUpDeadRegisters_withMaps slots edges F left ref) cleaning alsoCleaning
        (by obtain ⟨_, _, _, rfl, _⟩ := cleanUpDeadRegisters_frame cleaning; rfl)
        (by obtain ⟨_, _, _, rfl, _⟩ := cleanUpDeadRegisters_frame cleaning; rfl)
      exact kept.of_commutes (fun st => some (passInstr ref st)) (fun slots edges => rfl) rfl rfl rfl rfl
  | endBlock block =>
      obtain ⟨endedLeft, ending, rfl⟩ := map_eq_some_iff.mp one
      obtain ⟨endedRight, alsoEnding, rfl⟩ := map_eq_some_iff.mp two
      exact (endOfBlockUpdates_agree agree ending alsoEnding).of_commutes
        (fun st => some (closeBlock st)) (fun slots edges => rfl) rfl rfl rfl rfl

end Agreement

end EvmBackend.EVMStackAlloc
