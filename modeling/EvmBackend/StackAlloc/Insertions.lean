/-
What each step of the allocator can do, stated once: the code it inserts, the
entries it records and the fields it leaves alone.

The operands of an instruction are prepared by loads, copies and exchanges
ahead of it. Everything later proofs need of that phase follows from the three
kinds of insertion, not from the case analysis on operand places.
-/

import EvmBackend.StackAlloc.Steps

namespace EvmBackend.EVMStackAlloc

open List Option

/-- One insertion ahead of the current instruction: a load of an operand from
its recorded slot, a copy, or an exchange. -/
inductive Inserts (ref : InstrRef) : EVMStackAlloc → EVMStackAlloc → Prop
  | load (st : EVMStackAlloc) (reg : Register) (operand : reg ∈ ref.instr.useRegisters)
      (inMemory : (st.lookup reg).region = .NONSTACK) :
      Inserts ref st (insertLoadFromMemoryBefore reg ref (st.lookup reg).slot st)
  | dup {st next : EVMStackAlloc} (depth : Nat) (done : insertDupBefore (depth + 1) st = some next) :
      Inserts ref st next
  | swap {st next : EVMStackAlloc} (depth : Nat) (done : insertSwapBefore depth st = some next) :
      Inserts ref st next

abbrev Prepares (ref : InstrRef) : EVMStackAlloc → EVMStackAlloc → Prop :=
  Relation.ReflTransGen (Inserts ref)

variable {F : MachineFunction} {ref : InstrRef} {st next : EVMStackAlloc}

theorem Inserts.regAssignments (inserted : Inserts ref st next) :
    next.regAssignments = st.regAssignments := by
  cases inserted with
  | load => rfl
  | dup depth done =>
      obtain ⟨_, _, rfl⟩ := map_eq_some_iff.mp done
      rfl
  | swap depth done =>
      obtain ⟨_, _, rfl⟩ := map_eq_some_iff.mp done
      rfl

theorem Prepares.regAssignments (prepared : Prepares ref st next) :
    next.regAssignments = st.regAssignments := by
  induction prepared with
  | refl => rfl
  | tail _ inserted ih => exact inserted.regAssignments.trans ih

theorem Prepares.lookup (prepared : Prepares ref st next) (reg : Register) :
    next.lookup reg = st.lookup reg := by
  unfold EVMStackAlloc.lookup
  rw [prepared.regAssignments]

theorem insertSwapBefore_prepares {depth : Nat} (done : insertSwapBefore depth st = some next) :
    Prepares ref st next :=
  .single (.swap depth done)

variable {reg other : Register} {uses : List RegUseType} {block : Nat}
    {assignment : StackAssignment} {use : RegUseType}

theorem SwapRegToTop_prepares (done : SwapRegToTop reg st = some next) : Prepares ref st next := by
  obtain ⟨depth, _, done⟩ := bind_eq_some_iff.mp done
  by_cases top : depth ≠ 0
  · rw [if_pos top] at done
    exact insertSwapBefore_prepares done
  · rw [if_neg top] at done
    cases done
    exact .refl

theorem DupRegToTop_prepares (done : DupRegToTop reg st = some next) : Prepares ref st next := by
  obtain ⟨depth, _, done⟩ := bind_eq_some_iff.mp done
  exact .single (.dup depth done)

theorem insertLoad_prepares (operand : reg ∈ ref.instr.useRegisters)
    (inMemory : (st.lookup reg).region = .NONSTACK) :
    Prepares ref st (insertLoadFromMemoryBefore reg ref (st.lookup reg).slot st) :=
  .single (.load st reg operand inMemory)

theorem handleUnaryOpcode_prepares (operand : reg ∈ ref.instr.useRegisters)
    (done : handleUnaryOpcode F ref reg st = some next) : Prepares ref st next := by
  unfold handleUnaryOpcode at done
  by_cases inMemory : (st.lookup reg).region = .NONSTACK
  · simp only [inMemory, if_true] at done
    cases done
    exact insertLoad_prepares operand inMemory
  · simp only [inMemory, if_false] at done
    obtain ⟨depth, _, done⟩ := bind_eq_some_iff.mp done
    by_cases last : regIsLastUse F st.MRI ref reg
    · rw [if_pos last] at done
      by_cases top : depth ≠ 0
      · rw [if_pos top] at done
        exact insertSwapBefore_prepares done
      · rw [if_neg top] at done
        cases done
        exact .refl
    · rw [if_neg last] at done
      exact .single (.dup depth done)

private theorem prepares_bind {first second : EVMStackAlloc → Option EVMStackAlloc}
    (firstPrepares : ∀ middle, first st = some middle → Prepares ref st middle)
    (secondPrepares : ∀ middle, Prepares ref st middle → second middle = some next →
      Prepares ref middle next)
    (done : (first st).bind second = some next) : Prepares ref st next := by
  obtain ⟨middle, begun, rest⟩ := bind_eq_some_iff.mp done
  exact (firstPrepares middle begun).trans
    (secondPrepares middle (firstPrepares middle begun) rest)

theorem handleStackOperands_prepares {reg1 reg2 : Register} {lastUse1 lastUse2 : Bool}
    (done : handleStackOperands reg1 reg2 lastUse1 lastUse2 st = some next) :
    Prepares ref st next := by
  have swapTo : ∀ reg (state after : EVMStackAlloc), SwapRegToTop reg state = some after →
      Prepares ref state after := fun _ _ _ => SwapRegToTop_prepares
  have dupTo : ∀ reg (state after : EVMStackAlloc), DupRegToTop reg state = some after →
      Prepares ref state after := fun _ _ _ => DupRegToTop_prepares
  have swapAt : ∀ depth (state after : EVMStackAlloc), insertSwapBefore depth state = some after →
      Prepares ref state after := fun _ _ _ => insertSwapBefore_prepares
  obtain ⟨depth1, _, done⟩ := bind_eq_some_iff.mp done
  obtain ⟨depth2, _, done⟩ := bind_eq_some_iff.mp done
  cases lastUse1 <;> cases lastUse2 <;> simp only [bind_eq_bind] at done
  · exact prepares_bind (fun _ => dupTo _ _ _) (fun _ _ => dupTo _ _ _) done
  · exact prepares_bind (fun _ => swapTo _ _ _) (fun _ _ => dupTo _ _ _) done
  · split at done
    · exact prepares_bind (fun _ => dupTo _ _ _) (fun _ _ => swapTo _ _ _) done
    · split at done
      · exact swapTo _ _ _ done
      · exact prepares_bind (fun _ => dupTo _ _ _) (fun _ _ =>
          prepares_bind (fun _ => swapAt _ _ _) (fun _ _ => swapTo _ _ _)) done
  · split at done
    · cases done
      exact .refl
    · split at done
      · exact prepares_bind (fun _ => swapAt _ _ _) (fun _ _ =>
          prepares_bind (fun _ => swapTo _ _ _) (fun _ _ => swapTo _ _ _)) done
      · split at done
        · exact swapTo _ _ _ done
        · split at done
          · exact swapAt _ _ _ done
          · exact prepares_bind (fun _ => swapTo _ _ _) (fun _ _ =>
              prepares_bind (fun _ => swapAt _ _ _) (fun _ _ => swapTo _ _ _)) done

theorem handleBinaryOpcode_prepares {reg1 reg2 : Register}
    (operand1 : reg1 ∈ ref.instr.useRegisters) (operand2 : reg2 ∈ ref.instr.useRegisters)
    (done : handleBinaryOpcode F ref reg1 reg2 st = some next) : Prepares ref st next := by
  have load : ∀ reg (state : EVMStackAlloc), reg ∈ ref.instr.useRegisters →
      Prepares ref st state → (st.lookup reg).region = .NONSTACK →
      Prepares ref state (insertLoadFromMemoryBefore reg ref (st.lookup reg).slot state) := by
    intro reg state operand reached inMemory
    rw [← reached.lookup reg] at inMemory ⊢
    exact insertLoad_prepares operand inMemory
  unfold handleBinaryOpcode at done
  by_cases memory1 : (st.lookup reg1).region = .NONSTACK
  · by_cases memory2 : (st.lookup reg2).region = .NONSTACK
    · simp only [memory1, memory2, and_self, if_true] at done
      cases done
      have loaded := load reg2 st operand2 .refl memory2
      exact loaded.trans (load reg1 _ operand1 loaded memory1)
    · simp only [memory1, memory2, and_false, if_true, if_false, bind_eq_bind] at done
      split at done
      · obtain ⟨middle, begun, done⟩ := bind_eq_some_iff.mp done
        cases done
        have reached : Prepares ref st middle := SwapRegToTop_prepares begun
        exact reached.trans (load reg1 middle operand1 reached memory1)
      · obtain ⟨middle, begun, done⟩ := bind_eq_some_iff.mp done
        cases done
        have reached : Prepares ref st middle := DupRegToTop_prepares begun
        exact reached.trans (load reg1 middle operand1 reached memory1)
  · simp only [memory1, false_and, if_false] at done
    by_cases memory2 : (st.lookup reg2).region = .NONSTACK
    · simp only [memory2, if_true, bind_eq_bind] at done
      split at done
      · obtain ⟨middle, begun, done⟩ := bind_eq_some_iff.mp done
        have reached : Prepares ref st middle := SwapRegToTop_prepares begun
        exact (reached.trans (load reg2 middle operand2 reached memory2)).trans (SwapRegToTop_prepares done)
      · exact (load reg2 st operand2 .refl memory2).trans (DupRegToTop_prepares done)
    · simp only [memory2, if_false] at done
      exact handleStackOperands_prepares done

theorem calculateUse_eq_some (known : calculateUse F ref st reg = some use) :
    use.reg = reg ∧ use.isLastUse = regIsLastUse F st.MRI ref reg ∧
      (use.isMemUse = true ↔ (st.lookup reg).region = .NONSTACK) := by
  unfold calculateUse at known
  by_cases inMemory : (st.lookup reg).region = .NONSTACK
  · simp only [inMemory, if_true] at known
    cases known
    exact ⟨rfl, rfl, by simp [inMemory]⟩
  · simp only [inMemory, if_false] at known
    obtain ⟨depth, _, rfl⟩ := map_eq_some_iff.mp known
    exact ⟨rfl, rfl, by simp [inMemory]⟩

private theorem calculateUses_eq_some {regs : List Register}
    (known : regs.mapM (calculateUse F ref st) = some uses) :
    uses.map RegUseType.reg = regs ∧
      ∀ use ∈ uses, calculateUse F ref st use.reg = some use := by
  induction regs generalizing uses with
  | nil =>
      cases known
      exact ⟨rfl, fun _ absent => by cases absent⟩
  | cons first rest ih =>
      rw [mapM_cons] at known
      obtain ⟨use, here, known⟩ := bind_eq_some_iff.mp known
      obtain ⟨others, later, known⟩ := bind_eq_some_iff.mp known
      cases known
      obtain ⟨names, each⟩ := ih later
      obtain ⟨same, _⟩ := calculateUse_eq_some here
      refine ⟨by rw [map_cons, names, same], fun other member => ?_⟩
      rcases mem_cons.mp member with rfl | deeper
      · rwa [same]
      · exact each other deeper

theorem calculateUseRegs_eq_some (known : calculateUseRegs F ref st = some uses) :
    uses.map RegUseType.reg = ref.instr.useRegisters ∧
      ∀ use ∈ uses, calculateUse F ref st use.reg = some use :=
  calculateUses_eq_some known

theorem handleArbitraryUse_prepares (operand : use.reg ∈ ref.instr.useRegisters)
    (agrees : use.isMemUse = true → (st.lookup use.reg).region = .NONSTACK)
    (done : handleArbitraryUse ref use st = some next) : Prepares ref st next := by
  unfold handleArbitraryUse at done
  by_cases inMemory : use.isMemUse = true
  · rw [if_pos inMemory] at done
    cases done
    exact insertLoad_prepares operand (agrees inMemory)
  · rw [if_neg inMemory] at done
    obtain ⟨depth, _, done⟩ := bind_eq_some_iff.mp done
    exact .single (.dup depth done)

theorem handleArbitraryUses_prepares (operands : ∀ use ∈ uses, use.reg ∈ ref.instr.useRegisters)
    (agree : ∀ use ∈ uses, use.isMemUse = true → (st.lookup use.reg).region = .NONSTACK)
    (done : Runs.run (handleArbitraryUse ref) uses st = some next) : Prepares ref st next := by
  induction uses generalizing st with
  | nil =>
      cases done
      exact .refl
  | cons first rest ih =>
      obtain ⟨middle, begun, done⟩ := Runs.run_cons_eq_some _ done
      have reached := handleArbitraryUse_prepares (operands first mem_cons_self)
        (agree first mem_cons_self) begun
      refine reached.trans (ih (fun use member => operands use (mem_cons_of_mem first member))
        (fun use member => ?_) done)
      rw [reached.lookup use.reg]
      exact agree use (mem_cons_of_mem first member)

theorem calculateUseRegs_agree (known : calculateUseRegs F ref st = some uses) :
    ∀ use ∈ uses, use.isMemUse = true → (st.lookup use.reg).region = .NONSTACK := by
  intro use member inMemory
  have found := (calculateUseRegs_eq_some known).2 use member
  exact (calculateUse_eq_some found).2.2.mp inMemory

theorem calculateUseRegs_operands (known : calculateUseRegs F ref st = some uses) :
    ∀ use ∈ uses, use.reg ∈ ref.instr.useRegisters := by
  intro use member
  rw [← (calculateUseRegs_eq_some known).1]
  exact List.mem_map.mpr ⟨use, member, rfl⟩

theorem handleUses_eq_some (done : handleUses F ref st = some next) :
    ∃ ready, Prepares ref st ready ∧
      popUses ref.instr.useRegisters.length ready = some next := by
  obtain ⟨uses, known, done⟩ := bind_eq_some_iff.mp done
  have operands := calculateUseRegs_operands known
  rw [← (calculateUseRegs_eq_some known).1, length_map]
  match uses, known, operands, done with
  | [], _, _, done => exact ⟨st, .refl, done⟩
  | [_], _, operands, done =>
      obtain ⟨ready, begun, popped⟩ := bind_eq_some_iff.mp done
      exact ⟨ready, handleUnaryOpcode_prepares (operands _ (by simp)) begun, popped⟩
  | [_, _], _, operands, done =>
      obtain ⟨ready, begun, popped⟩ := bind_eq_some_iff.mp done
      exact ⟨ready, handleBinaryOpcode_prepares (operands _ (by simp)) (operands _ (by simp)) begun,
        popped⟩
  | first :: second :: third :: rest, known, operands, done =>
      obtain ⟨ready, begun, popped⟩ := bind_eq_some_iff.mp done
      refine ⟨ready, handleArbitraryUses_prepares (fun use member => ?_) (fun use member => ?_) begun,
        popped⟩
      · exact operands use (mem_reverse.mp member)
      · exact calculateUseRegs_agree known use (mem_reverse.mp member)

/-! ### What the steps leave alone -/

/-- Code that prepares operands: only loads access a local slot, and only that
of a register in memory. -/
def IsOperandCode (st : EVMStackAlloc) : OutInstr → Prop
  | .pGETLOCAL_r reg slot => st.lookup reg = ⟨.NONSTACK, slot⟩
  | .DUP_r _ => True
  | .SWAP_r _ => True
  | _ => False

theorem Prepares.frame (prepared : Prepares ref st next) :
    ∃ inserted defs stack,
      next = { st with
        before := st.before ++ inserted
        MRI := { st.MRI with defs := st.MRI.defs ++ defs }
        stack := stack } ∧
      ∀ out ∈ inserted, IsOperandCode st out := by
  induction prepared with
  | refl => exact ⟨[], [], st.stack, by simp, fun _ absent => by cases absent⟩
  | tail reached step ih =>
      obtain ⟨inserted, defs, stack, rfl, operands⟩ := ih
      cases step with
      | load reg operand inMemory =>
          refine ⟨inserted ++ [.pGETLOCAL_r reg (st.lookup reg).slot],
            defs ++ [(reg, ref.slotBefore.getRegSlot)], reg :: stack, ?_, ?_⟩
          · simp [insertLoadFromMemoryBefore, EVMStackAlloc.lookup]
          · intro out member
            rcases mem_append.mp member with earlier | added
            · exact operands out earlier
            · cases mem_singleton.mp added
              change st.lookup reg = ⟨.NONSTACK, (st.lookup reg).slot⟩
              have region : (st.lookup reg).region = .NONSTACK := inMemory
              rw [← region]
      | dup depth done =>
          obtain ⟨copied, _, rfl⟩ := map_eq_some_iff.mp done
          refine ⟨inserted ++ [.DUP_r (depth + 1)], defs, copied, by simp, ?_⟩
          intro out member
          rcases mem_append.mp member with earlier | added
          · exact operands out earlier
          · cases mem_singleton.mp added
            trivial
      | swap depth done =>
          obtain ⟨swapped, _, rfl⟩ := map_eq_some_iff.mp done
          refine ⟨inserted ++ [.SWAP_r depth], defs, swapped, by simp, ?_⟩
          intro out member
          rcases mem_append.mp member with earlier | added
          · exact operands out earlier
          · cases mem_singleton.mp added
            trivial

theorem pop_eq_some (done : st.pop = some next) :
    ∃ top rest, st.stack = top :: rest ∧ next = { st with stack := rest } := by
  unfold pop at done
  cases entries : st.stack with
  | nil => simp [entries] at done
  | cons top rest =>
      simp only [entries] at done
      cases done
      exact ⟨top, rest, rfl, rfl⟩

theorem popUses_eq_some {count : Nat} (done : popUses count st = some next) :
    count ≤ st.stack.length ∧ next = { st with stack := st.stack.drop count } := by
  induction count generalizing st with
  | zero =>
      cases done
      exact ⟨Nat.zero_le _, rfl⟩
  | succ count ih =>
      obtain ⟨middle, popped, later⟩ := bind_eq_some_iff.mp done
      obtain ⟨top, rest, entries, rfl⟩ := pop_eq_some popped
      obtain ⟨enough, rfl⟩ := ih later
      refine ⟨?_, ?_⟩
      · rw [entries, length_cons]
        exact Nat.succ_le_succ enough
      · simp only [entries, drop_succ_cons]

theorem handleUses_frame (done : handleUses F ref st = some next) :
    ∃ inserted defs stack,
      next = { st with
        before := st.before ++ inserted
        MRI := { st.MRI with defs := st.MRI.defs ++ defs }
        stack := stack } ∧
      ∀ out ∈ inserted, IsOperandCode st out := by
  obtain ⟨ready, prepared, popped⟩ := handleUses_eq_some done
  obtain ⟨inserted, defs, stack, rfl, operands⟩ := prepared.frame
  obtain ⟨_, rfl⟩ := popUses_eq_some popped
  exact ⟨inserted, defs, _, rfl, operands⟩

def recorded (reg : Register) (assignment : StackAssignment)
    (entries : Register → Option StackAssignment) : Register → Option StackAssignment :=
  match entries reg with
  | some _ => entries
  | none => Function.update entries reg (some assignment)

theorem insertAssignment_eq (reg : Register) (assignment : StackAssignment) (st : EVMStackAlloc) :
    insertAssignment reg assignment st =
      { st with regAssignments := recorded reg assignment st.regAssignments } := by
  unfold insertAssignment recorded
  cases st.regAssignments reg <;> rfl

theorem recorded_cases (reg : Register) (assignment : StackAssignment)
    (entries : Register → Option StackAssignment) (other : Register) :
    recorded reg assignment entries other = entries other ∨
      (other = reg ∧ entries other = none ∧
        recorded reg assignment entries other = some assignment) := by
  unfold recorded
  cases known : entries reg with
  | some old => exact Or.inl rfl
  | none =>
      by_cases same : other = reg
      · subst other
        exact Or.inr ⟨rfl, known, Function.update_self ..⟩
      · exact Or.inl (Function.update_of_ne same ..)

theorem recorded_isSome (reg : Register) (assignment : StackAssignment)
    (entries : Register → Option StackAssignment) :
    ∃ held, recorded reg assignment entries reg = some held := by
  unfold recorded
  cases known : entries reg with
  | some old => exact ⟨old, known⟩
  | none => exact ⟨assignment, Function.update_self ..⟩

theorem recorded_of_some {held : StackAssignment} {entries : Register → Option StackAssignment}
    (known : entries other = some held) : recorded reg assignment entries other = some held := by
  rcases recorded_cases reg assignment entries other with same | ⟨_, missing, _⟩
  · rw [same, known]
  · rw [missing] at known
    cases known

section

variable (entry : next.regAssignments = recorded reg assignment st.regAssignments)

include entry

/-- Lookups after an assignment has been recorded: new for a register without
an entry, as before for every other. -/
theorem lookup_of_recorded_self
    (missing : st.regAssignments reg = none) : next.lookup reg = assignment := by
  unfold EVMStackAlloc.lookup
  rw [entry]
  unfold recorded
  rw [missing]
  simp

theorem lookup_of_recorded_some
    (known : (st.regAssignments other).isSome = true) : next.lookup other = st.lookup other := by
  obtain ⟨held, present⟩ := isSome_iff_exists.mp known
  unfold EVMStackAlloc.lookup
  rw [entry, recorded_of_some present, present]

theorem lookup_of_recorded_ne
    (apart : other ≠ reg) : next.lookup other = st.lookup other := by
  unfold EVMStackAlloc.lookup
  rw [entry]
  rcases recorded_cases reg assignment st.regAssignments other with same | ⟨impossible, _⟩
  · rw [same]
  · exact absurd impossible apart

end

/-- A register placed in memory: the slot handed out is recorded unless there
was an entry, and the store names it in any case. -/
theorem storeDef_eq (ref : InstrRef) (defReg : Register) (st : EVMStackAlloc) :
    ∃ slot taken size,
      SlotHanded defReg slot st.memoryAssignment taken st.memoryFrameSize size ∧
      storeDef ref defReg st = { st with
        regAssignments := recorded defReg ⟨.NONSTACK, slot⟩ st.regAssignments
        memoryAssignment := taken
        memoryFrameSize := size
        MRI := { st.MRI with uses := st.MRI.uses ++ [(defReg, ref.slotAfter.getRegSlot)] }
        after := .pPUTLOCAL_r defReg slot :: st.after } := by
  obtain ⟨slot, taken, size, placed, result⟩ := allocateMemorySlot_taken defReg st
  refine ⟨slot, taken, size, placed, ?_⟩
  simp only [storeDef, result, insertAssignment_eq, insertStoreToMemoryAfter]

theorem handleDef_eq_some (done : handleDef F ref st = some next) :
    (ref.instr.defRegister = none ∧ next = st) ∨
    ∃ defReg, ref.instr.defRegister = some defReg ∧
      ((st.MRI.hasOneDef defReg = true ∧ st.MRI.useEmpty defReg = true ∧
          ∃ top rest, st.stack = top :: rest ∧
            next = { st with
              regAssignments := recorded defReg ⟨.NO_ALLOCATION, 0⟩ st.regAssignments
              after := .POP_r :: st.after
              stack := rest }) ∨
        (st.MRI.hasOneDef defReg = true ∧ st.MRI.useEmpty defReg = false ∧
          defIsLocal F ref defReg = true ∧
          next = { st with
            regAssignments := recorded defReg ⟨.L_STACK, 0⟩ st.regAssignments
            stack := defReg :: st.stack }) ∨
        ((st.MRI.hasOneDef defReg = true → st.MRI.useEmpty defReg = false ∧
            defIsLocal F ref defReg = false) ∧
          next = storeDef ref defReg st)) := by
  unfold handleDef at done
  cases defined : ref.instr.defRegister with
  | none =>
      simp only [defined] at done
      cases done
      exact Or.inl ⟨rfl, rfl⟩
  | some defReg =>
      refine Or.inr ⟨defReg, rfl, ?_⟩
      simp only [defined] at done
      by_cases oneDef : st.MRI.hasOneDef defReg = true
      · rw [if_pos oneDef] at done
        by_cases unused : st.MRI.useEmpty defReg = true
        · rw [if_pos unused] at done
          rw [insertAssignment_eq] at done
          obtain ⟨top, rest, entries, rfl⟩ := pop_eq_some done
          exact Or.inl ⟨oneDef, unused, top, rest, entries, rfl⟩
        · have used := Bool.eq_false_iff.mpr unused
          rw [if_neg unused] at done
          by_cases localDef : defIsLocal F ref defReg = true
          · rw [if_pos localDef] at done
            rw [insertAssignment_eq] at done
            cases done
            exact Or.inr (Or.inl ⟨oneDef, used, localDef, rfl⟩)
          · rw [if_neg localDef] at done
            cases done
            exact Or.inr (Or.inr ⟨fun _ => ⟨used, Bool.eq_false_iff.mpr localDef⟩, rfl⟩)
      · rw [if_neg oneDef] at done
        cases done
        exact Or.inr (Or.inr ⟨fun yes => absurd yes oneDef, rfl⟩)

theorem analyzeStackArg_eq_some {first arg : InstrRef}
    (done : analyzeStackArg F first arg st = some next) :
    (st.MRI.useEmpty (argRegister arg) = true ∧ ∃ top rest, st.stack = top :: rest ∧
      next = { st with
        regAssignments := recorded (argRegister arg) ⟨.NO_ALLOCATION, 0⟩ st.regAssignments
        before := st.before.insertIdx arg.index .POP_r
        stack := rest }) ∨
    (st.MRI.useEmpty (argRegister arg) = false ∧ defIsLocal F arg (argRegister arg) = true ∧
      next = { st with
        regAssignments := recorded (argRegister arg) ⟨.L_STACK, 0⟩ st.regAssignments }) ∨
    (st.MRI.useEmpty (argRegister arg) = false ∧ defIsLocal F arg (argRegister arg) = false ∧
      ∃ slot taken size exchange depth swapped top rest,
        SlotHanded (argRegister arg) slot st.memoryAssignment taken st.memoryFrameSize size ∧
        Stacks.depthOf (argRegister arg) st.stack = some depth ∧
        Stacks.swapTop depth st.stack = some swapped ∧ swapped = top :: rest ∧
        (∀ out ∈ exchange, out = .SWAP_r depth) ∧
        next = { st with
          regAssignments := recorded (argRegister arg) ⟨.NONSTACK, slot⟩ st.regAssignments
          memoryAssignment := taken
          memoryFrameSize := size
          MRI := { st.MRI with
            uses := st.MRI.uses ++ [(argRegister arg, first.slotBefore.getRegSlot)] }
          before := st.before ++ exchange ++ [.pPUTLOCAL_r (argRegister arg) slot]
          stack := rest }) := by
  unfold analyzeStackArg at done
  simp only at done
  by_cases unused : st.MRI.useEmpty (argRegister arg) = true
  · rw [if_pos unused, insertAssignment_eq] at done
    obtain ⟨top, rest, entries, rfl⟩ := pop_eq_some done
    exact Or.inl ⟨unused, top, rest, entries, rfl⟩
  · rw [if_neg unused] at done
    have used := Bool.eq_false_iff.mpr unused
    refine Or.inr ?_
    by_cases localArg : defIsLocal F arg (argRegister arg) = true
    · rw [if_pos localArg, insertAssignment_eq] at done
      cases done
      exact Or.inl ⟨used, localArg, rfl⟩
    · rw [if_neg localArg] at done
      refine Or.inr ⟨used, Bool.eq_false_iff.mpr localArg, ?_⟩
      obtain ⟨slot, taken, size, placed, result⟩ :=
        allocateMemorySlot_taken (argRegister arg) st
      simp only [result, insertAssignment_eq] at done
      obtain ⟨depth, found, done⟩ := bind_eq_some_iff.mp done
      by_cases top : depth ≠ 0
      · rw [if_pos top] at done
        obtain ⟨middle, exchanged, done⟩ := bind_eq_some_iff.mp done
        obtain ⟨swapped, swapping, rfl⟩ := map_eq_some_iff.mp exchanged
        obtain ⟨head, rest, entries, rfl⟩ := pop_eq_some done
        exact ⟨slot, taken, size, [.SWAP_r depth], depth, swapped, head, rest, placed, found,
          swapping, entries, fun _ member => mem_singleton.mp member, rfl⟩
      · rw [if_neg top] at done
        obtain ⟨head, rest, entries, rfl⟩ := pop_eq_some done
        have zero : depth = 0 := by omega
        subst depth
        exact ⟨slot, taken, size, [], 0, st.stack, head, rest, placed, found, rfl, entries,
          (fun _ absent => by cases absent), by simp [insertStoreToMemoryBefore]⟩

/-- One insertion after the current instruction: an exchange or a pop, ahead of
or behind what the definition inserted there. -/
inductive Cleans : EVMStackAlloc → EVMStackAlloc → Prop
  | swapAfter {st next : EVMStackAlloc} (depth : Nat) (done : insertSwapAfter depth st = some next) :
      Cleans st next
  | swapPoint {st next : EVMStackAlloc} (depth : Nat) (done : insertSwapPoint depth st = some next) :
      Cleans st next
  | popAfter {st next : EVMStackAlloc} (done : insertPopAfter st = some next) : Cleans st next
  | popPoint {st next : EVMStackAlloc} (done : insertPopPoint st = some next) : Cleans st next

theorem cleanUpUse_cleans {atEnd : Bool} (done : cleanUpUse atEnd use st = some next) :
    Relation.ReflTransGen Cleans st next := by
  have popped : ∀ state : EVMStackAlloc,
      (if atEnd = true then insertPopAfter state else insertPopPoint state) = some next →
        Cleans state next := by
    intro state done
    split at done
    · exact .popAfter done
    · exact .popPoint done
  unfold cleanUpUse at done
  split at done
  · obtain ⟨depth, _, done⟩ := bind_eq_some_iff.mp done
    simp only at done
    by_cases top : depth ≠ 0
    · rw [if_pos top] at done
      by_cases last : atEnd = true
      · rw [if_pos last] at done
        obtain ⟨middle, exchanged, done⟩ := bind_eq_some_iff.mp done
        exact (Relation.ReflTransGen.single (.swapAfter depth exchanged)).tail (popped middle done)
      · rw [if_neg last] at done
        obtain ⟨middle, exchanged, done⟩ := bind_eq_some_iff.mp done
        exact (Relation.ReflTransGen.single (.swapPoint depth exchanged)).tail (popped middle done)
    · rw [if_neg top] at done
      exact .single (popped st done)
  · cases done
    exact .refl

theorem cleanUpDeadRegisters_cleans (done : cleanUpDeadRegisters F ref st = some next) :
    Relation.ReflTransGen Cleans st next := by
  unfold cleanUpDeadRegisters at done
  split at done
  · cases done
    exact .refl
  · obtain ⟨uses, _, done⟩ := bind_eq_some_iff.mp done
    exact Runs.run_keeps (Relation.ReflTransGen Cleans st)
      (fun use state after reached stepped => reached.trans (cleanUpUse_cleans stepped)) .refl done

theorem Cleans.frame (cleaned : Cleans st next) :
    ∃ between after stack,
      next = { st with between := between, after := after, stack := stack } ∧
      ∀ reg slot, Names (between ++ after) reg slot ↔ Names (st.between ++ st.after) reg slot := by
  cases cleaned with
  | swapAfter depth done =>
      obtain ⟨swapped, _, rfl⟩ := map_eq_some_iff.mp done
      exact ⟨st.between, _, swapped, rfl, by simp [accessOf]⟩
  | swapPoint depth done =>
      obtain ⟨swapped, _, rfl⟩ := map_eq_some_iff.mp done
      exact ⟨_, st.after, swapped, rfl, by simp [accessOf]⟩
  | popAfter done =>
      obtain ⟨_, rest, _, rfl⟩ := pop_eq_some done
      exact ⟨st.between, _, rest, rfl, by simp [accessOf]⟩
  | popPoint done =>
      obtain ⟨_, rest, _, rfl⟩ := pop_eq_some done
      exact ⟨_, st.after, rest, rfl, by simp [accessOf]⟩

theorem cleanUpDeadRegisters_frame (done : cleanUpDeadRegisters F ref st = some next) :
    ∃ between after stack,
      next = { st with between := between, after := after, stack := stack } ∧
      ∀ reg slot, Names (between ++ after) reg slot ↔ Names (st.between ++ st.after) reg slot := by
  have cleaned := cleanUpDeadRegisters_cleans done
  clear done
  induction cleaned with
  | refl => exact ⟨st.between, st.after, st.stack, rfl, fun _ _ => Iff.rfl⟩
  | tail _ step ih =>
      obtain ⟨between, after, stack, rfl, same⟩ := ih
      obtain ⟨between', after', stack', rfl, kept⟩ := step.frame
      exact ⟨between', after', stack', rfl, fun reg slot => (kept reg slot).trans (same reg slot)⟩

theorem popIfDead_frame {xreg : Register} (done : popIfDead F block xreg st = some next) :
    ∃ inserted stack, next = { st with before := st.before ++ inserted, stack := stack } ∧
      ∀ out ∈ inserted, accessOf out = none := by
  unfold popIfDead at done
  split at done
  · obtain ⟨middle, exchanged, done⟩ := bind_eq_some_iff.mp done
    obtain ⟨depth, _, exchanged⟩ := bind_eq_some_iff.mp exchanged
    by_cases top : depth ≠ 0
    · rw [if_pos top] at exchanged
      obtain ⟨swapped, _, rfl⟩ := map_eq_some_iff.mp exchanged
      obtain ⟨_, rest, _, rfl⟩ := pop_eq_some done
      exact ⟨[.SWAP_r depth, .POP_r], rest, by simp, by simp [accessOf]⟩
    · rw [if_neg top] at exchanged
      cases exchanged
      obtain ⟨_, rest, _, rfl⟩ := pop_eq_some done
      exact ⟨[.POP_r], rest, rfl, by simp [accessOf]⟩
  · cases done
    exact ⟨[], st.stack, by simp, fun _ absent => by cases absent⟩

theorem popDead_frame {xStack : List Register}
    (done : Runs.run (popIfDead F block) xStack st = some next) :
    ∃ inserted stack, next = { st with before := st.before ++ inserted, stack := stack } ∧
      ∀ out ∈ inserted, accessOf out = none := by
  induction xStack generalizing st with
  | nil =>
      cases done
      exact ⟨[], next.stack, by simp, fun _ absent => by cases absent⟩
  | cons first rest ih =>
      obtain ⟨middle, stepped, remaining⟩ := Runs.run_cons_eq_some _ done
      obtain ⟨inserted, stack, rfl, silent⟩ := popIfDead_frame stepped
      obtain ⟨added, final, rfl, alsoSilent⟩ := ih remaining
      refine ⟨inserted ++ added, final, by simp, fun out member => ?_⟩
      rcases mem_append.mp member with earlier | later
      · exact silent out earlier
      · exact alsoSilent out later

theorem takenOver_eq_some {xStack memslots : List Register}
    (handed : takenOver F block st = some (xStack, memslots)) :
    memslots = [] ∨ ∃ index, st.edgeset2assignment index = some (xStack, memslots) := by
  unfold takenOver at handed
  split at handed
  · cases handed
  · obtain ⟨index, _, same⟩ := map_eq_some_iff.mp handed
    cases entry : st.edgeset2assignment index with
    | none =>
        rw [entry] at same
        cases same
        exact Or.inl rfl
    | some held =>
        rw [entry] at same
        exact Or.inr ⟨index, by rw [entry, ← same]; rfl⟩

/-- The start of a block with predecessors: the map is the one taken over,
without the occupants judged dead. -/
theorem beginOfBlockUpdates_eq_some (done : beginOfBlockUpdates F block st = some next) :
    (F.predecessors block = [] ∧ next = st) ∨
    ∃ xStack memslots slots inserted stack, F.predecessors block ≠ [] ∧
      takenOver F block st = some (xStack, memslots) ∧
      (∀ (place : Nat) (reg : Register), reg ≠ 0 → (slots[place]? = some reg ↔
        memslots[place]? = some reg ∧ regIsDeadAtBeginningOfMBB F st.MRI reg block = false)) ∧
      (∀ out ∈ inserted, accessOf out = none) ∧
      next = { st with
        memoryAssignment := slots, before := inserted ++ st.before, stack := stack } := by
  unfold beginOfBlockUpdates at done
  by_cases noPred : F.predecessors block = []
  · rw [if_pos noPred] at done
    cases done
    exact Or.inl ⟨noPred, rfl⟩
  · rw [if_neg noPred] at done
    obtain ⟨⟨xStack, memslots⟩, handed, done⟩ := bind_eq_some_iff.mp done
    obtain ⟨popped, popping, done⟩ := bind_eq_some_iff.mp done
    obtain ⟨inserted, stack, rfl, silent⟩ := popDead_frame popping
    obtain ⟨slots, freeing, done⟩ := bind_eq_some_iff.mp done
    cases done
    obtain ⟨freed, known, exactly⟩ := freeDeadSlots_spec
      (fun reg => regIsDeadAtBeginningOfMBB F st.MRI reg block) memslots
    have same : freed = slots := Option.some.inj (known.symm.trans freeing)
    subst freed
    exact Or.inr ⟨xStack, memslots, slots, inserted, stack, noPred, handed, exactly, silent, by simp⟩

theorem endOfBlockUpdates_eq_some (done : endOfBlockUpdates F block st = some next) :
    (F.successors block = [] ∧ next = st) ∨
    ∃ later rest edgeSetIndex, F.successors block = later :: rest ∧
      st.edgeSets.getEdgeSetIndex (realEdge block later) = some edgeSetIndex ∧
      next = { st with
        edgeset2assignment := Function.update st.edgeset2assignment edgeSetIndex
          (some (st.stack, st.memoryAssignment)) } := by
  unfold endOfBlockUpdates at done
  cases edges : F.successors block with
  | nil =>
      simp only [edges] at done
      cases done
      exact Or.inl ⟨rfl, rfl⟩
  | cons later rest =>
      simp only [edges] at done
      obtain ⟨edgeSetIndex, known, done⟩ := bind_eq_some_iff.mp done
      cases done
      exact Or.inr ⟨later, rest, edgeSetIndex, rfl, known, rfl⟩

end EvmBackend.EVMStackAlloc
