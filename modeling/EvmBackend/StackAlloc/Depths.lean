/-
How deep the inserted DUP_r and SWAP_r reach, and what becomes of them when
they are converted to opcodes of the machine.

The machine reaches the 16 entries below the top for an exchange and the 16
topmost entries for a copy. The converter takes 16 in place of a larger index
of an exchange; there is no copy for a larger index. The allocator never limits
the height of its symbolic stack, so what it needs is found here: the height
before a step and the operands of the step bound the indexes the step inserts.
-/

import EvmBackend.InstrInfo
import EvmBackend.StackAlloc.Insertions

namespace EvmBackend

open List Option

/-! ### Conversion -/

def getSWAPOpcode (idx : Nat) : Option StackOpcode :=
  if listed : 1 ≤ idx ∧ idx ≤ 16 then some (.SWAP ⟨idx - 1, by omega⟩) else none

def getDUPOpcode (idx : Nat) : Option StackOpcode :=
  if listed : 1 ≤ idx ∧ idx ≤ 16 then some (.DUP ⟨idx - 1, by omega⟩) else none

def convertSWAP (idx : Nat) : Option StackOpcode :=
  let swapIdx := if idx > 16 then 16 else idx
  getSWAPOpcode swapIdx

def convertDUP (idx : Nat) : Option StackOpcode := getDUPOpcode idx

/-- Of the code the allocator inserts, the copies and exchanges. -/
def convertShuffle : OutInstr → Option StackOpcode
  | .SWAP_r index => convertSWAP index
  | .DUP_r index => convertDUP index
  | _ => none

def StackOpcode.shuffle? : StackOpcode → Option EVM.Inst
  | .DUP index => some (.DUP (index + 1))
  | .SWAP index => some (.SWAP (index + 1))
  | _ => none

def shuffleIndex : OutInstr → Option Nat
  | .DUP_r index => some index
  | .SWAP_r index => some index
  | _ => none

/-- What the allocator does to its symbolic stack when it inserts the code. -/
def assumedEffect {α : Type} : OutInstr → List α → Option (List α)
  | .DUP_r index, stack => Stacks.dupTop (index - 1) stack
  | .SWAP_r index, stack => Stacks.swapTop index stack
  | _, _ => none

/-- Conversion gives an opcode that does to every stack of the machine what the
allocator assumed. -/
def KeepsEffect (out : OutInstr) : Prop :=
  ∃ opcode inst, convertShuffle out = some opcode ∧ opcode.shuffle? = some inst ∧
    ∀ pc stack memory,
      EVM.effect inst pc stack memory = (assumedEffect out stack).map (·, memory)

variable {depth index block : Nat} {reg : Register} {out : OutInstr} {last : EVMStackAlloc}

theorem keepsEffect_DUP (positive : 1 ≤ index) : KeepsEffect (.DUP_r index) ↔ index ≤ 16 := by
  constructor
  · rintro ⟨opcode, inst, converted, _⟩
    by_contra large
    simp [convertShuffle, convertDUP, getDUPOpcode, large] at converted
  · intro small
    refine ⟨.DUP ⟨index - 1, by omega⟩, .DUP index, ?_, ?_, fun _ _ _ => rfl⟩
    · exact dif_pos ⟨positive, small⟩
    · change some (EVM.Inst.DUP (index - 1 + 1)) = some (.DUP index)
      rw [Nat.sub_add_cancel positive]

/-- A stack on which exchanges with different depths differ. -/
private def markedStack (index : Nat) : List EVM.Word := List.replicate index 0 ++ [1]

private theorem markedStack_differs (large : 16 < index) :
    Stacks.swapTop 16 (markedStack index) ≠ Stacks.swapTop index (markedStack index) := by
  intro same
  have within : index < (markedStack index).length := by simp [markedStack]
  obtain ⟨swapped, far⟩ := Stacks.swapTop_isSome within
  have top := (Stacks.swapTop_getElem? (same.trans far) 0).symm.trans
    (Stacks.swapTop_getElem? far 0)
  simp [markedStack, getElem?_append, large] at top

theorem keepsEffect_SWAP (positive : 1 ≤ index) : KeepsEffect (.SWAP_r index) ↔ index ≤ 16 := by
  constructor
  · rintro ⟨opcode, inst, converted, named, same⟩
    by_contra large
    have clamped : opcode = .SWAP 15 := by
      simp [convertShuffle, convertSWAP, getSWAPOpcode, Nat.lt_of_not_le large] at converted
      exact converted.symm
    subst clamped
    cases named
    have equal := same 0 (markedStack index) (fun _ => 0)
    exact markedStack_differs (Nat.lt_of_not_le large)
      (map_injective (Prod.mk_left_injective _) equal)
  · intro small
    refine ⟨.SWAP ⟨index - 1, by omega⟩, .SWAP index, ?_, ?_, fun _ _ _ => rfl⟩
    · have kept : ¬ index > 16 := by omega
      change getSWAPOpcode (if index > 16 then 16 else index) = _
      rw [if_neg kept]
      exact dif_pos ⟨positive, small⟩
    · change some (EVM.Inst.SWAP (index - 1 + 1)) = some (.SWAP index)
      rw [Nat.sub_add_cancel positive]

theorem keepsEffect_iff (shuffles : shuffleIndex out = some index) (positive : 1 ≤ index) :
    KeepsEffect out ↔ index ≤ 16 := by
  cases out with
  | DUP_r _ =>
      cases shuffles
      exact keepsEffect_DUP positive
  | SWAP_r _ =>
      cases shuffles
      exact keepsEffect_SWAP positive
  | _ => cases shuffles

namespace EVMStackAlloc

/-! ### What one insertion adds -/

/-- The code adds copies and exchanges with indexes from 1 up to below the bound
only. -/
def AddsBelow (bound : Nat) (st next : EVMStackAlloc) : Prop :=
  ∀ out ∈ next.code, out ∈ st.code ∨
    ∀ index, shuffleIndex out = some index → 1 ≤ index ∧ index < bound

structure Grows (count : Nat) (st next : EVMStackAlloc) : Prop where
  height : next.stack.length ≤ st.stack.length + count
  code : AddsBelow (st.stack.length + count) st next

variable {F : MachineFunction} {ref : InstrRef} {st middle next : EVMStackAlloc}

theorem AddsBelow.trans {bound : Nat} (first : AddsBelow bound st middle)
    (second : AddsBelow bound middle next) : AddsBelow bound st next := by
  intro out member
  rcases second out member with old | new
  · exact first out old
  · exact Or.inr new

theorem AddsBelow.mono {small large : Nat} (adds : AddsBelow small st next)
    (le : small ≤ large) : AddsBelow large st next := by
  intro out member
  rcases adds out member with old | new
  · exact Or.inl old
  · refine Or.inr fun index shuffles => ?_
    obtain ⟨positive, below⟩ := new index shuffles
    exact ⟨positive, by omega⟩

theorem addsBelow_of_code {bound : Nat} (same : ∀ out ∈ next.code, out ∈ st.code ∨
    shuffleIndex out = none) : AddsBelow bound st next := by
  intro out member
  rcases same out member with old | silent
  · exact Or.inl old
  · refine Or.inr fun index shuffles => ?_
    rw [silent] at shuffles
    cases shuffles

theorem Grows.refl (st : EVMStackAlloc) : Grows 0 st st :=
  ⟨Nat.le_refl _, fun _ member => Or.inl member⟩

theorem Grows.trans {left right : Nat} (first : Grows left st middle)
    (second : Grows right middle next) : Grows (left + right) st next := by
  have below := first.height
  have above := second.height
  exact ⟨by omega, (first.code.mono (by omega)).trans (second.code.mono (by omega))⟩

theorem Grows.mono {small large : Nat} (grows : Grows small st next) (le : small ≤ large) :
    Grows large st next := by
  have := grows.height
  exact ⟨by omega, grows.code.mono (by omega)⟩

private theorem grows_swap {stack : List Register} (deep : depth ≠ 0)
    (exchanged : Stacks.swapTop depth st.stack = some stack) (height : next.stack = stack)
    (code : ∀ out ∈ next.code, out ∈ st.code ∨ out = .SWAP_r depth) : Grows 0 st next := by
  have size := (Stacks.swapTop_perm exchanged).length_eq
  have reached := Stacks.swapTop_lt deep exchanged
  refine ⟨by rw [height]; omega, fun out member => ?_⟩
  rcases code out member with old | rfl
  · exact Or.inl old
  · refine Or.inr fun index shuffles => ?_
    cases shuffles
    omega

theorem insertSwapBefore_grows (deep : depth ≠ 0) (done : insertSwapBefore depth st = some next) :
    Grows 0 st next := by
  obtain ⟨stack, exchanged, rfl⟩ := map_eq_some_iff.mp done
  refine grows_swap deep exchanged rfl fun out member => ?_
  simp only [EVMStackAlloc.code, mem_append, mem_singleton] at member ⊢
  tauto

theorem insertSwapAfter_grows (deep : depth ≠ 0) (done : insertSwapAfter depth st = some next) :
    Grows 0 st next := by
  obtain ⟨stack, exchanged, rfl⟩ := map_eq_some_iff.mp done
  refine grows_swap deep exchanged rfl fun out member => ?_
  simp only [EVMStackAlloc.code, mem_append, mem_cons] at member ⊢
  tauto

theorem insertSwapPoint_grows (deep : depth ≠ 0) (done : insertSwapPoint depth st = some next) :
    Grows 0 st next := by
  obtain ⟨stack, exchanged, rfl⟩ := map_eq_some_iff.mp done
  refine grows_swap deep exchanged rfl fun out member => ?_
  simp only [EVMStackAlloc.code, mem_append, mem_singleton] at member ⊢
  tauto

theorem insertDupBefore_grows (done : insertDupBefore (depth + 1) st = some next) :
    Grows 1 st next := by
  obtain ⟨stack, copied, rfl⟩ := map_eq_some_iff.mp done
  obtain ⟨entry, found, rfl⟩ := Stacks.dupTop_eq_some copied
  have within : depth < st.stack.length := (List.getElem?_eq_some_iff.mp found).1
  refine ⟨Nat.le_of_eq length_cons, fun out member => ?_⟩
  simp only [EVMStackAlloc.code, mem_append, mem_singleton] at member ⊢
  by_cases new : out = .DUP_r (depth + 1)
  · refine Or.inr fun index shuffles => ?_
    subst new
    cases shuffles
    omega
  · exact Or.inl (by tauto)

theorem insertLoad_grows (reg : Register) (slot : Nat) :
    Grows 1 st (insertLoadFromMemoryBefore reg ref slot st) := by
  refine ⟨Nat.le_of_eq length_cons, addsBelow_of_code fun out member => ?_⟩
  simp only [EVMStackAlloc.code, insertLoadFromMemoryBefore, mem_append,
    mem_singleton] at member ⊢
  by_cases new : out = .pGETLOCAL_r reg slot
  · exact Or.inr (by rw [new]; rfl)
  · exact Or.inl (by tauto)

theorem SwapRegToTop_grows (done : SwapRegToTop reg st = some next) : Grows 0 st next := by
  obtain ⟨depth, _, done⟩ := bind_eq_some_iff.mp done
  by_cases deep : depth ≠ 0
  · rw [if_pos deep] at done
    exact insertSwapBefore_grows deep done
  · rw [if_neg deep] at done
    cases done
    exact Grows.refl st

theorem DupRegToTop_grows (done : DupRegToTop reg st = some next) : Grows 1 st next := by
  obtain ⟨depth, _, done⟩ := bind_eq_some_iff.mp done
  exact insertDupBefore_grows done

/-! ### Operands -/

theorem handleUnaryOpcode_grows (done : handleUnaryOpcode F ref reg st = some next) : Grows 1 st next := by
  unfold handleUnaryOpcode at done
  by_cases inMemory : (st.lookup reg).region = .NONSTACK
  · simp only [inMemory, if_true] at done
    cases done
    exact insertLoad_grows reg _
  · simp only [inMemory, if_false] at done
    obtain ⟨depth, _, done⟩ := bind_eq_some_iff.mp done
    split at done
    · by_cases deep : depth ≠ 0
      · rw [if_pos deep] at done
        exact (insertSwapBefore_grows deep done).mono (by omega)
      · rw [if_neg deep] at done
        cases done
        exact (Grows.refl st).mono (by omega)
    · exact insertDupBefore_grows done

private theorem grows_bind {left right : Nat} {first second : EVMStackAlloc → Option EVMStackAlloc}
    (done : (first st).bind second = some next)
    (begun : ∀ middle, first st = some middle → Grows left st middle)
    (ended : ∀ middle, second middle = some next → Grows right middle next) :
    Grows (left + right) st next := by
  obtain ⟨middle, started, finished⟩ := bind_eq_some_iff.mp done
  exact (begun middle started).trans (ended middle finished)

theorem handleStackOperands_grows {reg1 reg2 : Register} {lastUse1 lastUse2 : Bool}
    (done : handleStackOperands reg1 reg2 lastUse1 lastUse2 st = some next) :
    Grows 2 st next := by
  have swapTo : ∀ {reg} {state : EVMStackAlloc}, SwapRegToTop reg state = some next →
      Grows 0 state next := SwapRegToTop_grows
  have one : ∀ {state after : EVMStackAlloc}, insertSwapBefore 1 state = some after →
      Grows 0 state after := insertSwapBefore_grows (by decide)
  -- the exchange with the next entry and the first operand end three of the expansions
  have oneThenSwap : ∀ {reg} {state : EVMStackAlloc},
      (insertSwapBefore 1 state).bind (SwapRegToTop reg) = some next → Grows 0 state next :=
    fun done => grows_bind done (fun _ => one) fun _ => swapTo
  obtain ⟨depth1, _, done⟩ := bind_eq_some_iff.mp done
  obtain ⟨depth2, _, done⟩ := bind_eq_some_iff.mp done
  cases lastUse1 <;> cases lastUse2
  case true.true =>
    dsimp only at done
    split at done
    · cases done
      exact (Grows.refl st).mono (by omega)
    · split at done
      · have both : Grows (0 + (0 + 0)) st next :=
          grows_bind done (fun _ => one) fun _ remaining =>
            grows_bind remaining (fun _ => SwapRegToTop_grows) fun _ => swapTo
        exact both.mono (by omega)
      · split at done
        · exact (swapTo done).mono (by omega)
        · split at done
          · exact (one done).mono (by omega)
          · have both : Grows (0 + 0) st next :=
              grows_bind done (fun _ => SwapRegToTop_grows) fun _ => oneThenSwap
            exact both.mono (by omega)
  case true.false =>
    dsimp only at done
    split at done
    · have both : Grows (1 + 0) st next :=
        grows_bind done (fun _ => DupRegToTop_grows) fun _ => swapTo
      exact both.mono (by omega)
    · split at done
      · exact (swapTo done).mono (by omega)
      · have both : Grows (1 + 0) st next :=
          grows_bind done (fun _ => DupRegToTop_grows) fun _ => oneThenSwap
        exact both.mono (by omega)
  case false.true =>
    have both : Grows (0 + 1) st next :=
      grows_bind done (fun _ => SwapRegToTop_grows) fun _ => DupRegToTop_grows
    exact both.mono (by omega)
  case false.false =>
    have both : Grows (1 + 1) st next :=
      grows_bind done (fun _ => DupRegToTop_grows) fun _ => DupRegToTop_grows
    exact both

theorem handleBinaryOpcode_grows {reg1 reg2 : Register}
    (done : handleBinaryOpcode F ref reg1 reg2 st = some next) : Grows 2 st next := by
  unfold handleBinaryOpcode at done
  dsimp only at done
  split at done
  · cases done
    exact (insertLoad_grows reg2 _).trans (insertLoad_grows reg1 _)
  · split at done
    · split at done
      · obtain ⟨middle, brought, done⟩ := bind_eq_some_iff.mp done
        cases done
        exact ((SwapRegToTop_grows brought).trans (insertLoad_grows reg1 _)).mono (by omega)
      · obtain ⟨middle, brought, done⟩ := bind_eq_some_iff.mp done
        cases done
        exact (DupRegToTop_grows brought).trans (insertLoad_grows reg1 _)
    · split at done
      · split at done
        · obtain ⟨middle, brought, done⟩ := bind_eq_some_iff.mp done
          have whole : Grows (0 + (1 + 0)) st next :=
            (SwapRegToTop_grows brought).trans
              ((insertLoad_grows reg2 _).trans (SwapRegToTop_grows done))
          exact whole.mono (by omega)
        · exact (insertLoad_grows reg2 _).trans (DupRegToTop_grows done)
      · exact handleStackOperands_grows done

theorem handleArbitraryUse_grows {use : RegUseType}
    (done : handleArbitraryUse ref use st = some next) : Grows 1 st next := by
  unfold handleArbitraryUse at done
  split at done
  · cases done
    exact insertLoad_grows use.reg _
  · obtain ⟨depth, _, done⟩ := bind_eq_some_iff.mp done
    exact insertDupBefore_grows done

theorem handleArbitraryUses_grows {uses : List RegUseType}
    (done : Runs.run (handleArbitraryUse ref) uses st = some next) :
    Grows uses.length st next := by
  induction uses generalizing st with
  | nil =>
      cases done
      exact Grows.refl _
  | cons use rest ih =>
      obtain ⟨middle, handled, remaining⟩ := Runs.run_cons_eq_some _ done
      have whole := (handleArbitraryUse_grows handled).trans (ih remaining)
      rwa [Nat.add_comm] at whole

theorem handleUses_grows (done : handleUses F ref st = some next) :
    Grows ref.instr.useRegisters.length st next := by
  obtain ⟨uses, known, done⟩ := bind_eq_some_iff.mp done
  rw [← (calculateUseRegs_eq_some known).1, length_map]
  have prepared : ∃ ready, Grows uses.length st ready ∧ popUses uses.length ready = some next := by
    match uses, done with
    | [], done => exact ⟨st, Grows.refl st, done⟩
    | [use], done =>
        obtain ⟨ready, prepared, popped⟩ := bind_eq_some_iff.mp done
        exact ⟨ready, handleUnaryOpcode_grows prepared, popped⟩
    | [use1, use2], done =>
        obtain ⟨ready, prepared, popped⟩ := bind_eq_some_iff.mp done
        exact ⟨ready, handleBinaryOpcode_grows prepared, popped⟩
    | use1 :: use2 :: use3 :: rest, done =>
        obtain ⟨ready, prepared, popped⟩ := bind_eq_some_iff.mp done
        have whole := handleArbitraryUses_grows prepared
        rw [length_reverse] at whole
        exact ⟨ready, whole, popped⟩
  obtain ⟨ready, grows, popped⟩ := prepared
  obtain ⟨_, rfl⟩ := popUses_eq_some popped
  have height := grows.height
  refine ⟨?_, grows.code⟩
  simp only [length_drop]
  omega

private theorem grows_pop {st state next : EVMStackAlloc} (done : state.pop = some next)
    (height : state.stack = st.stack)
    (code : ∀ out ∈ state.code, out ∈ st.code ∨ shuffleIndex out = none) : Grows 0 st next := by
  obtain ⟨top, rest, entries, rfl⟩ := pop_eq_some done
  refine ⟨?_, addsBelow_of_code code⟩
  rw [← height, entries, length_cons]
  exact Nat.le_succ _

theorem insertPopBefore_grows (done : insertPopBefore st = some next) : Grows 0 st next := by
  refine grows_pop done rfl fun out member => ?_
  simp only [EVMStackAlloc.code, mem_append, mem_singleton] at member ⊢
  by_cases new : out = .POP_r
  · exact Or.inr (by rw [new]; rfl)
  · exact Or.inl (by tauto)

theorem insertPopAfter_grows (done : insertPopAfter st = some next) : Grows 0 st next := by
  refine grows_pop done rfl fun out member => ?_
  simp only [EVMStackAlloc.code, mem_append, mem_cons] at member ⊢
  by_cases new : out = .POP_r
  · exact Or.inr (by rw [new]; rfl)
  · exact Or.inl (by tauto)

theorem insertPopPoint_grows (done : insertPopPoint st = some next) : Grows 0 st next := by
  refine grows_pop done rfl fun out member => ?_
  simp only [EVMStackAlloc.code, mem_append, mem_singleton] at member ⊢
  by_cases new : out = .POP_r
  · exact Or.inr (by rw [new]; rfl)
  · exact Or.inl (by tauto)

theorem cleanUpUse_grows {atEnd : Bool} {use : RegUseType}
    (done : cleanUpUse atEnd use st = some next) : Grows 0 st next := by
  unfold cleanUpUse at done
  split at done
  · obtain ⟨depth, _, done⟩ := bind_eq_some_iff.mp done
    by_cases deep : depth ≠ 0
    · simp only [if_pos deep] at done
      split at done
      · exact grows_bind done (fun _ => insertSwapAfter_grows deep)
          fun _ => insertPopAfter_grows
      · exact grows_bind done (fun _ => insertSwapPoint_grows deep)
          fun _ => insertPopPoint_grows
    · simp only [if_neg deep] at done
      change (if atEnd = true then insertPopAfter st else insertPopPoint st) = some next at done
      split at done
      · exact insertPopAfter_grows done
      · exact insertPopPoint_grows done
  · cases done
    exact Grows.refl st

theorem popIfDead_grows {xreg : Register} (done : popIfDead F block xreg st = some next) : Grows 0 st next := by
  unfold popIfDead at done
  split at done
  · exact grows_bind done (fun _ => SwapRegToTop_grows) fun _ => insertPopBefore_grows
  · cases done
    exact Grows.refl st

private theorem run_grows {Label : Type} {step : Label → EVMStackAlloc → Option EVMStackAlloc}
    (each : ∀ label st next, step label st = some next → Grows 0 st next) {labels : List Label}
    (done : Runs.run step labels st = some next) : Grows 0 st next := by
  induction labels generalizing st with
  | nil =>
      cases done
      exact Grows.refl _
  | cons label rest ih =>
      obtain ⟨middle, stepped, remaining⟩ := Runs.run_cons_eq_some _ done
      exact (each label st middle stepped).trans (ih remaining)

theorem cleanUpDeadRegisters_grows (done : cleanUpDeadRegisters F ref st = some next) :
    Grows 0 st next := by
  unfold cleanUpDeadRegisters at done
  split at done
  · cases done
    exact Grows.refl st
  · obtain ⟨uses, _, done⟩ := bind_eq_some_iff.mp done
    exact run_grows (fun _ _ _ => cleanUpUse_grows) done

/-! ### Steps and runs -/

/-- The height of the symbolic stack a step works on, and the operands it adds. -/
def reach (F : MachineFunction) : AllocStep → EVMStackAlloc → Nat
  | .uses ref, st => st.stack.length + ref.instr.useRegisters.length
  | .cleanUp _, st => st.stack.length
  | .stackArg _ _, st => st.stack.length
  | .beginBlock block, st =>
      ((takenOver F block st).map fun taken => taken.1.length).getD 0 + st.stack.length
  | _, _ => 0

theorem storeArgument_grows {first : InstrRef} {slot : Nat}
    (done : pop (insertStoreToMemoryBefore reg first slot st) = some next) : Grows 0 st next := by
  refine grows_pop done rfl fun out member => ?_
  simp only [EVMStackAlloc.code, insertStoreToMemoryBefore, mem_append,
    mem_singleton] at member ⊢
  by_cases new : out = .pPUTLOCAL_r reg slot
  · exact Or.inr (by rw [new]; rfl)
  · exact Or.inl (by tauto)

theorem analyzeStackArg_addsBelow {first arg : InstrRef}
    (done : analyzeStackArg F first arg st = some next) :
    AddsBelow st.stack.length st next := by
  unfold analyzeStackArg at done
  simp only at done
  split at done
  · rw [insertAssignment_eq] at done
    have grows : Grows 0 st next := by
      refine grows_pop done rfl fun out member => ?_
      by_cases new : out = .POP_r
      · exact Or.inr (by rw [new]; rfl)
      · simp only [EVMStackAlloc.code, mem_append] at member ⊢
        have kept : out ∈ st.before.insertIdx arg.index .POP_r → out ∈ st.before :=
          fun inserted => (eq_or_mem_of_mem_insertIdx inserted).resolve_left new
        exact Or.inl (by tauto)
    exact grows.code
  · split at done
    · rw [insertAssignment_eq] at done
      cases done
      exact fun out member => Or.inl member
    · obtain ⟨slot, taken, size, _, result⟩ := allocateMemorySlot_taken (argRegister arg) st
      simp only [result, insertAssignment_eq] at done
      obtain ⟨depth, _, done⟩ := bind_eq_some_iff.mp done
      by_cases deep : depth ≠ 0
      · simp only [if_pos deep] at done
        exact (grows_bind done (fun _ => insertSwapBefore_grows deep) fun _ =>
          storeArgument_grows).code
      · simp only [if_neg deep] at done
        exact (storeArgument_grows done).code

theorem beginOfBlockUpdates_addsBelow (done : beginOfBlockUpdates F block st = some next) :
    AddsBelow (reach F (.beginBlock block) st) st next := by
  unfold beginOfBlockUpdates at done
  split at done
  · cases done
    exact fun out member => Or.inl member
  · obtain ⟨⟨xStack, memslots⟩, handed, done⟩ := bind_eq_some_iff.mp done
    obtain ⟨popped, popping, done⟩ := bind_eq_some_iff.mp done
    obtain ⟨slots, _, done⟩ := bind_eq_some_iff.mp done
    cases done
    have adds := (run_grows (fun _ _ _ => popIfDead_grows) popping).code
    have bound : reach F (.beginBlock block) st = (xStack ++ st.stack).length := by
      simp only [reach, handed, map_some, getD_some, length_append]
    rw [bound]
    intro out member
    have split : out ∈ popped.code ∨ out ∈ st.before := by
      simp only [EVMStackAlloc.code, mem_append] at member ⊢
      tauto
    rcases split with inserted | started
    · rcases adds out inserted with old | new
      · refine Or.inl ?_
        simp only [EVMStackAlloc.code, mem_append, not_mem_nil, false_or] at old ⊢
        tauto
      · exact Or.inr new
    · exact Or.inl (by simp only [EVMStackAlloc.code, mem_append]; tauto)

theorem handleDef_addsBelow (done : handleDef F ref st = some next) : AddsBelow 0 st next := by
  refine addsBelow_of_code fun out member => ?_
  rcases handleDef_eq_some done with ⟨_, rfl⟩ | ⟨defReg, _, ⟨_, _, _, _, _, rfl⟩ | ⟨_, _, _, rfl⟩ | ⟨_, rfl⟩⟩
  · exact Or.inl member
  · simp only [EVMStackAlloc.code, mem_append, mem_cons] at member ⊢
    by_cases new : out = .POP_r
    · exact Or.inr (by rw [new]; rfl)
    · exact Or.inl (by tauto)
  · exact Or.inl member
  · obtain ⟨slot, taken, size, _, stored⟩ := storeDef_eq ref defReg st
    rw [stored] at member
    simp only [EVMStackAlloc.code, mem_append, mem_cons] at member ⊢
    by_cases new : out = .pPUTLOCAL_r defReg slot
    · exact Or.inr (by rw [new]; rfl)
    · exact Or.inl (by tauto)

theorem endOfBlockUpdates_code (done : endOfBlockUpdates F block st = some next) :
    next.code = st.code := by
  rcases endOfBlockUpdates_eq_some done with ⟨_, rfl⟩ | ⟨_, _, _, _, _, rfl⟩ <;> rfl

theorem mem_closeBlock_code (member : out ∈ (closeBlock st).code) : out ∈ st.code := by
  simpa [EVMStackAlloc.code, closeBlock] using member

theorem allocStep_addsBelow {step : AllocStep} (stepped : allocStep F step st = some next) :
    AddsBelow (reach F step st) st next := by
  cases step with
  | emptyBlock =>
      cases stepped
      exact fun out member => Or.inl (mem_closeBlock_code member)
  | noInsertionPoint => cases stepped
  | openBlock block =>
      cases stepped
      refine addsBelow_of_code fun out member => ?_
      simp only [EVMStackAlloc.code, openBlock, mem_append, List.mem_map] at member ⊢
      rcases member with old | (old | ⟨ref, _, rfl⟩) | old
      · exact Or.inl (Or.inl old)
      · exact Or.inl (Or.inr (Or.inl old))
      · exact Or.inr rfl
      · exact Or.inl (Or.inr (Or.inr old))
  | stackArg first arg => exact analyzeStackArg_addsBelow stepped
  | beginBlock block => exact beginOfBlockUpdates_addsBelow stepped
  | uses ref => exact (handleUses_grows stepped).code
  | define ref => exact handleDef_addsBelow stepped
  | cleanUp ref =>
      obtain ⟨cleaned, done, rfl⟩ := map_eq_some_iff.mp stepped
      have grows := cleanUpDeadRegisters_grows done
      refine grows.code.trans (addsBelow_of_code fun out member => ?_)
      simp only [EVMStackAlloc.code, passInstr, mem_append, mem_singleton,
        not_mem_nil, or_false] at member ⊢
      by_cases new : out = .original ref
      · exact Or.inr (by rw [new]; rfl)
      · exact Or.inl (by tauto)
  | endBlock block =>
      obtain ⟨ended, done, rfl⟩ := map_eq_some_iff.mp stepped
      intro out member
      rw [← endOfBlockUpdates_code done]
      exact Or.inl (mem_closeBlock_code member)

theorem run_shuffles_positive
    (ran : Runs.run (allocStep F) (functionSteps F) (startState F st) = some last) :
    ∀ out ∈ last.code, ∀ index, shuffleIndex out = some index → 1 ≤ index := by
  refine Runs.run_keeps
    (fun state => ∀ out ∈ state.code, ∀ index, shuffleIndex out = some index → 1 ≤ index)
    ?_ ?_ ran
  · intro step state next kept stepped out member index shuffles
    rcases allocStep_addsBelow stepped out member with old | new
    · exact kept out old index shuffles
    · exact (new index shuffles).1
  · intro out member
    cases member

theorem run_shuffles_within
    (low : Runs.EveryStep (allocStep F) (fun step state => reach F step state ≤ 17) (functionSteps F)
    (startState F st))
    (ran : Runs.run (allocStep F) (functionSteps F) (startState F st) = some last) :
    ∀ out ∈ last.code, ∀ index, shuffleIndex out = some index → index ≤ 16 := by
  refine Runs.run_keeps_of_everyStep
    (fun state => ∀ out ∈ state.code, ∀ index, shuffleIndex out = some index → index ≤ 16)
    ?_ low ?_ ran
  · intro step state next below kept stepped out member index shuffles
    rcases allocStep_addsBelow stepped out member with old | new
    · exact kept out old index shuffles
    · have := (new index shuffles).2
      omega
  · intro out member
    cases member

theorem mem_code_of_mem_emitted (member : out ∈ st.emitted.flatten) :
    out ∈ st.code :=
  mem_append_left _ member

/-- Of the copies and exchanges emitted for a function, conversion keeps the
effect of those with an index up to 16. All of them are such if every step works
on a symbolic stack that, with the operands of the step, is at most 17 high. -/
theorem emittedShuffles_keepEffect (ran : runOnMachineFunction F st = some last) :
    (∀ out ∈ last.emitted.flatten, ∀ index, shuffleIndex out = some index →
      (KeepsEffect out ↔ index ≤ 16)) ∧
    (Runs.EveryStep (allocStep F) (fun step state => reach F step state ≤ 17)
        (functionSteps F) (startState F st) →
      ∀ out ∈ last.emitted.flatten, ∀ index, shuffleIndex out = some index → KeepsEffect out) := by
  rw [runOnMachineFunction_eq_run] at ran
  have positive := run_shuffles_positive ran
  refine ⟨fun out member index shuffles => ?_, fun low out member index shuffles => ?_⟩
  · exact keepsEffect_iff shuffles (positive out (mem_code_of_mem_emitted member) index shuffles)
  · have inCode := mem_code_of_mem_emitted member
    rw [keepsEffect_iff shuffles (positive out inCode index shuffles)]
    exact run_shuffles_within low ran out inCode index shuffles

/-- Define `count` registers, then read the first, the others in pairs from the
last but one down, and the last. -/
def consumeAll (count : Nat) : List MachineInstr :=
  (List.range count).map (fun place => ⟨.inst 1, some (place + 1), []⟩) ++
  ⟨.inst 2, none, [.reg 1]⟩ ::
  ((List.range (count / 2 - 1)).map fun pair =>
    ⟨.inst 3, none, [.reg (count - 1 - 2 * pair), .reg (count - 2 - 2 * pair)]⟩) ++
  [⟨.inst 2, none, [.reg count]⟩]

def readAt (count : Nat) (reg : Register) : Nat :=
  if reg = 1 then count
  else if reg = count then count + count / 2
  else count + 1 + (count - 1 - reg) / 2

def consumingBlock (count : Nat)
    (nonzero : definitionsNonzero [⟨consumeAll count, [], []⟩] = true) : MachineFunction where
  blocks := [⟨consumeAll count, [], []⟩]
  getInterval := fun reg =>
    ⟨[(⟨0, 3 * (reg - 1) + 2, 2⟩, ⟨0, 3 * readAt count reg + 2, 2⟩)], cons_ne_nil _ _⟩
  hasEntry := cons_ne_nil _ _
  edges := rfl
  nonzero := nonzero

def crowdedBlock : MachineFunction := consumingBlock 18 (by decide)

/-- Two registers: one exchange with the next entry, which is kept, as is
everything else, the stack being low throughout. -/
theorem emittedShuffles_keepEffect_two :
    ∃ last, runOnMachineFunction (consumingBlock 2 (by decide)) fresh = some last ∧
      OutInstr.SWAP_r 1 ∈ last.emitted.flatten ∧ KeepsEffect (.SWAP_r 1) ∧
      ∀ out ∈ last.emitted.flatten, ∀ index, shuffleIndex out = some index → KeepsEffect out := by
  have finishes : (runOnMachineFunction (consumingBlock 2 (by decide)) fresh).isSome = true := by
    decide
  obtain ⟨last, ran⟩ := isSome_iff_exists.mp finishes
  have emitted : (runOnMachineFunction (consumingBlock 2 (by decide)) fresh).map
      (fun state => decide (OutInstr.SWAP_r 1 ∈ state.emitted.flatten)) = some true := by
    decide
  rw [ran] at emitted
  have member : OutInstr.SWAP_r 1 ∈ last.emitted.flatten :=
    of_decide_eq_true (Option.some.inj emitted)
  obtain ⟨each, whole⟩ := emittedShuffles_keepEffect ran
  exact ⟨last, ran, member, (each _ member 1 rfl).mpr (by decide), whole (by decide)⟩

/-- Eighteen local registers: the first is exchanged to the top from 17 below,
which the machine is told to do from 16 below. -/
theorem crowdedBlock_exchange_clamped :
    ∃ last, runOnMachineFunction crowdedBlock fresh = some last ∧
      OutInstr.SWAP_r 17 ∈ last.emitted.flatten ∧
      convertShuffle (.SWAP_r 17) = some (.SWAP 15) ∧ ¬ KeepsEffect (.SWAP_r 17) := by
  have finishes : (runOnMachineFunction crowdedBlock fresh).isSome = true := by decide +kernel
  obtain ⟨last, ran⟩ := isSome_iff_exists.mp finishes
  have emitted : (runOnMachineFunction crowdedBlock fresh).map
      (fun state => decide (OutInstr.SWAP_r 17 ∈ state.emitted.flatten)) = some true := by
    decide +kernel
  rw [ran] at emitted
  have member : OutInstr.SWAP_r 17 ∈ last.emitted.flatten :=
    of_decide_eq_true (Option.some.inj emitted)
  refine ⟨last, ran, member, rfl, ?_⟩
  rw [keepsEffect_SWAP (by decide)]
  decide

end EVMStackAlloc

end EvmBackend
