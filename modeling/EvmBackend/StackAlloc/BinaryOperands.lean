/-
The two operands of a binary instruction: for every arrangement of the stack
and the memory, the inserted code leaves the first on top and the second right
below it, except when one stack register is both operands and is not read
again. A register that occurs once on the stack cannot be at two places after
exchanges alone.
-/

import EvmBackend.StackAlloc.Simulation

namespace EvmBackend.EVMStackAlloc

open Option

variable {F : MachineFunction} {ref : InstrRef} {st next : EVMStackAlloc}

def Located (st : EVMStackAlloc) (reg : Register) : Prop :=
  (st.lookup reg).region = .NONSTACK ∨ (st.lookup reg).region = .L_STACK ∧ reg ∈ st.stack

/-- The inserted code leaves the first operand on top and the second below it,
where the two pops find them. -/
def OperandsPlaced (F : MachineFunction) (ref : InstrRef) (reg1 reg2 : Register)
    (st : EVMStackAlloc) : Prop :=
  ∃ next rest, handleBinaryOpcode F ref reg1 reg2 st = some next ∧
    next.stack = reg1 :: reg2 :: rest ∧ popUses 2 next = some { next with stack := rest }

variable {reg reg1 reg2 : Register}

theorem Located.mem_stack (located : st.Located reg)
    (onStack : (st.lookup reg).region ≠ .NONSTACK) : reg ∈ st.stack := by
  rcases located with inMemory | held
  · exact absurd inMemory onStack
  · exact held.2

theorem Located.region_eq (located : st.Located reg)
    (onStack : (st.lookup reg).region ≠ .NONSTACK) : (st.lookup reg).region = .L_STACK := by
  rcases located with inMemory | held
  · exact absurd inMemory onStack
  · exact held.1

theorem SwapRegToTop_perm (done : SwapRegToTop reg st = some next) : next.stack.Perm st.stack := by
  obtain ⟨depth, _, exchanged⟩ := SwapRegToTop_stack done
  exact Stacks.swapTop_perm exchanged

theorem insertSwapBefore_perm {depth : Nat} (done : insertSwapBefore depth st = some next) :
    next.stack.Perm st.stack :=
  Stacks.swapTop_perm (insertSwapBefore_stack done)

theorem handleStackOperands_perm (done : handleStackOperands reg1 reg2 true true st = some next) :
    next.stack.Perm st.stack := by
  obtain ⟨depth1, _, done⟩ := bind_eq_some_iff.mp done
  obtain ⟨depth2, _, done⟩ := bind_eq_some_iff.mp done
  simp only [bind_eq_bind] at done
  by_cases ready : depth1 = 0 ∧ depth2 = 1
  · rw [if_pos ready] at done
    cases done
    exact List.Perm.refl _
  · rw [if_neg ready] at done
    by_cases top1 : depth1 = 0 ∧ depth2 ≠ 1
    · rw [if_pos top1] at done
      obtain ⟨lowered, exchanged, done⟩ := bind_eq_some_iff.mp done
      obtain ⟨raised, raising, done⟩ := bind_eq_some_iff.mp done
      exact (SwapRegToTop_perm done).trans
        ((SwapRegToTop_perm raising).trans (insertSwapBefore_perm exchanged))
    · rw [if_neg top1] at done
      by_cases second : depth1 ≠ 0 ∧ depth2 = 1
      · rw [if_pos second] at done
        exact SwapRegToTop_perm done
      · rw [if_neg second] at done
        by_cases reversed : depth1 = 1 ∧ depth2 = 0
        · rw [if_pos reversed] at done
          exact insertSwapBefore_perm done
        · rw [if_neg reversed] at done
          obtain ⟨raised, raising, done⟩ := bind_eq_some_iff.mp done
          obtain ⟨lowered, exchanged, done⟩ := bind_eq_some_iff.mp done
          exact (SwapRegToTop_perm done).trans
            ((insertSwapBefore_perm exchanged).trans (SwapRegToTop_perm raising))

theorem handleStackOperands_isSome (lastUse1 lastUse2 : Bool) (member1 : reg1 ∈ st.stack)
    (member2 : reg2 ∈ st.stack) (distinct : reg1 = reg2 → lastUse1 = false ∧ lastUse2 = false) :
    ∃ next, handleStackOperands reg1 reg2 lastUse1 lastUse2 st = some next := by
  by_cases misses : missesCopy reg1 reg2 lastUse1 lastUse2 st.stack
  · obtain ⟨last1, last2, deep1, second⟩ := misses
    obtain ⟨depth1, found1⟩ := Stacks.depthOf_isSome member1
    obtain ⟨next, done, _⟩ := SwapRegToTop_total member1
    refine ⟨next, ?_⟩
    have notTop : depth1 ≠ 0 := by
      intro top
      rw [found1, top] at deep1
      exact deep1 rfl
    simp only [handleStackOperands, findRegDepth, found1, second, last1, last2,
      bind_eq_bind, bind_some, if_neg notTop, if_true]
    exact done
  · obtain ⟨next, done, _⟩ := handleStackOperands_total member1 member2 distinct misses
    exact ⟨next, done⟩

theorem handleBinaryOpcode_isSome (F : MachineFunction) (ref : InstrRef)
    (located1 : st.Located reg1) (located2 : st.Located reg2)
    (distinct : reg1 = reg2 → (st.lookup reg1).region ≠ .NONSTACK → regIsLastUse F st.MRI ref reg1 = false) :
    ∃ next, handleBinaryOpcode F ref reg1 reg2 st = some next := by
  by_cases onStack : (st.lookup reg1).region ≠ .NONSTACK ∧ (st.lookup reg2).region ≠ .NONSTACK
  · obtain ⟨next, done⟩ := handleStackOperands_isSome
      (regIsLastUse F st.MRI ref reg1) (regIsLastUse F st.MRI ref reg2)
      (located1.mem_stack onStack.1) (located2.mem_stack onStack.2) fun same => by
        have again := distinct same onStack.1
        rw [← same]
        exact ⟨again, again⟩
    refine ⟨next, ?_⟩
    simp only [handleBinaryOpcode, onStack.1, onStack.2, false_and, if_false]
    exact done
  · obtain ⟨next, done, _⟩ := handleBinaryOpcode_total located1.mem_stack located2.mem_stack
      distinct fun onStack1 onStack2 => absurd ⟨onStack1, onStack2⟩ onStack
    exact ⟨next, done⟩

/-- On a stack without repetitions, the operands are placed exactly when they are
not one and the same stack register at its last use. -/
theorem operandsPlaced_iff (F : MachineFunction) (ref : InstrRef) (reg1 reg2 : Register)
    (st : EVMStackAlloc) (nodup : st.stack.Nodup) (located1 : st.Located reg1)
    (located2 : st.Located reg2) :
    OperandsPlaced F ref reg1 reg2 st ↔
      ¬ (reg1 = reg2 ∧ (st.lookup reg1).region = .L_STACK ∧
        regIsLastUse F st.MRI ref reg1 = true) := by
  constructor
  · rintro ⟨next, rest, done, stack, _⟩ ⟨same, local1, last⟩
    subst same
    have onStack : (st.lookup reg1).region ≠ .NONSTACK := by
      rw [local1]
      decide
    simp only [handleBinaryOpcode, onStack, false_and, if_false, last] at done
    have kept := handleStackOperands_perm done
    rw [stack] at kept
    have once := (List.nodup_cons.mp (kept.nodup_iff.mpr nodup)).1
    exact once List.mem_cons_self
  · intro different
    have distinct : reg1 = reg2 → (st.lookup reg1).region ≠ .NONSTACK →
        regIsLastUse F st.MRI ref reg1 = false := by
      intro same onStack
      have region := located1.region_eq onStack
      cases last : regIsLastUse F st.MRI ref reg1 with
      | false => rfl
      | true => exact absurd ⟨same, region, last⟩ different
    obtain ⟨next, done⟩ := handleBinaryOpcode_isSome F ref located1 located2 distinct
    obtain ⟨top, second⟩ := handleBinaryOpcode_top done distinct
    obtain ⟨rest, entries⟩ := stack_of_two top second
    refine ⟨next, rest, done, entries, ?_⟩
    rw [popUses_total (by rw [entries]; simp), entries]
    rfl

/-- `r1 := 1; r2 := 2; r3 := r2 * r2; return r3, r1`, all local to the block. -/
def squaring : MachineFunction where
  blocks := [
    ⟨[⟨.inst 0x60, some 1, [.imm 1]⟩, ⟨.inst 0x60, some 2, [.imm 2]⟩,
      ⟨.inst 0x02, some 3, [.reg 2, .reg 2]⟩, ⟨.inst 0xf3, none, [.reg 3, .reg 1]⟩], [], []⟩]
  getInterval := fun reg =>
    if reg = 1 then ⟨[(⟨0, 2, 2⟩, ⟨0, 11, 2⟩)], List.cons_ne_nil _ _⟩
    else if reg = 2 then ⟨[(⟨0, 5, 2⟩, ⟨0, 8, 2⟩)], List.cons_ne_nil _ _⟩
    else ⟨[(⟨0, 8, 2⟩, ⟨0, 11, 2⟩)], List.cons_ne_nil _ _⟩
  hasEntry := List.cons_ne_nil _ _
  edges := by decide
  nonzero := by decide

def stateBefore (F : MachineFunction) (count : Nat) : EVMStackAlloc :=
  (Runs.run (analyzeInstr F) ((bodyRefs F 0).take count) (startState F fresh)).getD
    (startState F fresh)

def subtraction : InstrRef := ⟨0, 2, ⟨.inst 0x03, some 3, [.reg 1, .reg 2]⟩⟩

/-- `r1` is below `r2` on the stack, and both are consumed. -/
theorem straightLine_operandsPlaced :
    subtraction ∈ bodyRefs straightLine 0 ∧
      OperandsPlaced straightLine subtraction 1 2 (stateBefore straightLine 2) := by
  refine ⟨by decide, ?_⟩
  apply (operandsPlaced_iff straightLine subtraction 1 2 (stateBefore straightLine 2) ?_ ?_ ?_).mpr
  · intro same
    exact absurd same.1 (by decide)
  · decide
  · exact Or.inr ⟨by decide, by decide⟩
  · exact Or.inr ⟨by decide, by decide⟩

def multiplication : InstrRef := ⟨0, 2, ⟨.inst 0x02, some 3, [.reg 2, .reg 2]⟩⟩

/-- Both operands are the top of the stack: three exchanges leave `r1` below it. -/
theorem squaring_operands_not_placed :
    multiplication ∈ bodyRefs squaring 0 ∧ (stateBefore squaring 2).stack = [2, 1] ∧
      (stateBefore squaring 2).Located 2 ∧
      ¬ OperandsPlaced squaring multiplication 2 2 (stateBefore squaring 2) := by
  refine ⟨by decide, by decide, Or.inr ⟨by decide, by decide⟩, ?_⟩
  rintro ⟨next, rest, done, stack, _⟩
  have left : (handleBinaryOpcode squaring multiplication 2 2 (stateBefore squaring 2)).map
      EVMStackAlloc.stack = some [2, 1] := by decide
  rw [done, map_some, stack] at left
  cases left

end EvmBackend.EVMStackAlloc
