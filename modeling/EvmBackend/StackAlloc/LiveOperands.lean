/-
What a binary instruction leaves on the symbolic stack: every entry that was
there, less the stack operands that are not read again. Each arrangement of the
operands decides for itself whether an operand is exchanged to the top, and so
consumed, or copied; one of them exchanges where later instructions need a copy.
-/

import EvmBackend.StackAlloc.BinaryOperands

namespace EvmBackend.EVMStackAlloc

variable {F : MachineFunction} {ref : InstrRef} {st next : EVMStackAlloc} {reg1 reg2 : Register}

def consumed (F : MachineFunction) (ref : InstrRef) (reg1 reg2 : Register) (st : EVMStackAlloc)
    (reg : Register) : Bool :=
  (reg == reg1 || reg == reg2) && decide ((st.lookup reg).region ≠ .NONSTACK) &&
    regIsLastUse F st.MRI ref reg

/-- The code can be inserted, and once the instruction has taken its operands
the stack is the old one, in some order, less the operands that die here. -/
def KeepsLive (F : MachineFunction) (ref : InstrRef) (reg1 reg2 : Register)
    (st : EVMStackAlloc) : Prop :=
  ∃ ready next, handleBinaryOpcode F ref reg1 reg2 st = some ready ∧
    popUses 2 ready = some next ∧
    next.stack.Perm (st.stack.filter fun reg => !consumed F ref reg1 reg2 st reg)

private theorem copiesOf_eq_filter (F : MachineFunction) (ref : InstrRef) (st : EVMStackAlloc)
    (reg1 reg2 : Register) :
    copiesOf F ref st [reg1, reg2] =
      [reg1, reg2].filter fun reg => !consumed F ref reg1 reg2 st reg := by
  unfold copiesOf
  apply List.filter_congr
  intro reg member
  have operand : (reg == reg1 || reg == reg2) = true := by
    simpa using member
  simp only [consumed, operand, Bool.true_and, Bool.not_and, decide_not, Bool.not_not]

private theorem rest_perm {gone : Register → Bool} {entries rest : List Register}
    (apart : reg1 ≠ reg2) (nodup : entries.Nodup)
    (held1 : gone reg1 = true → reg1 ∈ entries) (held2 : gone reg2 = true → reg2 ∈ entries)
    (others : ∀ reg, gone reg = true → reg = reg1 ∨ reg = reg2)
    (same : ([reg1, reg2] ++ rest).Perm
      ([reg1, reg2].filter (fun reg => !gone reg) ++ entries)) :
    rest.Perm (entries.filter fun reg => !gone reg) := by
  rw [List.perm_iff_count]
  intro reg
  have counts := same.count_eq reg
  rw [List.count_append, List.count_append] at counts
  have once : ∀ operand, operand = reg1 ∨ operand = reg2 → [reg1, reg2].count operand = 1 := by
    intro operand either
    rcases either with rfl | rfl
    · simp [apart.symm]
    · simp [apart]
  cases dies : gone reg with
  | true =>
      have member : reg ∈ entries := by
        rcases others reg dies with rfl | rfl
        · exact held1 dies
        · exact held2 dies
      have absent : ∀ regs : List Register, (regs.filter fun reg => !gone reg).count reg = 0 := by
        intro regs
        apply List.count_eq_zero.mpr
        simp [dies]
      rw [once reg (others reg dies), absent, nodup.count, if_pos member] at counts
      rw [absent]
      omega
  | false =>
      have kept : ∀ regs : List Register, (regs.filter fun reg => !gone reg).count reg =
          regs.count reg := fun regs => List.count_filter (by simp [dies])
      rw [kept] at counts
      rw [kept]
      omega

theorem keepsLive_of_copies (apart : reg1 ≠ reg2) (nodup : st.stack.Nodup)
    (present1 : (st.lookup reg1).region ≠ .NONSTACK → reg1 ∈ st.stack)
    (present2 : (st.lookup reg2).region ≠ .NONSTACK → reg2 ∈ st.stack)
    (copies : (st.lookup reg1).region ≠ .NONSTACK → (st.lookup reg2).region ≠ .NONSTACK →
      ¬ missesCopy reg1 reg2 (regIsLastUse F st.MRI ref reg1) (regIsLastUse F st.MRI ref reg2)
        st.stack) :
    KeepsLive F ref reg1 reg2 st := by
  obtain ⟨ready, done, same⟩ := handleBinaryOpcode_total present1 present2
    (fun equal => absurd equal apart) copies
  obtain ⟨top, second⟩ := handleBinaryOpcode_top done fun equal => absurd equal apart
  obtain ⟨rest, entries⟩ := stack_of_two top second
  have popped : popUses 2 ready = some { ready with stack := rest } := by
    rw [popUses_total (by rw [entries]; simp), entries]
    rfl
  refine ⟨ready, _, done, popped, ?_⟩
  rw [entries, copiesOf_eq_filter] at same
  apply rest_perm apart nodup ?_ ?_ ?_ same
  · intro dies
    simp only [consumed, Bool.and_eq_true, decide_eq_true_eq] at dies
    exact present1 dies.1.2
  · intro dies
    simp only [consumed, Bool.and_eq_true, decide_eq_true_eq] at dies
    exact present2 dies.1.2
  · intro reg dies
    simp only [consumed, Bool.and_eq_true, Bool.or_eq_true, beq_iff_eq] at dies
    exact dies.1.1

theorem handleBinaryOpcode_missesCopy
    (onStack1 : (st.lookup reg1).region ≠ .NONSTACK)
    (onStack2 : (st.lookup reg2).region ≠ .NONSTACK) (member1 : reg1 ∈ st.stack)
    (misses : missesCopy reg1 reg2 (regIsLastUse F st.MRI ref reg1)
      (regIsLastUse F st.MRI ref reg2) st.stack) :
    handleBinaryOpcode F ref reg1 reg2 st = SwapRegToTop reg1 st := by
  obtain ⟨last1, last2, deep1, second⟩ := misses
  obtain ⟨depth1, found1⟩ := Stacks.depthOf_isSome member1
  have notTop : depth1 ≠ 0 := by
    intro top
    rw [found1, top] at deep1
    exact deep1 rfl
  simp only [handleBinaryOpcode, onStack1, onStack2, false_and, if_false, handleStackOperands,
    findRegDepth, found1, second, last1, last2, Option.bind_eq_bind, Option.bind_some,
    if_neg notTop, if_true]

theorem not_keepsLive_of_missesCopy (apart : reg1 ≠ reg2) (nodup : st.stack.Nodup)
    (onStack1 : (st.lookup reg1).region ≠ .NONSTACK)
    (onStack2 : (st.lookup reg2).region ≠ .NONSTACK)
    (member1 : reg1 ∈ st.stack) (member2 : reg2 ∈ st.stack)
    (misses : missesCopy reg1 reg2 (regIsLastUse F st.MRI ref reg1)
      (regIsLastUse F st.MRI ref reg2) st.stack) :
    ¬ KeepsLive F ref reg1 reg2 st := by
  intro keeps
  obtain ⟨ready, next, done, popped, left⟩ := keeps
  have placed := handleBinaryOpcode_top done fun equal => absurd equal apart
  obtain ⟨rest, entries⟩ := stack_of_two placed.1 placed.2
  rw [handleBinaryOpcode_missesCopy onStack1 onStack2 member1 misses] at done
  have exchanged := SwapRegToTop_perm done
  rw [entries] at exchanged
  have unlike : reg2 ∉ rest := by
    have each := exchanged.nodup_iff.mpr nodup
    simp only [List.cons_append, List.nil_append, List.nodup_cons] at each
    exact each.2.1
  have remaining : next.stack = rest := by
    have total : popUses 2 ready = some { ready with stack := ready.stack.drop 2 } :=
      popUses_total (by rw [entries]; simp)
    rw [popped] at total
    rw [Option.some.inj total, entries]
    rfl
  have live : consumed F ref reg1 reg2 st reg2 = false := by
    simp [consumed, misses.2.1]
  have survives : reg2 ∈ next.stack := by
    apply left.mem_iff.mpr
    rw [List.mem_filter, live]
    exact ⟨member2, rfl⟩
  rw [remaining] at survives
  exact unlike survives

/-- On a stack without repetitions, two different operands lose no live register
and keep no dead one exactly when they are not the arrangement that misses a
copy: both on the stack, the first at its last use and not on top, the second
read again and second from the top. -/
theorem keepsLive_iff (F : MachineFunction) (ref : InstrRef) (reg1 reg2 : Register)
    (st : EVMStackAlloc) (nodup : st.stack.Nodup) (apart : reg1 ≠ reg2)
    (present1 : (st.lookup reg1).region ≠ .NONSTACK → reg1 ∈ st.stack)
    (present2 : (st.lookup reg2).region ≠ .NONSTACK → reg2 ∈ st.stack) :
    KeepsLive F ref reg1 reg2 st ↔
      ¬ ((st.lookup reg1).region ≠ .NONSTACK ∧ (st.lookup reg2).region ≠ .NONSTACK ∧
        missesCopy reg1 reg2 (regIsLastUse F st.MRI ref reg1) (regIsLastUse F st.MRI ref reg2)
          st.stack) := by
  constructor
  · intro keeps arrangement
    obtain ⟨onStack1, onStack2, misses⟩ := arrangement
    exact not_keepsLive_of_missesCopy apart nodup onStack1 onStack2 (present1 onStack1)
      (present2 onStack2) misses keeps
  · intro copied
    apply keepsLive_of_copies apart nodup present1 present2
    intro onStack1 onStack2 misses
    exact copied ⟨onStack1, onStack2, misses⟩

/-- Both operands of the subtraction die, and nothing is left. -/
theorem straightLine_keepsLive :
    KeepsLive straightLine subtraction 1 2 (stateBefore straightLine 2) := by
  apply (keepsLive_iff straightLine subtraction 1 2 (stateBefore straightLine 2) (by decide)
    (by decide) (fun _ => by decide) (fun _ => by decide)).mpr
  decide

def segment (first last : Nat) : LiveInterval :=
  ⟨[(⟨0, first, 2⟩, ⟨0, last, 2⟩)], List.cons_ne_nil _ _⟩

/-- `r1 := 1; r2 := 2; r3 := 3; r4 := r1 - r2; r5 := r2 + r3; return r5, r4`, all
local to the block. -/
def subtrahendReadAgain : MachineFunction where
  blocks := [
    ⟨[⟨.inst 0x60, some 1, [.imm 1]⟩, ⟨.inst 0x60, some 2, [.imm 2]⟩,
      ⟨.inst 0x60, some 3, [.imm 3]⟩, ⟨.inst 0x03, some 4, [.reg 1, .reg 2]⟩,
      ⟨.inst 0x01, some 5, [.reg 2, .reg 3]⟩, ⟨.inst 0xf3, none, [.reg 5, .reg 4]⟩], [], []⟩]
  getInterval := fun reg =>
    if reg = 1 then segment 2 11
    else if reg = 2 then segment 5 14
    else if reg = 3 then segment 8 14
    else if reg = 4 then segment 11 17
    else segment 14 17
  hasEntry := List.cons_ne_nil _ _
  edges := by decide
  nonzero := by decide

def firstSubtraction : InstrRef := ⟨0, 3, ⟨.inst 0x03, some 4, [.reg 1, .reg 2]⟩⟩

/-- The stack is `r3, r2, r1`. One exchange brings `r1` up, the subtraction takes
`r1` and `r2`, and only `r3` is left for the addition of `r2` and `r3`. -/
theorem subtrahend_lost :
    firstSubtraction ∈ bodyRefs subtrahendReadAgain 0 ∧
      (stateBefore subtrahendReadAgain 3).stack = [3, 2, 1] ∧
      (stateBefore subtrahendReadAgain 3).Located 1 ∧
      (stateBefore subtrahendReadAgain 3).Located 2 ∧
      ¬ KeepsLive subtrahendReadAgain firstSubtraction 1 2 (stateBefore subtrahendReadAgain 3) := by
  refine ⟨by decide, by decide, Or.inr ⟨by decide, by decide⟩, Or.inr ⟨by decide, by decide⟩, ?_⟩
  intro keeps
  obtain ⟨ready, next, done, popped, left⟩ := keeps
  have remaining : ((handleBinaryOpcode subtrahendReadAgain firstSubtraction 1 2
      (stateBefore subtrahendReadAgain 3)).bind (popUses 2)).map EVMStackAlloc.stack =
        some [3] := by decide
  rw [done, Option.bind_some, popped, Option.map_some] at remaining
  rw [Option.some.inj remaining] at left
  exact absurd left.length_eq (by decide)

end EvmBackend.EVMStackAlloc
