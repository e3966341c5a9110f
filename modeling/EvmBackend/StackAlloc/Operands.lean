/-
Where the operands of an instruction are once they are prepared: the first on
top of the symbolic stack and the second below it, whatever mix of loads,
copies and exchanges brought them there.

The second half counts entries: preparation succeeds when the operands are
where they are looked for, and leaves a copy of every register that is read
again.
-/

import EvmBackend.StackAlloc.Insertions

namespace EvmBackend.EVMStackAlloc

open List Option

variable {F : MachineFunction} {ref : InstrRef} {st next : EVMStackAlloc}

theorem insertSwapBefore_stack {depth : Nat} (done : insertSwapBefore depth st = some next) :
    Stacks.swapTop depth st.stack = some next.stack := by
  obtain ⟨swapped, exchanged, rfl⟩ := map_eq_some_iff.mp done
  exact exchanged

theorem SwapRegToTop_stack {reg : Register} (done : SwapRegToTop reg st = some next) :
    ∃ depth, Stacks.depthOf reg st.stack = some depth ∧
      Stacks.swapTop depth st.stack = some next.stack := by
  obtain ⟨depth, found, done⟩ := bind_eq_some_iff.mp done
  refine ⟨depth, found, ?_⟩
  by_cases top : depth ≠ 0
  · rw [if_pos top] at done
    exact insertSwapBefore_stack done
  · rw [if_neg top] at done
    cases done
    have zero : depth = 0 := by omega
    subst depth
    rfl

theorem DupRegToTop_stack {reg : Register} (done : DupRegToTop reg st = some next) :
    next.stack = reg :: st.stack := by
  obtain ⟨depth, found, done⟩ := bind_eq_some_iff.mp done
  obtain ⟨copied, duplicated, rfl⟩ := map_eq_some_iff.mp done
  obtain ⟨entry, here, rfl⟩ := Stacks.dupTop_eq_some duplicated
  have known := (Stacks.depthOf_eq_some found).1
  rw [Nat.add_sub_cancel] at here
  rw [here] at known
  rw [Option.some.inj known]

theorem SwapRegToTop_top {reg : Register} (done : SwapRegToTop reg st = some next) :
    next.stack[0]? = some reg := by
  obtain ⟨depth, found, exchanged⟩ := SwapRegToTop_stack done
  rw [Stacks.swapTop_getElem? exchanged, if_pos rfl]
  exact (Stacks.depthOf_eq_some found).1

theorem SwapRegToTop_second {reg other : Register} (done : SwapRegToTop reg st = some next)
    (apart : other ≠ reg) (second : st.stack[1]? = some other) :
    next.stack[1]? = some other := by
  obtain ⟨depth, found, exchanged⟩ := SwapRegToTop_stack done
  have here := (Stacks.depthOf_eq_some found).1
  have notSecond : ¬ 1 = depth := by
    rintro rfl
    rw [second] at here
    exact apart (Option.some.inj here)
  rw [Stacks.swapTop_getElem? exchanged, if_neg (by decide), if_neg notSecond]
  exact second

theorem SwapRegToTop_exchanges {reg other : Register} (done : SwapRegToTop reg st = some next)
    (apart : other ≠ reg) (top : st.stack[0]? = some other) (second : st.stack[1]? = some reg) :
    next.stack[1]? = some other := by
  obtain ⟨depth, found, exchanged⟩ := SwapRegToTop_stack done
  have isSecond : Stacks.depthOf reg st.stack = some 1 := by
    refine Stacks.depthOf_eq_of_first second fun index less same => ?_
    have zero : index = 0 := by omega
    subst index
    rw [top] at same
    exact apart (Option.some.inj same)
  rw [isSecond] at found
  cases found
  rw [Stacks.swapTop_getElem? exchanged, if_neg (by decide), if_pos rfl]
  exact top

theorem insertSwapBefore_one {reg : Register} (done : insertSwapBefore 1 st = some next)
    (top : st.stack[0]? = some reg) :
    next.stack[1]? = some reg ∧ next.stack[0]? = st.stack[1]? := by
  have exchanged := insertSwapBefore_stack done
  refine ⟨?_, ?_⟩
  · rw [Stacks.swapTop_getElem? exchanged, if_neg (by decide), if_pos rfl]
    exact top
  · rw [Stacks.swapTop_getElem? exchanged, if_pos rfl]

theorem handleUnaryOpcode_top {reg : Register} (done : handleUnaryOpcode F ref reg st = some next) :
    next.stack[0]? = some reg := by
  unfold handleUnaryOpcode at done
  by_cases inMemory : (st.lookup reg).region = .NONSTACK
  · simp only [inMemory, if_true] at done
    cases done
    rfl
  · simp only [inMemory, if_false] at done
    obtain ⟨depth, found, done⟩ := bind_eq_some_iff.mp done
    by_cases last : regIsLastUse F st.MRI ref reg
    · rw [if_pos last] at done
      have swapped : SwapRegToTop reg st = some next := by
        simp only [SwapRegToTop, found, bind_eq_bind, bind_some]
        exact done
      exact SwapRegToTop_top swapped
    · rw [if_neg last] at done
      have copied : DupRegToTop reg st = some next := by
        simp only [DupRegToTop, found, bind_eq_bind, bind_some]
        exact done
      rw [DupRegToTop_stack copied]
      rfl

variable {reg1 reg2 : Register}

/-- Two stack operands: unless one register is both and is consumed, the first
ends up on top and the second below it. -/
theorem handleStackOperands_top {lastUse1 lastUse2 : Bool}
    (done : handleStackOperands reg1 reg2 lastUse1 lastUse2 st = some next)
    (distinct : reg1 = reg2 → lastUse1 = false ∧ lastUse2 = false) :
    next.stack[0]? = some reg1 ∧ next.stack[1]? = some reg2 := by
  obtain ⟨depth1, found1, done⟩ := bind_eq_some_iff.mp done
  obtain ⟨depth2, found2, done⟩ := bind_eq_some_iff.mp done
  have here1 := (Stacks.depthOf_eq_some found1).1
  have here2 := (Stacks.depthOf_eq_some found2).1
  cases last1 : lastUse1 with
  | false =>
      cases last2 : lastUse2 with
      | false =>
          simp only [last1, last2, bind_eq_bind] at done
          obtain ⟨middle, first, done⟩ := bind_eq_some_iff.mp done
          rw [DupRegToTop_stack done, DupRegToTop_stack first]
          exact ⟨rfl, rfl⟩
      | true =>
          simp only [last1, last2, bind_eq_bind] at done
          obtain ⟨middle, first, done⟩ := bind_eq_some_iff.mp done
          rw [DupRegToTop_stack done]
          exact ⟨rfl, SwapRegToTop_top first⟩
  | true =>
      have apart : reg2 ≠ reg1 := by
        intro same
        have never := (distinct same.symm).1
        rw [last1] at never
        cases never
      cases last2 : lastUse2 with
      | false =>
          simp only [last1, last2, bind_eq_bind] at done
          by_cases top1 : depth1 = 0
          · rw [if_pos top1] at done
            obtain ⟨middle, first, done⟩ := bind_eq_some_iff.mp done
            have copied := DupRegToTop_stack first
            rw [top1] at here1
            refine ⟨SwapRegToTop_top done, SwapRegToTop_exchanges done apart ?_ ?_⟩
            · rw [copied]
              rfl
            · rw [copied]
              exact here1
          · rw [if_neg top1] at done
            by_cases second : depth2 = 1
            · rw [if_pos second] at done
              rw [second] at here2
              exact ⟨SwapRegToTop_top done, SwapRegToTop_second done apart here2⟩
            · rw [if_neg second] at done
              obtain ⟨copiedState, first, done⟩ := bind_eq_some_iff.mp done
              obtain ⟨middle, exchanged, done⟩ := bind_eq_some_iff.mp done
              have copied := DupRegToTop_stack first
              have placed := insertSwapBefore_one exchanged (by rw [copied]; rfl)
              exact ⟨SwapRegToTop_top done, SwapRegToTop_second done apart placed.1⟩
      | true =>
          simp only [last1, last2, bind_eq_bind] at done
          by_cases ready : depth1 = 0 ∧ depth2 = 1
          · rw [if_pos ready] at done
            cases done
            rw [ready.1] at here1
            rw [ready.2] at here2
            exact ⟨here1, here2⟩
          · rw [if_neg ready] at done
            by_cases top1 : depth1 = 0 ∧ depth2 ≠ 1
            · rw [if_pos top1] at done
              obtain ⟨lowered, exchanged, done⟩ := bind_eq_some_iff.mp done
              obtain ⟨middle, raised, done⟩ := bind_eq_some_iff.mp done
              rw [top1.1] at here1
              have placed := insertSwapBefore_one exchanged here1
              refine ⟨SwapRegToTop_top done, SwapRegToTop_exchanges done apart ?_ ?_⟩
              · exact SwapRegToTop_top raised
              · exact SwapRegToTop_second raised (Ne.symm apart) placed.1
            · rw [if_neg top1] at done
              by_cases second : depth1 ≠ 0 ∧ depth2 = 1
              · rw [if_pos second] at done
                rw [second.2] at here2
                exact ⟨SwapRegToTop_top done, SwapRegToTop_second done apart here2⟩
              · rw [if_neg second] at done
                by_cases reversed : depth1 = 1 ∧ depth2 = 0
                · rw [if_pos reversed] at done
                  rw [reversed.1] at here1
                  rw [reversed.2] at here2
                  have placed := insertSwapBefore_one done here2
                  exact ⟨placed.2.trans here1, placed.1⟩
                · rw [if_neg reversed] at done
                  obtain ⟨raised, raising, done⟩ := bind_eq_some_iff.mp done
                  obtain ⟨lowered, exchanged, done⟩ := bind_eq_some_iff.mp done
                  have placed := insertSwapBefore_one exchanged (SwapRegToTop_top raising)
                  exact ⟨SwapRegToTop_top done, SwapRegToTop_second done apart placed.1⟩

theorem handleBinaryOpcode_top (done : handleBinaryOpcode F ref reg1 reg2 st = some next)
    (distinct : reg1 = reg2 → (st.lookup reg1).region ≠ .NONSTACK → regIsLastUse F st.MRI ref reg1 = false) :
    next.stack[0]? = some reg1 ∧ next.stack[1]? = some reg2 := by
  unfold handleBinaryOpcode at done
  by_cases memory1 : (st.lookup reg1).region = .NONSTACK
  · by_cases memory2 : (st.lookup reg2).region = .NONSTACK
    · simp only [memory1, memory2, and_self, if_true] at done
      cases done
      exact ⟨rfl, rfl⟩
    · simp only [memory1, memory2, and_false, if_true, if_false, bind_eq_bind] at done
      split at done
      · obtain ⟨middle, begun, done⟩ := bind_eq_some_iff.mp done
        cases done
        exact ⟨rfl, SwapRegToTop_top begun⟩
      · obtain ⟨middle, begun, done⟩ := bind_eq_some_iff.mp done
        cases done
        refine ⟨rfl, ?_⟩
        change middle.stack[0]? = some reg2
        rw [DupRegToTop_stack begun]
        rfl
  · simp only [memory1, false_and, if_false] at done
    by_cases memory2 : (st.lookup reg2).region = .NONSTACK
    · simp only [memory2, if_true, bind_eq_bind] at done
      have apart : reg2 ≠ reg1 := by
        rintro rfl
        exact memory1 memory2
      split at done
      · obtain ⟨middle, begun, done⟩ := bind_eq_some_iff.mp done
        exact ⟨SwapRegToTop_top done,
          SwapRegToTop_exchanges done apart rfl (SwapRegToTop_top begun)⟩
      · rw [DupRegToTop_stack done]
        exact ⟨rfl, rfl⟩
    · simp only [memory2, if_false] at done
      refine handleStackOperands_top done fun same => ?_
      subst same
      exact ⟨distinct rfl memory1, distinct rfl memory1⟩

theorem handleUses_operands (done : handleUses F ref st = some next)
    (few : ref.instr.useRegisters.length ≤ 2)
    (distinct : ∀ reg, ref.instr.useRegisters = [reg, reg] →
      (st.lookup reg).region ≠ .NONSTACK → regIsLastUse F st.MRI ref reg = false) :
    ∃ ready, Prepares ref st ready ∧ ready.stack = ref.instr.useRegisters ++ next.stack ∧
      next = { ready with stack := next.stack } := by
  obtain ⟨uses, known, done⟩ := bind_eq_some_iff.mp done
  have operands := calculateUseRegs_operands known
  have names := (calculateUseRegs_eq_some known).1
  rw [← names] at few distinct ⊢
  match uses, operands, done with
  | [], _, done =>
      cases done
      exact ⟨st, .refl, rfl, rfl⟩
  | [use], operands, done =>
      obtain ⟨ready, begun, popped⟩ := bind_eq_some_iff.mp done
      obtain ⟨enough, rfl⟩ := popUses_eq_some popped
      have top := handleUnaryOpcode_top begun
      refine ⟨ready, handleUnaryOpcode_prepares (operands use (by simp)) begun, ?_, rfl⟩
      match entries : ready.stack with
      | [] => simp [entries] at top
      | first :: rest =>
          rw [entries] at top
          cases top
          rfl
  | [use1, use2], operands, done =>
      obtain ⟨ready, begun, popped⟩ := bind_eq_some_iff.mp done
      obtain ⟨enough, rfl⟩ := popUses_eq_some popped
      have places := handleBinaryOpcode_top begun fun same onStack => by
        apply distinct use1.reg ?_ onStack
        simp [same]
      refine ⟨ready, handleBinaryOpcode_prepares (operands use1 (by simp)) (operands use2 (by simp))
        begun, ?_, rfl⟩
      match entries : ready.stack with
      | [] => simp [entries] at places
      | [_] => simp [entries] at places
      | first :: second :: rest =>
          rw [entries] at places
          obtain ⟨top, below⟩ := places
          cases top
          cases below
          rfl
  | first :: second :: third :: rest, _, _ =>
      simp only [map_cons, length_cons] at few
      omega

/-! ### Preparation succeeds -/

theorem insertSwapBefore_total {depth : Nat} (within : depth < st.stack.length) :
    ∃ next, insertSwapBefore depth st = some next ∧ next.stack.Perm st.stack := by
  obtain ⟨swapped, exchanged⟩ := Stacks.swapTop_isSome within
  exact ⟨_, by rw [insertSwapBefore, exchanged]; rfl, Stacks.swapTop_perm exchanged⟩

theorem SwapRegToTop_total {reg : Register} (member : reg ∈ st.stack) :
    ∃ next, SwapRegToTop reg st = some next ∧ next.stack.Perm st.stack := by
  obtain ⟨depth, found⟩ := Stacks.depthOf_isSome member
  have within := Stacks.depthOf_lt found
  by_cases top : depth ≠ 0
  · obtain ⟨next, done, same⟩ := insertSwapBefore_total within
    refine ⟨next, ?_, same⟩
    simp only [SwapRegToTop, findRegDepth, found, bind_eq_bind, bind_some, if_pos top,
      done]
  · refine ⟨st, ?_, List.Perm.refl _⟩
    simp only [SwapRegToTop, findRegDepth, found, bind_eq_bind, bind_some, if_neg top]

theorem DupRegToTop_total {reg : Register} (member : reg ∈ st.stack) :
    ∃ next, DupRegToTop reg st = some next ∧ next.stack = reg :: st.stack := by
  obtain ⟨depth, found⟩ := Stacks.depthOf_isSome member
  obtain ⟨copied, duplicated⟩ := Stacks.dupTop_isSome (Stacks.depthOf_lt found)
  have done : DupRegToTop reg st =
      some { st with before := st.before ++ [.DUP_r (depth + 1)], stack := copied } := by
    simp only [DupRegToTop, findRegDepth, found, bind_eq_bind, bind_some,
      insertDupBefore, Nat.add_sub_cancel, duplicated, map_some]
  exact ⟨_, done, DupRegToTop_stack done⟩

/-- The operands that are copied rather than moved: those in memory and those
that are read again. -/
def copiesOf (F : MachineFunction) (ref : InstrRef) (st : EVMStackAlloc) (regs : List Register) :
    List Register :=
  regs.filter fun reg =>
    decide ((st.lookup reg).region = .NONSTACK) || !regIsLastUse F st.MRI ref reg

theorem handleUnaryOpcode_total {reg : Register}
    (present : (st.lookup reg).region ≠ .NONSTACK → reg ∈ st.stack) :
    ∃ next, handleUnaryOpcode F ref reg st = some next ∧
      next.stack.Perm (copiesOf F ref st [reg] ++ st.stack) := by
  by_cases inMemory : (st.lookup reg).region = .NONSTACK
  · refine ⟨insertLoadFromMemoryBefore reg ref (st.lookup reg).slot st, ?_, ?_⟩
    · simp only [handleUnaryOpcode, inMemory, if_true]
    · simp [copiesOf, inMemory, insertLoadFromMemoryBefore]
  · obtain ⟨depth, found⟩ := Stacks.depthOf_isSome (present inMemory)
    cases last : regIsLastUse F st.MRI ref reg with
    | true =>
        obtain ⟨next, done, same⟩ := SwapRegToTop_total (present inMemory)
        refine ⟨next, ?_, by simpa [copiesOf, inMemory, last] using same⟩
        simpa only [handleUnaryOpcode, inMemory, if_false, last, if_true, SwapRegToTop] using done
    | false =>
        obtain ⟨next, done, same⟩ := DupRegToTop_total (present inMemory)
        refine ⟨next, ?_, by simp [copiesOf, inMemory, last, same]⟩
        simpa only [handleUnaryOpcode, inMemory, if_false, last, Bool.false_eq_true,
          DupRegToTop] using done

/-- The one arrangement in which a register that is read again is not copied:
it is second from the top, and the other operand is consumed from further down. -/
def missesCopy (reg1 reg2 : Register) (lastUse1 lastUse2 : Bool) (stack : List Register) : Prop :=
  lastUse1 = true ∧ lastUse2 = false ∧ Stacks.depthOf reg1 stack ≠ some 0 ∧
    Stacks.depthOf reg2 stack = some 1

instance (reg1 reg2 : Register) (lastUse1 lastUse2 : Bool) (stack : List Register) :
    Decidable (missesCopy reg1 reg2 lastUse1 lastUse2 stack) :=
  inferInstanceAs (Decidable (lastUse1 = true ∧ lastUse2 = false ∧
    Stacks.depthOf reg1 stack ≠ some 0 ∧ Stacks.depthOf reg2 stack = some 1))

private theorem two_le_length {entries : List Register} (apart : reg1 ≠ reg2)
    (member1 : reg1 ∈ entries) (member2 : reg2 ∈ entries) : 1 < entries.length := by
  match entries with
  | [] => cases member1
  | [only] =>
      rw [mem_singleton] at member1 member2
      exact absurd (member1.trans member2.symm) apart
  | _ :: _ :: _ => simp

section Chains

variable {entries : List Register} {reg : Register}

private theorem swap_of_perm (same : st.stack.Perm entries) (member : reg ∈ entries) :
    ∃ next, SwapRegToTop reg st = some next ∧ next.stack.Perm entries := by
  obtain ⟨next, done, kept⟩ := SwapRegToTop_total (same.mem_iff.mpr member)
  exact ⟨next, done, kept.trans same⟩

private theorem dup_of_perm (same : st.stack.Perm entries) (member : reg ∈ entries) :
    ∃ next, DupRegToTop reg st = some next ∧ next.stack.Perm (reg :: entries) := by
  obtain ⟨next, done, stack⟩ := DupRegToTop_total (same.mem_iff.mpr member)
  exact ⟨next, done, by rw [stack]; exact same.cons reg⟩

private theorem swapOne_of_perm (same : st.stack.Perm entries) (two : 1 < entries.length) :
    ∃ next, insertSwapBefore 1 st = some next ∧ next.stack.Perm entries := by
  obtain ⟨next, done, kept⟩ := insertSwapBefore_total (by rw [same.length_eq]; exact two)
  exact ⟨next, done, kept.trans same⟩

private theorem bind_of_perm {first second : EVMStackAlloc → Option EVMStackAlloc}
    {middleEntries : List Register}
    (begins : ∃ middle, first st = some middle ∧ middle.stack.Perm middleEntries)
    (continues : ∀ middle : EVMStackAlloc, middle.stack.Perm middleEntries →
      ∃ next, second middle = some next ∧ next.stack.Perm entries) :
    ∃ next, (first st).bind second = some next ∧ next.stack.Perm entries := by
  obtain ⟨middle, begun, same⟩ := begins
  obtain ⟨next, done, kept⟩ := continues middle same
  exact ⟨next, by rw [begun]; exact done, kept⟩

end Chains

theorem handleStackOperands_total {lastUse1 lastUse2 : Bool} (member1 : reg1 ∈ st.stack)
    (member2 : reg2 ∈ st.stack) (distinct : reg1 = reg2 → lastUse1 = false ∧ lastUse2 = false)
    (copies : ¬ missesCopy reg1 reg2 lastUse1 lastUse2 st.stack) :
    ∃ next, handleStackOperands reg1 reg2 lastUse1 lastUse2 st = some next ∧
      next.stack.Perm ((if lastUse1 then [] else [reg1]) ++ (if lastUse2 then [] else [reg2]) ++
        st.stack) := by
  obtain ⟨depth1, found1⟩ := Stacks.depthOf_isSome member1
  obtain ⟨depth2, found2⟩ := Stacks.depthOf_isSome member2
  have start : st.stack.Perm st.stack := List.Perm.refl _
  simp only [handleStackOperands, findRegDepth, found1, found2, bind_eq_bind,
    bind_some]
  cases last1 : lastUse1 with
  | false =>
      cases last2 : lastUse2 with
      | false =>
          exact bind_of_perm (dup_of_perm start member2) fun _ same =>
            dup_of_perm same (mem_cons_of_mem _ member1)
      | true =>
          exact bind_of_perm (swap_of_perm start member2) fun _ same => dup_of_perm same member1
  | true =>
      have apart : reg1 ≠ reg2 := by
        intro same
        rw [(distinct same).1] at last1
        cases last1
      have two := two_le_length apart member1 member2
      cases last2 : lastUse2 with
      | false =>
          have copied1 : reg1 ∈ reg2 :: st.stack := mem_cons_of_mem _ member1
          dsimp only
          by_cases top1 : depth1 = 0
          · rw [if_pos top1]
            exact bind_of_perm (dup_of_perm start member2) fun _ same => swap_of_perm same copied1
          · rw [if_neg top1]
            by_cases second : depth2 = 1
            · refine absurd ⟨last1, last2, ?_, ?_⟩ copies
              · rw [found1]
                simpa using top1
              · rw [found2, second]
            · rw [if_neg second]
              refine bind_of_perm (dup_of_perm start member2) fun _ same => ?_
              exact bind_of_perm (swapOne_of_perm same (by simp; omega)) fun _ exchanged =>
                swap_of_perm exchanged copied1
      | true =>
          dsimp only
          by_cases ready : depth1 = 0 ∧ depth2 = 1
          · rw [if_pos ready]
            exact ⟨st, rfl, start⟩
          · rw [if_neg ready]
            by_cases top1 : depth1 = 0 ∧ depth2 ≠ 1
            · rw [if_pos top1]
              refine bind_of_perm (swapOne_of_perm start two) fun _ same => ?_
              exact bind_of_perm (swap_of_perm same member2) fun _ raised =>
                swap_of_perm raised member1
            · rw [if_neg top1]
              by_cases second : depth1 ≠ 0 ∧ depth2 = 1
              · rw [if_pos second]
                exact swap_of_perm start member1
              · rw [if_neg second]
                by_cases reversed : depth1 = 1 ∧ depth2 = 0
                · rw [if_pos reversed]
                  exact swapOne_of_perm start two
                · rw [if_neg reversed]
                  refine bind_of_perm (swap_of_perm start member2) fun _ same => ?_
                  exact bind_of_perm (swapOne_of_perm same two) fun _ exchanged =>
                    swap_of_perm exchanged member1

theorem handleBinaryOpcode_total
    (present1 : (st.lookup reg1).region ≠ .NONSTACK → reg1 ∈ st.stack)
    (present2 : (st.lookup reg2).region ≠ .NONSTACK → reg2 ∈ st.stack)
    (distinct : reg1 = reg2 → (st.lookup reg1).region ≠ .NONSTACK → regIsLastUse F st.MRI ref reg1 = false)
    (copies : (st.lookup reg1).region ≠ .NONSTACK → (st.lookup reg2).region ≠ .NONSTACK →
      ¬ missesCopy reg1 reg2 (regIsLastUse F st.MRI ref reg1) (regIsLastUse F st.MRI ref reg2) st.stack) :
    ∃ next, handleBinaryOpcode F ref reg1 reg2 st = some next ∧
      next.stack.Perm (copiesOf F ref st [reg1, reg2] ++ st.stack) := by
  have start : st.stack.Perm st.stack := List.Perm.refl _
  by_cases memory1 : (st.lookup reg1).region = .NONSTACK
  · by_cases memory2 : (st.lookup reg2).region = .NONSTACK
    · refine ⟨insertLoadFromMemoryBefore reg1 ref (st.lookup reg1).slot
        (insertLoadFromMemoryBefore reg2 ref (st.lookup reg2).slot st), ?_, ?_⟩
      · simp only [handleBinaryOpcode, memory1, memory2, and_self, if_true]
      · simp [copiesOf, memory1, memory2, insertLoadFromMemoryBefore]
    · have member2 := present2 memory2
      simp only [handleBinaryOpcode, memory1, memory2, and_false, if_true, if_false,
        bind_eq_bind]
      cases last2 : regIsLastUse F st.MRI ref reg2 with
      | true =>
          refine bind_of_perm (swap_of_perm start member2) fun middle same => ⟨_, rfl, ?_⟩
          simpa [copiesOf, memory1, memory2, last2, insertLoadFromMemoryBefore] using same
      | false =>
          refine bind_of_perm (dup_of_perm start member2) fun middle same => ⟨_, rfl, ?_⟩
          simpa [copiesOf, memory1, memory2, last2, insertLoadFromMemoryBefore] using same
  · have member1 := present1 memory1
    by_cases memory2 : (st.lookup reg2).region = .NONSTACK
    · have loaded : reg1 ∈ reg2 :: st.stack := mem_cons_of_mem _ member1
      simp only [handleBinaryOpcode, memory1, memory2, false_and, if_true, if_false,
        bind_eq_bind]
      cases last1 : regIsLastUse F st.MRI ref reg1 with
      | true =>
          refine bind_of_perm (swap_of_perm start member1) fun middle same => ?_
          have pushed : (insertLoadFromMemoryBefore reg2 ref (st.lookup reg2).slot middle).stack.Perm
              (reg2 :: st.stack) := same.cons reg2
          obtain ⟨next, done, kept⟩ := swap_of_perm pushed loaded
          exact ⟨next, done, by simpa [copiesOf, memory1, memory2, last1] using kept⟩
      | false =>
          have pushed : (insertLoadFromMemoryBefore reg2 ref (st.lookup reg2).slot st).stack.Perm
              (reg2 :: st.stack) := List.Perm.refl _
          obtain ⟨next, done, kept⟩ := dup_of_perm pushed loaded
          exact ⟨next, done, by simpa [copiesOf, memory1, memory2, last1] using kept⟩
    · have member2 := present2 memory2
      simp only [handleBinaryOpcode, memory1, memory2, false_and, if_false]
      obtain ⟨next, done, kept⟩ := handleStackOperands_total member1 member2
        (fun same => by subst same; exact ⟨distinct rfl memory1, distinct rfl memory1⟩)
        (copies memory1 memory2)
      refine ⟨next, done, ?_⟩
      cases last1 : regIsLastUse F st.MRI ref reg1 <;>
        cases last2 : regIsLastUse F st.MRI ref reg2 <;>
          simpa [copiesOf, memory1, memory2, last1, last2] using kept

theorem handleArbitraryUses_total (ref : InstrRef) {uses : List RegUseType}
    (present : ∀ use ∈ uses, use.isMemUse = false → use.reg ∈ st.stack) :
    ∃ next, Runs.run (handleArbitraryUse ref) uses st = some next ∧
      next.stack = (uses.map RegUseType.reg).reverse ++ st.stack := by
  induction uses generalizing st with
  | nil => exact ⟨st, rfl, rfl⟩
  | cons first rest ih =>
      have steps : ∃ middle, handleArbitraryUse ref first st = some middle ∧
          middle.stack = first.reg :: st.stack := by
        cases inMemory : first.isMemUse with
        | true =>
            refine ⟨insertLoadFromMemoryBefore first.reg ref (st.lookup first.reg).slot st, ?_, rfl⟩
            simp only [handleArbitraryUse, inMemory, if_true]
        | false =>
            obtain ⟨middle, done, stack⟩ :=
              DupRegToTop_total (present first mem_cons_self inMemory)
            refine ⟨middle, ?_, stack⟩
            simpa only [handleArbitraryUse, inMemory, Bool.false_eq_true, if_false,
              DupRegToTop] using done
      obtain ⟨middle, stepped, stack⟩ := steps
      have stillPresent : ∀ use ∈ rest, use.isMemUse = false → use.reg ∈ middle.stack := by
        intro use member onStack
        rw [stack]
        exact mem_cons_of_mem _ (present use (mem_cons_of_mem first member) onStack)
      obtain ⟨next, done, final⟩ := ih stillPresent
      refine ⟨next, by rw [Runs.run_cons, stepped]; exact done, ?_⟩
      rw [final, stack]
      simp

theorem popUses_total {count : Nat} (enough : count ≤ st.stack.length) :
    popUses count st = some { st with stack := st.stack.drop count } := by
  induction count generalizing st with
  | zero => rfl
  | succ count ih =>
      match entries : st.stack with
      | [] =>
          rw [entries] at enough
          simp at enough
      | top :: rest =>
          have popped : st.pop = some { st with stack := rest } := by
            simp only [pop, entries]
          rw [popUses, popped, bind_some, ih]
          · simp
          · rw [entries] at enough
            exact Nat.le_of_succ_le_succ enough

theorem calculateUseRegs_total
    (present : ∀ reg ∈ ref.instr.useRegisters, (st.lookup reg).region ≠ .NONSTACK →
      reg ∈ st.stack) :
    ∃ uses, calculateUseRegs F ref st = some uses := by
  unfold calculateUseRegs
  generalize ref.instr.useRegisters = regs at present
  induction regs with
  | nil => exact ⟨[], rfl⟩
  | cons first rest ih =>
      obtain ⟨others, later⟩ := ih fun reg member => present reg (mem_cons_of_mem first member)
      have here : ∃ use, calculateUse F ref st first = some use := by
        unfold calculateUse
        by_cases inMemory : (st.lookup first).region = .NONSTACK
        · exact ⟨_, if_pos inMemory⟩
        · obtain ⟨depth, found⟩ := Stacks.depthOf_isSome (present first mem_cons_self inMemory)
          exact ⟨_, by simp only [inMemory, if_false, findRegDepth, found, map_some]; rfl⟩
      obtain ⟨use, known⟩ := here
      exact ⟨use :: others, by simp [mapM_cons, known, later]⟩

/-- Two stack operands are neither one register that is consumed twice nor the
arrangement that misses a copy. -/
def OperandsMovable (F : MachineFunction) (ref : InstrRef) (st : EVMStackAlloc) : Prop :=
  ∀ reg1 ∈ ref.instr.useRegisters, ∀ reg2 ∈ ref.instr.useRegisters,
    ref.instr.useRegisters = [reg1, reg2] → (st.lookup reg1).region ≠ .NONSTACK →
      (st.lookup reg2).region ≠ .NONSTACK →
        (reg1 = reg2 → regIsLastUse F st.MRI ref reg1 = false) ∧
          ¬ missesCopy reg1 reg2 (regIsLastUse F st.MRI ref reg1) (regIsLastUse F st.MRI ref reg2)
            st.stack

instance (F : MachineFunction) (ref : InstrRef) (st : EVMStackAlloc) :
    Decidable (OperandsMovable F ref st) :=
  inferInstanceAs (Decidable (∀ reg1 ∈ ref.instr.useRegisters, ∀ reg2 ∈ ref.instr.useRegisters,
    ref.instr.useRegisters = [reg1, reg2] → (st.lookup reg1).region ≠ .NONSTACK →
      (st.lookup reg2).region ≠ .NONSTACK →
        (reg1 = reg2 → regIsLastUse F st.MRI ref reg1 = false) ∧
          ¬ missesCopy reg1 reg2 (regIsLastUse F st.MRI ref reg1) (regIsLastUse F st.MRI ref reg2)
            st.stack))

private theorem mem_of_perm_copies {uses rest copies entries : List Register} {reg : Register}
    (same : (uses ++ rest).Perm (copies ++ entries)) (member : reg ∈ entries)
    (copied : uses.count reg ≤ copies.count reg) : reg ∈ rest := by
  have counts := same.count_eq reg
  rw [count_append, count_append] at counts
  have positive := count_pos_iff.mpr member
  exact count_pos_iff.mp (by omega)

private theorem count_copiesOf {regs : List Register} {reg : Register}
    (again : reg ∈ regs → regIsLastUse F st.MRI ref reg = false) :
    regs.count reg ≤ (copiesOf F ref st regs).count reg := by
  by_cases member : reg ∈ regs
  · unfold copiesOf
    rw [count_filter (by simp [again member])]
  · rw [count_eq_zero.mpr member]
    exact Nat.zero_le _

private theorem popOperands_total {ready : EVMStackAlloc} {regs : List Register}
    (same : ready.stack.Perm (copiesOf F ref st regs ++ st.stack))
    {rest : List Register} (entries : ready.stack = regs ++ rest) :
    ∃ next, popUses regs.length ready = some next ∧
      ∀ reg ∈ st.stack, (reg ∈ regs → regIsLastUse F st.MRI ref reg = false) →
        reg ∈ next.stack := by
  refine ⟨_, popUses_total (by rw [entries, length_append]; omega), ?_⟩
  intro reg member again
  simp only [entries, drop_left]
  rw [entries] at same
  exact mem_of_perm_copies same member (count_copiesOf again)

private theorem stack_of_top {entries : List Register} {reg : Register}
    (top : entries[0]? = some reg) : ∃ rest, entries = [reg] ++ rest := by
  match entries with
  | [] => cases top
  | first :: rest =>
      cases top
      exact ⟨rest, rfl⟩

theorem stack_of_two {entries : List Register} (top : entries[0]? = some reg1)
    (second : entries[1]? = some reg2) : ∃ rest, entries = [reg1, reg2] ++ rest := by
  match entries with
  | [] => cases top
  | [_] => cases second
  | _ :: _ :: rest =>
      cases top
      cases second
      exact ⟨rest, rfl⟩

/-- The uses of an instruction succeed when its stack operands are on the stack,
and every register that is not consumed stays there. -/
theorem handleUses_total
    (present : ∀ reg ∈ ref.instr.useRegisters, (st.lookup reg).region ≠ .NONSTACK →
      reg ∈ st.stack)
    (movable : OperandsMovable F ref st) :
    ∃ next, handleUses F ref st = some next ∧
      (∀ reg ∈ st.stack, (reg ∈ ref.instr.useRegisters → regIsLastUse F st.MRI ref reg = false) →
        reg ∈ next.stack) ∧
      (3 ≤ ref.instr.useRegisters.length → next.stack = st.stack) := by
  obtain ⟨uses, known⟩ := calculateUseRegs_total (F := F) present
  obtain ⟨names, each⟩ := calculateUseRegs_eq_some known
  unfold OperandsMovable at movable
  rw [← names] at present movable ⊢
  simp only [handleUses, known, bind_eq_bind, bind_some]
  match uses, each, present, movable with
  | [], _, _, _ => exact ⟨st, rfl, fun _ member _ => member, fun _ => rfl⟩
  | [use], _, present, _ =>
      obtain ⟨ready, begun, same⟩ := handleUnaryOpcode_total (present use.reg (by simp))
      obtain ⟨rest, entries⟩ := stack_of_top (handleUnaryOpcode_top begun)
      obtain ⟨next, popped, kept⟩ := popOperands_total same entries
      exact ⟨next, by simp only [begun, bind_some]; exact popped, kept, by simp⟩
  | [use1, use2], _, present, movable =>
      have pair := movable use1.reg (by simp) use2.reg (by simp) (by simp)
      have apart : use1.reg = use2.reg → (st.lookup use1.reg).region ≠ .NONSTACK →
          regIsLastUse F st.MRI ref use1.reg = false :=
        fun same onStack => (pair onStack (by rwa [← same])).1 same
      obtain ⟨ready, begun, same⟩ := handleBinaryOpcode_total (present use1.reg (by simp))
        (present use2.reg (by simp)) apart (fun onStack1 onStack2 => (pair onStack1 onStack2).2)
      obtain ⟨top, second⟩ := handleBinaryOpcode_top begun apart
      obtain ⟨rest, entries⟩ := stack_of_two top second
      obtain ⟨next, popped, kept⟩ := popOperands_total same entries
      exact ⟨next, by simp only [begun, bind_some]; exact popped, kept, by simp⟩
  | first :: second :: third :: rest, each, present, _ =>
      have onStack : ∀ use ∈ (first :: second :: third :: rest).reverse, use.isMemUse = false →
          use.reg ∈ st.stack := by
        intro use member elsewhere
        have listed := mem_reverse.mp member
        refine present use.reg (List.mem_map.mpr ⟨use, listed, rfl⟩) fun inMemory => ?_
        rw [(calculateUse_eq_some (each use listed)).2.2.mpr inMemory] at elsewhere
        cases elsewhere
      obtain ⟨ready, begun, entries⟩ := handleArbitraryUses_total ref onStack
      rw [map_reverse, reverse_reverse] at entries
      have enough : (first :: second :: third :: rest).length ≤ ready.stack.length := by
        rw [entries, length_append, length_map]
        omega
      have unchanged : ready.stack.drop (first :: second :: third :: rest).length = st.stack := by
        rw [entries]
        exact drop_left' (length_map _)
      refine ⟨{ ready with stack := st.stack }, ?_, fun _ member _ => member, fun _ => rfl⟩
      simp only [handleArbitraryOpcode, begun, bind_some]
      rw [popUses_total enough, unchanged]

end EvmBackend.EVMStackAlloc
