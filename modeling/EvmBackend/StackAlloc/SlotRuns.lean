/-
Slots handed out and freed again, in any order. The client knows the slot of each
register it holds; the map agrees with it as long as no slot is asked for while
entry 0 is free. Such a request leaves the register in two entries.
-/

import EvmBackend.StackAlloc.SlotMap
import Mathlib.Data.List.Induction

namespace EvmBackend.EVMStackAlloc

open List Option

inductive SlotRequest
  | allocate (reg : Register)
  | deallocate (reg : Register)
  deriving DecidableEq, Repr

/-- The allocator, the registers present with the slots they were given, and every slot given so far. -/
structure SlotRun where
  alloc : EVMStackAlloc
  held : List (Register × Nat)
  returned : List Nat

namespace SlotRun

def step (run : SlotRun) : SlotRequest → Option SlotRun
  | .allocate reg =>
      let (next, slot) := allocateMemorySlot reg run.alloc
      some ⟨next, run.held ++ [(reg, slot)], run.returned ++ [slot]⟩
  | .deallocate reg =>
      (deallocateMemorySlot reg run.alloc.memoryAssignment).map fun freed =>
        ⟨{ run.alloc with memoryAssignment := freed }, run.held.filter fun entry => entry.1 ≠ reg, run.returned⟩

def after (initial : EVMStackAlloc) (requests : List SlotRequest) : Option SlotRun :=
  requests.foldlM step ⟨initial, [], []⟩

def present : List SlotRequest → List Register :=
  List.foldl (fun registers request =>
    match request with
    | .allocate reg => registers ++ [reg]
    | .deallocate reg => registers.filter (· ≠ reg)) []

/-- Slots are asked for registers that are not present and freed for those that are. -/
inductive Proper : List SlotRequest → Prop
  | none : Proper []
  | allocate {requests : List SlotRequest} {reg : Register} (before : Proper requests) (register : reg ≠ 0)
      (absent : reg ∉ present requests) : Proper (requests ++ [.allocate reg])
  | deallocate {requests : List SlotRequest} {reg : Register} (before : Proper requests)
      (member : reg ∈ present requests) : Proper (requests ++ [.deallocate reg])

structure Faithful (run : SlotRun) : Prop where
  once : ∀ entry ∈ run.held, ∀ index : Nat, run.alloc.memoryAssignment[index]? = some entry.1 ↔ index = entry.2
  last : run.alloc.memoryAssignment.getLast? ≠ some 0
  framed : ∀ slot ∈ run.returned, slot < run.alloc.memoryFrameSize
  frees : ∀ entry ∈ run.held, deallocateMemorySlot entry.1 run.alloc.memoryAssignment ≠ none

/-- The map holds the registers of the client and no others. -/
structure Kept (registers : List Register) (run : SlotRun) : Prop where
  entries : ∀ (index : Nat) (reg : Register), reg ≠ 0 →
    (run.alloc.memoryAssignment[index]? = some reg ↔ (reg, index) ∈ run.held)
  single : ∀ left ∈ run.held, ∀ right ∈ run.held, left.1 = right.1 → left = right
  nonzero : ∀ entry ∈ run.held, entry.1 ≠ 0
  last : run.alloc.memoryAssignment.getLast? ≠ some 0
  length : run.alloc.memoryAssignment.length ≤ run.alloc.memoryFrameSize
  framed : ∀ slot ∈ run.returned, slot < run.alloc.memoryFrameSize
  registers : ∀ reg, reg ∈ registers ↔ reg ∈ run.held.map Prod.fst

variable {run next : SlotRun} {registers : List Register} {reg : Register} {initial : EVMStackAlloc}
  {requests : List SlotRequest}

theorem Kept.start (empty : initial.memoryAssignment = []) : Kept [] ⟨initial, [], []⟩ := by
  refine ⟨fun index reg _ => ?_, fun left member => absurd member not_mem_nil,
    fun entry member => absurd member not_mem_nil, ?_, ?_, fun slot member => absurd member not_mem_nil,
    fun reg => Iff.rfl⟩
  · rw [empty]
    exact iff_of_false (some_ne_none reg).symm not_mem_nil
  · rw [empty]
    exact (some_ne_none 0).symm
  · rw [empty]
    exact Nat.zero_le _

theorem Kept.frees (kept : Kept registers run) {entry : Register × Nat} (member : entry ∈ run.held) :
    deallocateMemorySlot entry.1 run.alloc.memoryAssignment =
      some ((run.alloc.memoryAssignment.set entry.2 0).rdropWhile (· == 0)) := by
  have nonzero := kept.nonzero entry member
  apply deallocateMemorySlot_first ((kept.entries entry.2 entry.1 nonzero).mpr member)
  intro earlier less same
  have also := kept.single _ ((kept.entries earlier entry.1 nonzero).mp same) entry member rfl
  have equal : earlier = entry.2 := congrArg Prod.snd also
  omega

theorem Kept.faithful (kept : Kept registers run) : Faithful run := by
  refine ⟨fun entry member index => ?_, kept.last, kept.framed, fun entry member => ?_⟩
  · rw [kept.entries index entry.1 (kept.nonzero entry member)]
    constructor
    · intro also
      exact congrArg Prod.snd (kept.single _ also entry member rfl)
    · intro same
      rw [same]
      exact member
  · rw [kept.frees member]
    exact some_ne_none _

theorem allocateMemorySlot_once {st : EVMStackAlloc} (taken : st.memoryAssignment[0]? ≠ some 0) (reg : Register) :
    ∃ slot slots size, allocateMemorySlot reg st =
        ({ st with memoryAssignment := slots, memoryFrameSize := size }, slot) ∧
      st.memoryFrameSize ≤ size ∧ (st.memoryAssignment.length ≤ st.memoryFrameSize → slots.length ≤ size) ∧
      slot < slots.length ∧ (st.memoryAssignment.getLast? ≠ some 0 → reg ≠ 0 → slots.getLast? ≠ some 0) ∧
      st.memoryAssignment[slot]?.getD 0 = 0 ∧
      ∀ index : Nat, slots[index]? = if index = slot then some reg else st.memoryAssignment[index]? := by
  cases found : st.memoryAssignment.findIdx? (· == 0) with
  | some index =>
      obtain ⟨free, -⟩ := findIdx?_zero_eq_some found
      obtain ⟨within, -⟩ := List.getElem?_eq_some_iff.mp free
      cases index with
      | zero => exact absurd free taken
      | succ index =>
          refine ⟨index + 1, st.memoryAssignment.set (index + 1) reg, st.memoryFrameSize, ?_, Nat.le_refl _,
            fun fits => ?_, ?_, fun filled register => ?_, ?_, fun place => ?_⟩
          · simp [allocateMemorySlot, found]
          · rw [length_set]
            exact fits
          · rw [length_set]
            exact within
          · rw [getLast?_eq_getElem?, length_set, getElem?_set]
            by_cases atEnd : index + 1 = st.memoryAssignment.length - 1
            · rw [if_pos atEnd, if_pos (by omega)]
              exact fun same => register (Option.some.inj same)
            · rw [if_neg atEnd, ← getLast?_eq_getElem?]
              exact filled
          · rw [free]
            rfl
          · rw [getElem?_set]
            by_cases here : place = index + 1
            · rw [if_pos here, if_pos here.symm, if_pos (by omega)]
            · rw [if_neg here, if_neg (Ne.symm here)]
  | none =>
      refine ⟨st.memoryAssignment.length, st.memoryAssignment ++ [reg],
        max st.memoryFrameSize (st.memoryAssignment.length + 1), ?_, Nat.le_max_left _ _, fun _ => ?_, ?_,
        fun _ register => ?_, ?_, fun place => ?_⟩
      · have grown : (if st.memoryFrameSize > st.memoryAssignment.length + 1 then st.memoryFrameSize
            else st.memoryAssignment.length + 1) = max st.memoryFrameSize (st.memoryAssignment.length + 1) := by
          split <;> omega
        simp [allocateMemorySlot, found, updateMemoryFrameSize, grown]
      · rw [length_append, length_singleton]
        exact Nat.le_max_right _ _
      · rw [length_append, length_singleton]
        exact Nat.lt_succ_self _
      · rw [getLast?_concat]
        exact fun same => register (Option.some.inj same)
      · rw [List.getElem?_eq_none (Nat.le_refl _)]
        rfl
      · rcases Nat.lt_trichotomy place st.memoryAssignment.length with before | same | behind
        · rw [if_neg (by omega), getElem?_append_left before]
        · rw [if_pos same, same, getElem?_concat_length]
        · rw [if_neg (by omega), List.getElem?_eq_none (by rw [length_append, length_singleton]; omega),
            List.getElem?_eq_none (by omega)]

theorem Kept.allocate (kept : Kept registers run) (nonzero : reg ≠ 0) (absent : reg ∉ registers)
    (taken : run.alloc.memoryAssignment[0]? ≠ some 0) :
    ∃ next, run.step (.allocate reg) = some next ∧ Kept (registers ++ [reg]) next := by
  obtain ⟨slot, slots, size, ran, grows, fits, within, ends, free, places⟩ := allocateMemorySlot_once taken reg
  have unheld : ∀ index, (reg, index) ∉ run.held := fun index member =>
    absent ((kept.registers reg).mpr (List.mem_map_of_mem member))
  refine ⟨_, congrArg (fun result : EVMStackAlloc × Nat =>
    some (SlotRun.mk result.1 (run.held ++ [(reg, result.2)]) (run.returned ++ [result.2]))) ran, ?_⟩
  refine ⟨fun index other register => ?_, fun left first right second same => ?_, fun entry member => ?_,
    ends kept.last nonzero, fits kept.length, fun last member => ?_, fun other => ?_⟩
  · change slots[index]? = some other ↔ (other, index) ∈ run.held ++ [(reg, slot)]
    rw [places, mem_append, mem_singleton]
    by_cases here : index = slot
    · rw [if_pos here]
      have empty : (other, index) ∉ run.held := by
        intro member
        have stored := (kept.entries index other register).mpr member
        rw [← here, stored] at free
        exact register free
      rw [or_iff_right empty, here]
      exact ⟨fun same => by rw [Option.some.inj same], fun same => congrArg some (congrArg Prod.fst same).symm⟩
    · rw [if_neg here, kept.entries index other register]
      exact (or_iff_left fun same => here (congrArg Prod.snd same)).symm
  · rcases mem_append.mp first with old | new
    · rcases mem_append.mp second with also | last
      · exact kept.single left old right also same
      · have equal : right = (reg, slot) := mem_singleton.mp last
        have named : left.1 = reg := same.trans (congrArg Prod.fst equal)
        exact absurd (named ▸ old) (unheld left.2)
    · have equal : left = (reg, slot) := mem_singleton.mp new
      rcases mem_append.mp second with also | last
      · have named : right.1 = reg := same.symm.trans (congrArg Prod.fst equal)
        exact absurd (named ▸ also) (unheld right.2)
      · exact equal.trans (mem_singleton.mp last).symm
  · rcases mem_append.mp member with old | new
    · exact kept.nonzero entry old
    · rw [mem_singleton.mp new]
      exact nonzero
  · rcases mem_append.mp member with old | new
    · exact Nat.lt_of_lt_of_le (kept.framed last old) grows
    · rw [mem_singleton.mp new]
      exact Nat.lt_of_lt_of_le within (fits kept.length)
  · change other ∈ registers ++ [reg] ↔ other ∈ (run.held ++ [(reg, slot)]).map Prod.fst
    rw [map_append, mem_append, mem_append, kept.registers other]
    exact Iff.rfl

theorem getLast?_rdropWhile_zero (slots : List Register) :
    (slots.rdropWhile (· == 0)).getLast? ≠ some 0 := by
  intro last
  have filled : slots.rdropWhile (· == 0) ≠ [] := fun empty => by
    rw [empty] at last
    exact absurd last (some_ne_none 0).symm
  have nonzero := rdropWhile_last_not (· == 0) slots filled
  rw [getLast?_eq_some_getLast filled] at last
  exact nonzero (beq_iff_eq.mpr (Option.some.inj last))

theorem Kept.deallocate (kept : Kept registers run) (member : reg ∈ registers) :
    ∃ next, run.step (.deallocate reg) = some next ∧ Kept (registers.filter (· ≠ reg)) next := by
  obtain ⟨⟨named, slot⟩, here, same⟩ := List.mem_map.mp ((kept.registers reg).mp member)
  have equal : named = reg := same
  subst equal
  have nonzero := kept.nonzero _ here
  have stored := (kept.entries slot named nonzero).mpr here
  have shorter : ((run.alloc.memoryAssignment.set slot 0).rdropWhile (· == 0)).length ≤
      run.alloc.memoryAssignment.length := by
    have bound := IsPrefix.length_le <| rdropWhile_prefix (· == (0 : Register))
      (run.alloc.memoryAssignment.set slot 0)
    rwa [length_set] at bound
  have freed := kept.frees here
  dsimp only at freed
  refine ⟨⟨{ run.alloc with memoryAssignment := (run.alloc.memoryAssignment.set slot 0).rdropWhile (· == 0) },
    run.held.filter fun entry => entry.1 ≠ named, run.returned⟩, ?_, fun index other register => ?_,
    fun left first right second => ?_, fun entry kept' => ?_, getLast?_rdropWhile_zero _, ?_, kept.framed,
    fun other => ?_⟩
  · unfold step
    dsimp only
    rw [freed, map_some]
  · change ((run.alloc.memoryAssignment.set slot 0).rdropWhile (· == 0))[index]? = some other ↔
      (other, index) ∈ run.held.filter fun entry => entry.1 ≠ named
    rw [getElem?_freed stored register, kept.entries index other register, mem_filter, decide_eq_true_iff]
    constructor
    · rintro ⟨apart, old⟩
      refine ⟨old, fun same => apart ?_⟩
      exact congrArg Prod.snd (kept.single _ old _ here same)
    · rintro ⟨old, differs⟩
      refine ⟨fun atSlot => differs ?_, old⟩
      have also := (kept.entries index other register).mpr old
      rw [atSlot, stored] at also
      exact (Option.some.inj also).symm
  · exact kept.single left (mem_of_mem_filter first) right (mem_of_mem_filter second)
  · exact kept.nonzero entry (mem_of_mem_filter kept')
  · exact Nat.le_trans shorter kept.length
  · change other ∈ registers.filter (· ≠ named) ↔
      other ∈ (run.held.filter fun entry => entry.1 ≠ named).map Prod.fst
    rw [mem_filter, decide_eq_true_iff, kept.registers other, List.mem_map, List.mem_map]
    constructor
    · rintro ⟨⟨entry, old, isOther⟩, differs⟩
      refine ⟨entry, mem_filter.mpr ⟨old, decide_eq_true ?_⟩, isOther⟩
      rw [isOther]
      exact differs
    · rintro ⟨entry, old, isOther⟩
      obtain ⟨inHeld, differs⟩ := mem_filter.mp old
      rw [decide_eq_true_iff, isOther] at differs
      exact ⟨⟨entry, inHeld, isOther⟩, differs⟩

/-! ### Runs -/

theorem after_append (initial : EVMStackAlloc) (requests : List SlotRequest) (request : SlotRequest) :
    after initial (requests ++ [request]) = (after initial requests).bind (step · request) := by
  unfold after
  rw [foldlM_append]
  cases requests.foldlM step ⟨initial, [], []⟩ with
  | none => rfl
  | some run =>
      change (step run request).bind some = step run request
      cases step run request <;> rfl

theorem present_append (requests : List SlotRequest) (request : SlotRequest) :
    present (requests ++ [request]) = match request with
      | .allocate reg => present requests ++ [reg]
      | .deallocate reg => (present requests).filter (· ≠ reg) := by
  unfold present
  rw [foldl_append]
  cases request <;> rfl

def NeverWhileFree (initial : EVMStackAlloc) (requests : List SlotRequest) : Prop :=
  ∀ earlier reg run, earlier ++ [.allocate reg] <+: requests → after initial earlier = some run →
    run.alloc.memoryAssignment[0]? ≠ some 0

theorem kept_after (empty : initial.memoryAssignment = []) (proper : Proper requests)
    (never : NeverWhileFree initial requests) :
    ∃ run, after initial requests = some run ∧ Kept (present requests) run := by
  induction proper with
  | none => exact ⟨_, rfl, Kept.start empty⟩
  | @allocate requests reg before register absent ih =>
      obtain ⟨run, ran, kept⟩ := ih fun earlier other run start => never earlier other run
        (start.trans (prefix_append requests _))
      obtain ⟨next, stepped, still⟩ :=
        kept.allocate register absent (never requests reg run (prefix_refl _) ran)
      refine ⟨next, ?_, ?_⟩
      · rw [after_append, ran, bind_some]
        exact stepped
      · rw [present_append]
        exact still
  | @deallocate requests reg before member ih =>
      obtain ⟨run, ran, kept⟩ := ih fun earlier other run start => never earlier other run
        (start.trans (prefix_append requests _))
      obtain ⟨next, stepped, still⟩ := kept.deallocate member
      refine ⟨next, ?_, ?_⟩
      · rw [after_append, ran, bind_some]
        exact stepped
      · rw [present_append]
        exact still

theorem Proper.of_prefix (proper : Proper requests) {earlier : List SlotRequest} (start : earlier <+: requests) :
    Proper earlier := by
  induction proper with
  | none =>
      rw [prefix_nil.mp start]
      exact .none
  | @allocate requests reg before register absent ih =>
      rcases prefix_concat_iff.mp start with whole | part
      · rw [whole]
        exact before.allocate register absent
      · exact ih part
  | @deallocate requests reg before member ih =>
      rcases prefix_concat_iff.mp start with whole | part
      · rw [whole]
        exact before.deallocate member
      · exact ih part

/-- Asked for a slot while entry 0 is free, the allocator puts the register there and behind the last entry. -/
theorem not_faithful_allocate (free : run.alloc.memoryAssignment[0]? = some 0)
    (stepped : run.step (.allocate reg) = some next) : ¬ Faithful next := by
  obtain ⟨within, value⟩ := List.getElem?_eq_some_iff.mp free
  have found : run.alloc.memoryAssignment.findIdx? (· == 0) = some 0 :=
    findIdx?_eq_some_iff_getElem.mpr
      ⟨within, beq_iff_eq.mpr value, fun earlier less => absurd less (Nat.not_lt_zero earlier)⟩
  unfold step at stepped
  dsimp only at stepped
  have slots : allocateMemorySlot reg run.alloc =
      (updateMemoryFrameSize (run.alloc.memoryAssignment.length + 1)
        { run.alloc with memoryAssignment := run.alloc.memoryAssignment.set 0 reg ++ [reg] },
        run.alloc.memoryAssignment.length) := by
    simp [allocateMemorySlot, found]
  rw [slots] at stepped
  cases stepped
  intro faithful
  have both := faithful.once (reg, run.alloc.memoryAssignment.length)
    (mem_append_right _ (mem_singleton_self _)) 0
  have atFront : (run.alloc.memoryAssignment.set 0 reg ++ [reg])[0]? = some reg := by
    rw [getElem?_append_left (by rw [length_set]; exact within), getElem?_set_self within]
  have same : 0 = run.alloc.memoryAssignment.length := both.mp atFront
  omega

/-- The map is faithful all along a run exactly if no slot is asked for while entry 0 is free. -/
theorem slotRun_faithful_iff (empty : initial.memoryAssignment = []) (proper : Proper requests) :
    (∀ earlier, earlier <+: requests → ∃ run, after initial earlier = some run ∧ Faithful run) ↔
      NeverWhileFree initial requests := by
  constructor
  · intro faithful earlier reg run start ran free
    obtain ⟨next, reached, good⟩ := faithful _ start
    rw [after_append, ran, bind_some] at reached
    exact not_faithful_allocate free reached good
  · intro never earlier start
    obtain ⟨run, ran, kept⟩ := kept_after empty (proper.of_prefix start) fun part reg run also =>
      never part reg run (also.trans start)
    exact ⟨run, ran, kept.faithful⟩

def noSlots : EVMStackAlloc := ⟨⟨[], []⟩, fun _ => none, [], [], fun _ => none, 0, ⟨[], []⟩, [], [], [], []⟩

theorem slotRun_faithful_iff_ofThree :
    (∀ earlier, earlier <+: [.allocate 1, .allocate 2, .deallocate 2] →
      ∃ run, after noSlots earlier = some run ∧ Faithful run) ↔
        NeverWhileFree noSlots [.allocate 1, .allocate 2, .deallocate 2] :=
  slotRun_faithful_iff rfl
    (((Proper.none.allocate (by decide) (by decide)).allocate (by decide) (by decide)).deallocate (by decide))

theorem slotRun_not_faithful : ¬ ∀ (initial : EVMStackAlloc) (requests : List SlotRequest),
    initial.memoryAssignment = [] → Proper requests → ∃ run, after initial requests = some run ∧
      Faithful run := by
  intro every
  have proper : Proper [.allocate 1, .allocate 2, .deallocate 1] :=
    ((Proper.none.allocate (by decide) (by decide)).allocate (by decide) (by decide)).deallocate (by decide)
  obtain ⟨before, ran, -⟩ := every noSlots _ rfl proper
  obtain ⟨next, reached, good⟩ :=
    every noSlots _ rfl (proper.allocate (show (3 : Register) ≠ 0 by decide) (by decide))
  rw [after_append, ran, bind_some] at reached
  have free : before.alloc.memoryAssignment[0]? = some 0 := by
    have evaluated : (after noSlots [.allocate 1, .allocate 2, .deallocate 1]).map
        (fun run => run.alloc.memoryAssignment) = some [0, 2] := by decide
    rw [ran, map_some] at evaluated
    rw [Option.some.inj evaluated]
    rfl
  exact not_faithful_allocate free reached good

end SlotRun

end EvmBackend.EVMStackAlloc
