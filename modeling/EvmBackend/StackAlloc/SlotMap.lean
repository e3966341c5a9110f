/-
What the allocator's map of local slots does: which slot an allocation hands
out, which entries it keeps, and what freeing the dead occupants leaves.

An entry of the map is read as an occupant only when it is a register; free
entries at the end of the vector come and go without meaning anything.
-/

import EvmBackend.StackAlloc

namespace EvmBackend.EVMStackAlloc

open List

/-- The slot the scan arrives at: the first free entry unless that is entry 0,
and otherwise the end of the map. -/
def SlotIsNext (slots : List Register) (slot : Nat) : Prop :=
  (slot ≠ 0 ∧ slots[slot]? = some 0 ∧ ∀ index : Nat, index < slot → slots[index]? ≠ some 0) ∨
    (slot = slots.length ∧ (slots[0]? = some 0 ∨ ∀ index : Nat, slots[index]? ≠ some 0))

variable {slots : List Register} {index : Nat} {other : Register}

theorem SlotIsNext.unique {left right : Nat} (first : SlotIsNext slots left)
    (second : SlotIsNext slots right) : left = right := by
  rcases first with ⟨leftPositive, leftFree, leftFirst⟩ | ⟨leftEnd, leftWhy⟩
  · rcases second with ⟨rightPositive, rightFree, rightFirst⟩ | ⟨rightEnd, rightWhy⟩
    · have notLess : ¬ left < right := fun less => rightFirst left less leftFree
      have notMore : ¬ right < left := fun more => leftFirst right more rightFree
      omega
    · rcases rightWhy with zero | full
      · exact absurd zero (leftFirst 0 (by omega))
      · exact absurd leftFree (full left)
  · rcases second with ⟨rightPositive, rightFree, rightFirst⟩ | ⟨rightEnd, rightWhy⟩
    · rcases leftWhy with zero | full
      · exact absurd zero (rightFirst 0 (by omega))
      · exact absurd rightFree (full right)
    · rw [leftEnd, rightEnd]

theorem findIdx?_zero_eq_some (found : slots.findIdx? (· == 0) = some index) :
    slots[index]? = some 0 ∧ ∀ earlier : Nat, earlier < index → slots[earlier]? ≠ some 0 := by
  obtain ⟨within, here, before⟩ := findIdx?_eq_some_iff_getElem.mp found
  have isZero : slots[index] = 0 := eq_of_beq here
  refine ⟨by rw [List.getElem?_eq_getElem within, isZero], fun earlier less same => ?_⟩
  have bound : earlier < slots.length := by omega
  rw [List.getElem?_eq_getElem bound] at same
  have notZero := before earlier less
  rw [Option.some.inj same] at notZero
  exact notZero rfl

theorem findIdx?_zero_eq_none (missing : slots.findIdx? (· == 0) = none) :
    ∀ index : Nat, slots[index]? ≠ some 0 := by
  intro index same
  have nonzero := findIdx?_eq_none_iff.mp missing 0 (mem_of_getElem? same)
  simp at nonzero

def nextSlot (slots : List Register) : Nat :=
  match slots.findIdx? (· == 0) with
  | some (index + 1) => index + 1
  | _ => slots.length

theorem nextSlot_isNext (slots : List Register) : SlotIsNext slots (nextSlot slots) := by
  unfold nextSlot
  cases found : slots.findIdx? (· == 0) with
  | none => exact Or.inr ⟨rfl, Or.inr (findIdx?_zero_eq_none found)⟩
  | some index =>
      obtain ⟨free, first⟩ := findIdx?_zero_eq_some found
      cases index with
      | zero => exact Or.inr ⟨rfl, Or.inl free⟩
      | succ index => exact Or.inl ⟨Nat.succ_ne_zero index, free, first⟩

instance (slots : List Register) (slot : Nat) : Decidable (SlotIsNext slots slot) :=
  decidable_of_iff (nextSlot slots = slot)
    ⟨fun same => same ▸ nextSlot_isNext slots, (nextSlot_isNext slots).unique⟩

variable (reg : Register) (st : EVMStackAlloc)

theorem allocateMemorySlot_cases :
    (∃ slot : Nat, slot ≠ 0 ∧ st.memoryAssignment[slot]? = some 0 ∧
      (∀ index : Nat, index < slot → st.memoryAssignment[index]? ≠ some 0) ∧
      allocateMemorySlot reg st =
        ({ st with memoryAssignment := st.memoryAssignment.set slot reg }, slot)) ∨
    ((st.memoryAssignment[0]? = some 0 ∨ ∀ index : Nat, st.memoryAssignment[index]? ≠ some 0) ∧
      ∃ filled : List Register, filled.length = st.memoryAssignment.length ∧
        (∀ (index : Nat) (other : Register), other ≠ 0 → st.memoryAssignment[index]? = some other →
          filled[index]? = some other) ∧
        (∀ (index : Nat) (other : Register), filled[index]? = some other →
          other = reg ∨ st.memoryAssignment[index]? = some other) ∧
        allocateMemorySlot reg st =
          (updateMemoryFrameSize (st.memoryAssignment.length + 1)
            { st with memoryAssignment := filled ++ [reg] }, st.memoryAssignment.length)) := by
  cases found : st.memoryAssignment.findIdx? (· == 0) with
  | none =>
      refine Or.inr ⟨Or.inr (findIdx?_zero_eq_none found), st.memoryAssignment, rfl,
        fun _ _ _ same => same, fun _ _ same => Or.inr same, ?_⟩
      simp [allocateMemorySlot, found]
  | some index =>
      obtain ⟨free, first⟩ := findIdx?_zero_eq_some found
      cases index with
      | succ index =>
          refine Or.inl ⟨index + 1, Nat.succ_ne_zero index, free, first, ?_⟩
          simp [allocateMemorySlot, found]
      | zero =>
          refine Or.inr ⟨Or.inl free, st.memoryAssignment.set 0 reg, length_set, ?_, ?_, ?_⟩
          · intro index other nonzero same
            rw [getElem?_set]
            by_cases atZero : 0 = index
            · subst index
              rw [free] at same
              exact absurd (Option.some.inj same).symm nonzero
            · rw [if_neg atZero]
              exact same
          · intro index other same
            rw [getElem?_set] at same
            by_cases atZero : 0 = index
            · rw [if_pos atZero] at same
              split at same
              · exact Or.inl (Option.some.inj same).symm
              · cases same
            · rw [if_neg atZero] at same
              exact Or.inr same
          · simp [allocateMemorySlot, found]

/-- How a map changes when a slot is handed out: the register is at the slot,
every other occupant stays where it is, and no other register comes in. -/
structure SlotTaken (reg : Register) (slot : Nat) (slots taken : List Register) : Prop where
  isNext : SlotIsNext slots slot
  holds : taken[slot]? = some reg
  keeps : ∀ (index : Nat) (other : Register), other ≠ 0 → slots[index]? = some other →
    taken[index]? = some other
  origin : ∀ (index : Nat) (other : Register), taken[index]? = some other →
    other = reg ∨ slots[index]? = some other

/-- A slot handed out together with the frame size before and after: the new
length of the map is reported only when the map grows. -/
structure SlotHanded (reg : Register) (slot : Nat) (slots taken : List Register)
    (sizeBefore size : Nat) : Prop extends SlotTaken reg slot slots taken where
  reported : (taken.length = slots.length ∧ size = sizeBefore) ∨
    (taken.length = slots.length + 1 ∧ size = max sizeBefore taken.length)

theorem allocateMemorySlot_taken :
    ∃ slot taken size,
      SlotHanded reg slot st.memoryAssignment taken st.memoryFrameSize size ∧
      allocateMemorySlot reg st =
        ({ st with memoryAssignment := taken, memoryFrameSize := size }, slot) := by
  rcases allocateMemorySlot_cases reg st with
    ⟨slot, positive, free, first, result⟩ | ⟨why, filled, length, keeps, origin, result⟩
  · obtain ⟨within, _⟩ := List.getElem?_eq_some_iff.mp free
    refine ⟨slot, st.memoryAssignment.set slot reg, st.memoryFrameSize,
      ⟨⟨Or.inl ⟨positive, free, first⟩, by simp [within], ?_, ?_⟩, Or.inl ⟨by simp, rfl⟩⟩, result⟩
    · intro index other nonzero occupied
      have apart : slot ≠ index := by
        intro same
        rw [same, occupied] at free
        exact nonzero (Option.some.inj free)
      rw [getElem?_set_ne apart]
      exact occupied
    · intro index other occupied
      rw [getElem?_set] at occupied
      by_cases same : slot = index
      · rw [if_pos same, if_pos within] at occupied
        exact Or.inl (Option.some.inj occupied).symm
      · rw [if_neg same] at occupied
        exact Or.inr occupied
  · refine ⟨st.memoryAssignment.length, filled ++ [reg],
      max st.memoryFrameSize (st.memoryAssignment.length + 1),
      ⟨⟨Or.inr ⟨rfl, why⟩, by simp [← length], ?_, ?_⟩,
        Or.inr ⟨by simp [length], by simp [length]⟩⟩, ?_⟩
    · intro index other nonzero occupied
      have kept := keeps index other nonzero occupied
      obtain ⟨within, _⟩ := List.getElem?_eq_some_iff.mp kept
      rw [getElem?_append_left within]
      exact kept
    · intro index other occupied
      by_cases within : index < filled.length
      · rw [getElem?_append_left within] at occupied
        exact origin index other occupied
      · rw [getElem?_append_right (by omega)] at occupied
        have last := mem_of_getElem? occupied
        exact Or.inl (mem_singleton.mp last)
    · rw [result]
      unfold updateMemoryFrameSize
      congr 2
      simp only [gt_iff_lt]
      split <;> omega

theorem SlotIsNext.not_occupied {slot : Nat} (next : SlotIsNext slots slot) (nonzero : other ≠ 0) :
    slots[slot]? ≠ some other := by
  rcases next with ⟨_, free, _⟩ | ⟨atEnd, _⟩
  · rw [free]
    exact fun same => nonzero (Option.some.inj same).symm
  · rw [atEnd, List.getElem?_eq_none (Nat.le_refl _)]
    exact fun impossible => by cases impossible

/-! ### Freeing slots -/

private theorem getElem?_rdropWhile_zero (nonzero : other ≠ 0) :
    (slots.rdropWhile (· == 0))[index]? = some other ↔ slots[index]? = some other := by
  have split : slots.rdropWhile (· == 0) ++ slots.rtakeWhile (· == 0) = slots :=
    rdropWhile_append_rtakeWhile
  constructor
  · intro kept
    obtain ⟨within, _⟩ := List.getElem?_eq_some_iff.mp kept
    rw [← split, getElem?_append_left within]
    exact kept
  · intro occupied
    rw [← split] at occupied
    by_cases within : index < (slots.rdropWhile (· == 0)).length
    · rwa [getElem?_append_left within] at occupied
    · rw [getElem?_append_right (by omega)] at occupied
      have dropped := mem_rtakeWhile_imp (mem_of_getElem? occupied)
      exact absurd (eq_of_beq dropped) nonzero

theorem deallocateMemorySlot_first {reg : Register} (here : slots[index]? = some reg)
    (first : ∀ earlier : Nat, earlier < index → slots[earlier]? ≠ some reg) :
    deallocateMemorySlot reg slots = some ((slots.set index 0).rdropWhile (· == 0)) := by
  obtain ⟨within, value⟩ := List.getElem?_eq_some_iff.mp here
  have found : slots.findIdx? (· == reg) = some index := by
    refine findIdx?_eq_some_iff_getElem.mpr ⟨within, by simp [value], fun earlier less => ?_⟩
    have bound : earlier < slots.length := by omega
    intro same
    apply first earlier less
    rw [List.getElem?_eq_getElem bound, eq_of_beq same]
  simp [deallocateMemorySlot, found]

theorem getElem?_freed {place : Nat} {reg : Register} (here : slots[index]? = some reg)
    (nonzero : other ≠ 0) :
    ((slots.set index 0).rdropWhile (· == 0))[place]? = some other ↔
      place ≠ index ∧ slots[place]? = some other := by
  rw [getElem?_rdropWhile_zero nonzero, getElem?_set]
  by_cases same : index = place
  · subst place
    obtain ⟨within, _⟩ := List.getElem?_eq_some_iff.mp here
    simp [within, Ne.symm nonzero]
  · simp [same, Ne.symm same]

/-- The loop frees every dead occupant and keeps every other one. The entries
before the index hold no dead register, so a register found at the index is
found there first. -/
private theorem freeDeadSlots_from {dead : Register → Bool} {fuel : Nat}
    (clean : ∀ (earlier : Nat) (reg : Register), earlier < index → reg ≠ 0 → slots[earlier]? = some reg →
      dead reg = false)
    (enough : slots.length ≤ index + fuel) :
    ∃ freed : List Register, freeDeadSlots dead fuel index slots = some freed ∧
      ∀ (place : Nat) (reg : Register), reg ≠ 0 →
        (freed[place]? = some reg ↔ slots[place]? = some reg ∧ dead reg = false) := by
  induction fuel generalizing index slots with
  | zero =>
      refine ⟨slots, rfl, fun place reg nonzero => ⟨fun occupied => ⟨occupied, ?_⟩, And.left⟩⟩
      obtain ⟨within, _⟩ := List.getElem?_eq_some_iff.mp occupied
      exact clean place reg (by omega) nonzero occupied
  | succ fuel ih =>
      unfold freeDeadSlots
      cases here : slots[index]? with
      | none =>
          refine ⟨slots, rfl, fun place reg nonzero => ⟨fun occupied => ⟨occupied, ?_⟩, And.left⟩⟩
          obtain ⟨within, _⟩ := List.getElem?_eq_some_iff.mp occupied
          have past : slots.length ≤ index := List.getElem?_eq_none_iff.mp here
          exact clean place reg (by omega) nonzero occupied
      | some occupant =>
          have extend : (occupant = 0 ∨ dead occupant = false) →
              ∀ (earlier : Nat) (reg : Register), earlier < index + 1 → reg ≠ 0 →
                slots[earlier]? = some reg → dead reg = false := by
            intro harmless earlier reg less nonzero occupied
            by_cases atIndex : earlier = index
            · subst earlier
              rw [here] at occupied
              cases occupied
              exact harmless.resolve_left nonzero
            · exact clean earlier reg (by omega) nonzero occupied
          by_cases empty : occupant = 0
          · simp only [empty, if_true]
            exact ih (extend (Or.inl empty)) (by omega)
          · simp only [empty, if_false]
            by_cases isDead : dead occupant = true
            · simp only [isDead, if_true]
              have first : ∀ earlier : Nat, earlier < index → slots[earlier]? ≠ some occupant := by
                intro earlier less same
                have alive := clean earlier occupant less empty same
                rw [isDead] at alive
                cases alive
              rw [deallocateMemorySlot_first here first, Option.bind_some]
              have shorter : ((slots.set index 0).rdropWhile (· == 0)).length ≤ slots.length := by
                have bound := IsPrefix.length_le <| rdropWhile_prefix (· == (0 : Register)) (slots.set index 0)
                rwa [length_set] at bound
              have stillClean : ∀ (earlier : Nat) (reg : Register), earlier < index + 1 → reg ≠ 0 →
                  ((slots.set index 0).rdropWhile (· == 0))[earlier]? = some reg →
                    dead reg = false := by
                intro earlier reg less nonzero occupied
                obtain ⟨apart, old⟩ := (getElem?_freed here nonzero).mp occupied
                exact clean earlier reg (by omega) nonzero old
              obtain ⟨freed, done, exactly⟩ := ih stillClean (by omega)
              refine ⟨freed, done, fun place reg nonzero => ?_⟩
              rw [exactly place reg nonzero, getElem?_freed here nonzero]
              constructor
              · rintro ⟨⟨_, occupied⟩, alive⟩
                exact ⟨occupied, alive⟩
              · rintro ⟨occupied, alive⟩
                refine ⟨⟨?_, occupied⟩, alive⟩
                intro same
                rw [same, here] at occupied
                cases occupied
                rw [isDead] at alive
                cases alive
            · have alive : dead occupant = false := Bool.eq_false_iff.mpr isDead
              simp only [alive, Bool.false_eq_true, if_false]
              exact ih (extend (Or.inr alive)) (by omega)

theorem freeDeadSlots_spec (dead : Register → Bool) (slots : List Register) :
    ∃ freed : List Register, freeDeadSlots dead slots.length 0 slots = some freed ∧
      ∀ (place : Nat) (reg : Register), reg ≠ 0 →
        (freed[place]? = some reg ↔ slots[place]? = some reg ∧ dead reg = false) :=
  freeDeadSlots_from (fun earlier _ impossible => absurd impossible (Nat.not_lt_zero earlier))
    (by omega)

end EvmBackend.EVMStackAlloc
