/-
New numbers keep the list in order.

With numbers of any size a renumbering catches up with the list or comes to its end, and
the numbers increase afterwards. The code does the same as long as no number gets to
2^32.
-/

import EvmBackend.SlotIndexes.Tiling

namespace EvmBackend.SlotIndexes

open List

variable {MachineInstr : Type} {entries before later : List (IndexListEntry MachineInstr)}

def Fits (entries : List (IndexListEntry MachineInstr)) : Prop :=
  ∀ entry ∈ entries, entry.index < 2 ^ 32

theorem shapes_append (before later : List (IndexListEntry MachineInstr)) :
    shapes (before ++ later) = shapes before ++ shapes later :=
  map_append

theorem shapes_renumberFrom (unsigned : Nat → Nat) (index : Nat)
    (entries : List (IndexListEntry MachineInstr)) :
    shapes (renumberFrom unsigned index entries) = shapes entries := by
  induction entries generalizing index with
  | nil => rfl
  | cons entry rest ih =>
      rw [renumberFrom]
      change (entry.address, entry.mi) :: shapes (if _ then _ else _) =
        (entry.address, entry.mi) :: shapes rest
      split
      · rw [ih]
      · rfl

theorem renumberFrom_cons_cons (unsigned : Nat → Nat) (index : Nat)
    (entry next : IndexListEntry MachineInstr) (rest : List (IndexListEntry MachineInstr)) :
    renumberFrom unsigned index (entry :: next :: rest) =
      { entry with index := unsigned (index + 8) } ::
        if next.index ≤ unsigned (index + 8) then
          renumberFrom unsigned (unsigned (index + 8)) (next :: rest)
        else next :: rest := by
  rw [renumberFrom]
  simp only [head?_cons, Option.any_some, decide_eq_true_eq]
  rfl

theorem renumberFrom_ordered {index : Nat} (entry : IndexListEntry MachineInstr)
    (four : index % 4 = 0) (ordered : Ordered later) :
    Ordered (renumberFrom id index (entry :: later)) ∧
      ∀ other ∈ renumberFrom id index (entry :: later), index < other.index := by
  induction later generalizing index entry with
  | nil =>
      refine ⟨⟨pairwise_singleton _ _, ?_⟩, ?_⟩
      · intro other member
        rw [mem_singleton.mp member]
        change (index + 8) % 4 = 0
        omega
      · intro other member
        rw [mem_singleton.mp member]
        change index < index + 8
        omega
  | cons next rest ih =>
      have nextFour : (index + 8) % 4 = 0 := by omega
      obtain ⟨larger, increasing⟩ := pairwise_cons.mp ordered.increasing
      have restOrdered : Ordered rest :=
        ⟨increasing, fun other member => ordered.fours other (mem_cons_of_mem _ member)⟩
      -- What comes after the entry is in order and larger than its new number.
      have tail : ∃ tail, renumberFrom id index (entry :: next :: rest) =
          { entry with index := index + 8 } :: tail ∧ Ordered tail ∧
            ∀ other ∈ tail, index + 8 < other.index := by
        by_cases behind : next.index ≤ index + 8
        · refine ⟨renumberFrom id (index + 8) (next :: rest), ?_, ih next nextFour restOrdered⟩
          rw [renumberFrom_cons_cons, id, if_pos behind]
        · refine ⟨next :: rest, ?_, ordered, ?_⟩
          · rw [renumberFrom_cons_cons, id, if_neg behind]
          · intro other member
            rcases mem_cons.mp member with rfl | inRest
            · omega
            · have more := larger other inRest
              omega
      obtain ⟨tail, result, tailOrdered, above⟩ := tail
      rw [result]
      refine ⟨⟨pairwise_cons.mpr ⟨above, tailOrdered.increasing⟩, ?_⟩, ?_⟩
      · intro other member
        rcases mem_cons.mp member with rfl | inTail
        · exact nextFour
        · exact tailOrdered.fours other inTail
      · intro other member
        rcases mem_cons.mp member with rfl | inTail
        · exact Nat.lt_add_of_pos_right (by omega)
        · have more := above other inTail
          omega

theorem renumberFrom_wrap32 {index : Nat}
    (fits : Fits (renumberFrom id index entries)) :
    renumberFrom wrap32 index entries = renumberFrom id index entries := by
  induction entries generalizing index with
  | nil => rfl
  | cons entry rest ih =>
      have first : wrap32 (index + InstrDist / 2) = id (index + InstrDist / 2) :=
        Nat.mod_eq_of_lt (fits { entry with index := index + InstrDist / 2 } mem_cons_self)
      rw [renumberFrom] at fits
      rw [renumberFrom, renumberFrom, first]
      congr 1
      split
      · rename_i behind
        simp only [if_pos behind] at fits
        exact ih fun other member => fits other (mem_cons_of_mem _ member)
      · rfl

/-! ### Inserted entries -/

theorem Ordered.append (front : Ordered before) (back : Ordered later)
    (less : ∀ left ∈ before, ∀ right ∈ later, left.index < right.index) :
    Ordered (before ++ later) := by
  refine ⟨pairwise_append.mpr ⟨front.increasing, back.increasing, less⟩, ?_⟩
  intro entry member
  rcases mem_append.mp member with inFront | inBack
  · exact front.fours entry inFront
  · exact back.fours entry inBack

theorem Ordered.of_append (ordered : Ordered (before ++ later)) :
    Ordered before ∧ Ordered later ∧
      ∀ left ∈ before, ∀ right ∈ later, left.index < right.index := by
  obtain ⟨front, back, less⟩ := pairwise_append.mp ordered.increasing
  exact ⟨⟨front, fun entry member => ordered.fours entry (mem_append_left _ member)⟩,
    ⟨back, fun entry member => ordered.fours entry (mem_append_right _ member)⟩, less⟩

theorem Ordered.le_getLast {last : IndexListEntry MachineInstr} (ordered : Ordered entries)
    (isLast : entries.getLast? = some last) : ∀ entry ∈ entries, entry.index ≤ last.index := by
  obtain ⟨front, rfl⟩ := getLast?_eq_some_iff.mp isLast
  intro entry member
  rcases mem_append.mp member with inFront | isEntry
  · exact ((pairwise_append.mp ordered.increasing).2.2 entry inFront last
      mem_cons_self).le
  · rw [mem_singleton.mp isEntry]

theorem renumberIndexes_congr (unsigned : Nat → Nat) {address : Nat} {mi : Option MachineInstr}
    (number other : Nat) :
    renumberIndexes unsigned before (⟨address, mi, number⟩ :: later) =
      renumberIndexes unsigned before (⟨address, mi, other⟩ :: later) := rfl

theorem renumberIndexes_ordered (entry : IndexListEntry MachineInstr)
    {last : IndexListEntry MachineInstr}
    (isLast : before.getLast? = some last) (ordered : Ordered (before ++ later)) :
    ∃ renumbered, renumberIndexes id before (entry :: later) = some renumbered ∧
      Ordered renumbered ∧ shapes renumbered =
        shapes before ++ (entry.address, entry.mi) :: shapes later := by
  obtain ⟨front, back, _⟩ := ordered.of_append
  have four := front.fours last (mem_of_getLast? isLast)
  obtain ⟨renumbered, above⟩ := renumberFrom_ordered entry four back
  refine ⟨before ++ renumberFrom id last.index (entry :: later), ?_, ?_, ?_⟩
  · rw [renumberIndexes, isLast]
    rfl
  · refine front.append renumbered ?_
    intro left inFront right inBack
    have most := front.le_getLast isLast left inFront
    have more := above right inBack
    omega
  · rw [shapes_append, shapes_renumberFrom]
    rfl

theorem renumberIndexes_wrap32
    (fits : ∀ renumbered, renumberIndexes id before later = some renumbered → Fits renumbered) :
    renumberIndexes wrap32 before later = renumberIndexes id before later := by
  unfold renumberIndexes at fits ⊢
  cases isLast : before.getLast? with
  | none => rfl
  | some last =>
      rw [isLast] at fits
      have all := fits _ rfl
      simp only [Option.bind_eq_bind, Option.bind_some]
      rw [renumberFrom_wrap32]
      exact fun entry member => all entry (mem_append_right _ member)

theorem halfDistance_lt {prev next : Nat} (gap : prev < next) :
    prev + halfDistance prev next < next ∧ halfDistance prev next % 4 = 0 := by
  have wrapped : wrap32 (next + 2 ^ 32 - prev) ≤ next - prev := by
    have same : next + 2 ^ 32 - prev = next - prev + 2 ^ 32 := by omega
    rw [wrap32, same, Nat.add_mod_right]
    exact Nat.mod_le _ _
  unfold halfDistance
  generalize wrap32 (next + 2 ^ 32 - prev) = wrapped' at wrapped
  omega

theorem insertEntry_eq (unsigned : Nat → Nat) (MI : MachineInstr) (address : Nat)
    {prev next : IndexListEntry MachineInstr} (isLast : before.getLast? = some prev)
    (isHead : later.head? = some next) :
    insertEntry unsigned MI address before later =
      insertAt unsigned MI address (halfDistance prev.index next.index) prev before later := by
  rw [insertEntry, isLast, isHead]
  exact (Option.bind_some ..).trans (Option.bind_some ..)

theorem insertAt_ordered {MI : MachineInstr} {address dist : Nat}
    {prev next : IndexListEntry MachineInstr} (isLast : before.getLast? = some prev)
    (isHead : later.head? = some next) (ordered : Ordered (before ++ later))
    (bound : prev.index + dist < next.index) (four : dist % 4 = 0) :
    ∃ inserted, insertAt id MI address dist prev before later = some inserted ∧
      Ordered inserted ∧ shapes inserted = shapes before ++ (address, some MI) :: shapes later := by
  obtain ⟨front, back, less⟩ := ordered.of_append
  have prevFour := front.fours prev (mem_of_getLast? isLast)
  unfold insertAt
  by_cases none : dist = 0
  · simp only [if_pos none]
    exact renumberIndexes_ordered _ isLast ordered
  · simp only [if_neg none]
    refine ⟨_, rfl, ?_, shapes_append _ _⟩
    refine front.append ⟨pairwise_cons.mpr ⟨?_, back.increasing⟩, ?_⟩ ?_
    · intro other member
      change prev.index + dist < other.index
      have least : next.index ≤ other.index := by
        obtain ⟨rest, rfl⟩ : ∃ rest, later = next :: rest := head?_eq_some_iff.mp isHead
        rcases mem_cons.mp member with rfl | inRest
        · exact Nat.le_refl _
        · exact ((pairwise_cons.mp back.increasing).1 other inRest).le
      omega
    · intro other member
      rcases mem_cons.mp member with rfl | isOther
      · change (prev.index + dist) % 4 = 0
        omega
      · exact back.fours other isOther
    · intro left inFront right inBack
      have most := front.le_getLast isLast left inFront
      rcases mem_cons.mp inBack with rfl | isOther
      · change left.index < prev.index + dist
        omega
      · exact less left inFront right isOther

theorem insertEntry_ordered (MI : MachineInstr) (address : Nat)
    {prev next : IndexListEntry MachineInstr} (isLast : before.getLast? = some prev)
    (isHead : later.head? = some next) (ordered : Ordered (before ++ later)) :
    ∃ inserted, insertEntry id MI address before later = some inserted ∧ Ordered inserted ∧
      shapes inserted = shapes before ++ (address, some MI) :: shapes later := by
  have gap := ordered.of_append.2.2 prev (mem_of_getLast? isLast) next
    (mem_of_head? isHead)
  obtain ⟨bound, four⟩ := halfDistance_lt gap
  rw [insertEntry_eq id MI address isLast isHead]
  exact insertAt_ordered isLast isHead ordered bound four

theorem insertAt_wrap32 {MI : MachineInstr} {address dist : Nat}
    {prev : IndexListEntry MachineInstr}
    (fits : ∀ inserted, insertAt id MI address dist prev before later = some inserted →
      Fits inserted) :
    insertAt wrap32 MI address dist prev before later =
      insertAt id MI address dist prev before later := by
  unfold insertAt at fits ⊢
  by_cases none : dist = 0
  · simp only [if_pos none] at fits ⊢
    rw [← renumberIndexes_wrap32 fits]
    exact renumberIndexes_congr wrap32 _ _
  · simp only [if_neg none] at fits ⊢
    have inside := fits _ rfl ⟨address, some MI, prev.index + dist⟩
      (mem_append_right _ mem_cons_self)
    have same : wrap32 (prev.index + dist) = id (prev.index + dist) := Nat.mod_eq_of_lt inside
    rw [same]

theorem insertEntry_wrap32 {MI : MachineInstr} {address : Nat}
    (fits : ∀ inserted, insertEntry id MI address before later = some inserted → Fits inserted) :
    insertEntry wrap32 MI address before later = insertEntry id MI address before later := by
  refine Option.bind_congr fun prev isLast => Option.bind_congr fun next isHead => ?_
  apply insertAt_wrap32
  intro inserted done
  exact fits inserted ((insertEntry_eq id MI address isLast isHead).trans done)

end EvmBackend.SlotIndexes
