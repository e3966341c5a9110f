/-
Slot indexes mirror the program order in every reachable state.

The code stores sums in 32 bits. As long as the sums of a step fit, it does what it
would do with numbers of any size, and keeps the list a tiling of the function; the
order of two indexes never changes, because entries stay in the list and a renumbering
keeps them in their places.
-/

import EvmBackend.SlotIndexes.Mirror

namespace EvmBackend.SlotIndexes

open List Option Function

variable {MachineInstr : Type} [DecidableEq MachineInstr]

/-! ### Numbers below 2^32 -/

variable {state next : Indexes MachineInstr}

theorem insertMachineInstrInMaps_wrap32 {MI : MachineInstr} {Late : Bool}
    (done : insertMachineInstrInMaps id MI Late state = some next) (fits : Fits next.indexList) :
    insertMachineInstrInMaps wrap32 MI Late state = some next := by
  obtain ⟨⟨before, later⟩, point, done⟩ := bind_eq_some_iff.mp done
  obtain ⟨indexList, inserted, result⟩ := bind_eq_some_iff.mp done
  cases result
  have same : insertEntry wrap32 MI state.allocated before later = some indexList := by
    rw [insertEntry_wrap32, inserted]
    intro other isOther
    rw [inserted] at isOther
    cases isOther
    exact fits
  unfold insertMachineInstrInMaps
  rw [point]
  simp only [bind_eq_bind, bind_some, same]

omit [DecidableEq MachineInstr] in
theorem renumberIndexes_wrap32_of_fits {before later renumbered : List (IndexListEntry MachineInstr)}
    (done : renumberIndexes id before later = some renumbered) (fits : Fits renumbered) :
    renumberIndexes wrap32 before later = some renumbered := by
  rw [renumberIndexes_wrap32, done]
  intro other isOther
  rw [done] at isOther
  cases isOther
  exact fits

omit [DecidableEq MachineInstr] in
theorem insertMBBInMaps_wrap32 {mbb : MachineBasicBlock MachineInstr}
    (done : insertMBBInMaps id mbb state = some next) (fits : Fits next.indexList) :
    insertMBBInMaps wrap32 mbb state = some next := by
  unfold insertMBBInMaps at done ⊢
  simp only [bind_eq_bind] at done ⊢
  cases later : (neighbours mbb.number state.mf).2 with
  | nil =>
      simp only [later] at done ⊢
      obtain ⟨startEntry, isStart, done⟩ := bind_eq_some_iff.mp done
      obtain ⟨list, renumbered, done⟩ := bind_eq_some_iff.mp done
      rw [bind_some] at done
      obtain ⟨prevMBB, isPrev, result⟩ := bind_eq_some_iff.mp done
      cases result
      rw [isStart, bind_some, renumberIndexes_wrap32_of_fits renumbered fits,
        bind_some, bind_some, isPrev]
      rfl
  | cons nextMBB others =>
      simp only [later] at done ⊢
      obtain ⟨endEntry, isEnd, done⟩ := bind_eq_some_iff.mp done
      obtain ⟨⟨front, back⟩, cut, done⟩ := bind_eq_some_iff.mp done
      obtain ⟨list, renumbered, done⟩ := bind_eq_some_iff.mp done
      rw [bind_some] at done
      obtain ⟨prevMBB, isPrev, result⟩ := bind_eq_some_iff.mp done
      cases result
      rw [isEnd, bind_some, cut, bind_some,
        renumberIndexes_wrap32_of_fits renumbered fits, bind_some, bind_some, isPrev]
      rfl

theorem step_wrap32 {first : Step MachineInstr} (done : step id first state = some next)
    (fits : Fits next.indexList) : step wrap32 first state = some next := by
  cases first with
  | placeInstr | takeInstr => exact done
  | insertMachineInstrInMaps MI Late => exact insertMachineInstrInMaps_wrap32 done fits
  | removeMachineInstrFromMaps | replaceMachineInstrInMaps => exact done
  | insertMBBInMaps position mbb => exact insertMBBInMaps_wrap32 done fits

section First

variable (isDebugInstr : MachineInstr → Bool)

theorem indexInstr_sublist (unsigned : Nat → Nat) (state : Indexes MachineInstr × Nat)
    (MI : MachineInstr) :
    state.1.indexList.Sublist (indexInstr unsigned isDebugInstr state MI).1.indexList := by
  unfold indexInstr
  split
  · exact List.Sublist.refl _
  · exact sublist_append_left _ _

theorem indexInstrs_sublist (unsigned : Nat → Nat) (state : Indexes MachineInstr × Nat)
    (instrs : List MachineInstr) :
    state.1.indexList.Sublist
      (instrs.foldl (indexInstr unsigned isDebugInstr) state).1.indexList := by
  induction instrs generalizing state with
  | nil => exact List.Sublist.refl _
  | cons MI instrs ih => exact (indexInstr_sublist isDebugInstr unsigned state MI).trans (ih _)

omit [DecidableEq MachineInstr] in
theorem Fits.of_sublist {entries others : List (IndexListEntry MachineInstr)} (fits : Fits others)
    (sub : entries.Sublist others) : Fits entries :=
  fun entry member => fits entry (sub.subset member)

omit [DecidableEq MachineInstr] in
theorem pushEntry_wrap32 {mi : Option MachineInstr} {state : Indexes MachineInstr × Nat}
    (fits : Fits (pushEntry id mi state).1.indexList) :
    pushEntry wrap32 mi state = pushEntry id mi state := by
  have same : wrap32 (state.2 + InstrDist) = id (state.2 + InstrDist) :=
    Nat.mod_eq_of_lt (fits ⟨state.1.allocated, mi, state.2 + InstrDist⟩
      (mem_append_right _ mem_cons_self))
  unfold pushEntry
  rw [same]

theorem indexInstr_wrap32 {state : Indexes MachineInstr × Nat} {MI : MachineInstr}
    (fits : Fits (indexInstr id isDebugInstr state MI).1.indexList) :
    indexInstr wrap32 isDebugInstr state MI = indexInstr id isDebugInstr state MI := by
  unfold indexInstr at fits ⊢
  split
  · rfl
  · rename_i indexed
    rw [if_neg indexed] at fits
    simp only [pushEntry_wrap32 fits]

theorem indexInstrs_wrap32 {state : Indexes MachineInstr × Nat} {instrs : List MachineInstr}
    (fits : Fits (instrs.foldl (indexInstr id isDebugInstr) state).1.indexList) :
    instrs.foldl (indexInstr wrap32 isDebugInstr) state =
      instrs.foldl (indexInstr id isDebugInstr) state := by
  induction instrs generalizing state with
  | nil => rfl
  | cons MI instrs ih =>
      rw [foldl_cons] at fits ⊢
      rw [foldl_cons, indexInstr_wrap32 isDebugInstr
        (fits.of_sublist (indexInstrs_sublist isDebugInstr id _ instrs))]
      exact ih fits

theorem indexBlock_sublist (state : Indexes MachineInstr × Nat)
    (mbb : MachineBasicBlock MachineInstr) :
    state.1.indexList.Sublist (indexBlock id isDebugInstr state mbb).1.indexList :=
  (indexInstrs_sublist isDebugInstr id state mbb.instrs).trans (sublist_append_left _ _)

theorem indexBlocks_sublist (state : Indexes MachineInstr × Nat)
    (mf : List (MachineBasicBlock MachineInstr)) :
    state.1.indexList.Sublist (mf.foldl (indexBlock id isDebugInstr) state).1.indexList := by
  induction mf generalizing state with
  | nil => exact List.Sublist.refl _
  | cons mbb mf ih => exact (indexBlock_sublist isDebugInstr state mbb).trans (ih _)

theorem indexBlock_wrap32 {state : Indexes MachineInstr × Nat}
    {mbb : MachineBasicBlock MachineInstr}
    (fits : Fits (indexBlock id isDebugInstr state mbb).1.indexList) :
    indexBlock wrap32 isDebugInstr state mbb = indexBlock id isDebugInstr state mbb := by
  have pushed : Fits (pushEntry id none
      (mbb.instrs.foldl (indexInstr id isDebugInstr) state)).1.indexList := fits
  have instrs := indexInstrs_wrap32 isDebugInstr
    (pushed.of_sublist (sublist_append_left _ _))
  simp only [indexBlock, instrs, pushEntry_wrap32 pushed]

theorem indexBlocks_wrap32 {state : Indexes MachineInstr × Nat}
    {mf : List (MachineBasicBlock MachineInstr)}
    (fits : Fits (mf.foldl (indexBlock id isDebugInstr) state).1.indexList) :
    mf.foldl (indexBlock wrap32 isDebugInstr) state =
      mf.foldl (indexBlock id isDebugInstr) state := by
  induction mf generalizing state with
  | nil => rfl
  | cons mbb mf ih =>
      rw [foldl_cons] at fits ⊢
      rw [foldl_cons, indexBlock_wrap32 isDebugInstr
        (fits.of_sublist (indexBlocks_sublist isDebugInstr _ mf))]
      exact ih fits

theorem runOnMachineFunction_wrap32 {getNumBlockIDs : Nat}
    {mf : List (MachineBasicBlock MachineInstr)}
    (fits : Fits (runOnMachineFunction id isDebugInstr getNumBlockIDs mf).indexList) :
    runOnMachineFunction wrap32 isDebugInstr getNumBlockIDs mf =
      runOnMachineFunction id isDebugInstr getNumBlockIDs mf := by
  have blocks := indexBlocks_wrap32 isDebugInstr fits
  simp only [runOnMachineFunction, blocks]

end First

/-- What the callers see to: new instructions are not in any block and have no index
when they are indexed, replacements stand in the place of what they replace, and new
blocks bring new instructions, come after some block and have the next number. -/
def Allowed : Step MachineInstr → Indexes MachineInstr → Prop
  | .placeInstr _ _ MI, state => ∀ mbb ∈ state.mf, MI ∉ mbb.instrs
  | .takeInstr MI, state => state.hasIndex MI = false
  | .insertMachineInstrInMaps MI _, state =>
      (∃ mbb ∈ state.mf, MI ∈ mbb.instrs) ∧ state.hasIndex MI = false
  | .removeMachineInstrFromMaps _, _ => True
  | .replaceMachineInstrInMaps MI NewMI, state => state.hasIndex MI = true →
      state.hasIndex NewMI = false ∧ StandsFor state MI NewMI
  | .insertMBBInMaps position mbb, state =>
      state.mf.take position ≠ [] ∧ mbb.number = state.MBBRanges.length ∧ mbb.instrs.Nodup ∧
        ∀ instr ∈ mbb.instrs, ∀ other ∈ state.mf, instr ∉ other.instrs

def StaysBelow (first : Step MachineInstr) (state : Indexes MachineInstr) : Prop :=
  ∀ next, step id first state = some next → Fits next.indexList

instance (entries : List (IndexListEntry MachineInstr)) : Decidable (Fits entries) :=
  inferInstanceAs (Decidable (∀ entry ∈ entries, entry.index < 2 ^ 32))

instance (first : Step MachineInstr) (state : Indexes MachineInstr) :
    Decidable (StaysBelow first state) :=
  inferInstanceAs (Decidable (∀ next ∈ step id first state, Fits next.indexList))

theorem step_tiled {first : Step MachineInstr} (tiled : Tiled state) (allowed : Allowed first state) :
    ∃ next, step id first state = some next ∧ Tiled next ∧
      (addresses state.indexList).Sublist (addresses next.indexList) := by
  cases first with
  | placeInstr number position MI =>
      obtain ⟨next, done, kept⟩ := placeInstr_tiled tiled number position allowed
      refine ⟨next, done, kept, ?_⟩
      cases done
      exact List.Sublist.refl _
  | takeInstr MI =>
      obtain ⟨next, done, kept⟩ := takeInstr_tiled tiled allowed
      refine ⟨next, done, kept, ?_⟩
      cases done
      exact List.Sublist.refl _
  | insertMachineInstrInMaps MI Late =>
      obtain ⟨⟨mbb, member, inBlock⟩, absent⟩ := allowed
      exact insertMachineInstrInMaps_tiled tiled Late member inBlock absent
  | removeMachineInstrFromMaps MI =>
      refine ⟨_, rfl, removeMachineInstrFromMaps_tiled tiled MI, ?_⟩
      unfold removeMachineInstrFromMaps
      split
      · exact List.Sublist.refl _
      · rw [addresses_setInstr]
  | replaceMachineInstrInMaps MI NewMI =>
      refine ⟨_, rfl, replaceMachineInstrInMaps_tiled tiled (fun indexed => (allowed indexed).1)
        (fun indexed => (allowed indexed).2), ?_⟩
      unfold replaceMachineInstrInMaps
      split
      · exact List.Sublist.refl _
      · rw [addresses_setInstr]
  | insertMBBInMaps position mbb =>
      obtain ⟨notFirst, isNew, instrs, absent⟩ := allowed
      rw [Ne, take_eq_nil_iff, not_or] at notFirst
      exact insertMBBInMaps_tiled tiled (Nat.pos_of_ne_zero notFirst.1) notFirst.2 isNew instrs
        absent

theorem step_wrap32_tiled {first : Step MachineInstr} (tiled : Tiled state)
    (allowed : Allowed first state) (below : StaysBelow first state) :
    ∃ next, step wrap32 first state = some next ∧ Tiled next ∧
      (addresses state.indexList).Sublist (addresses next.indexList) := by
  obtain ⟨next, done, kept, sub⟩ := step_tiled tiled allowed
  exact ⟨next, step_wrap32 done (below next done), kept, sub⟩

theorem run_tiled {steps : List (Step MachineInstr)} (tiled : Tiled state)
    (every : Runs.EveryStep (step wrap32)
      (fun first current => Allowed first current ∧ StaysBelow first current) steps state) :
    ∃ next, Runs.run (step wrap32) steps state = some next ∧ Tiled next ∧
      (addresses state.indexList).Sublist (addresses next.indexList) := by
  induction steps generalizing state with
  | nil => exact ⟨state, rfl, tiled, List.Sublist.refl _⟩
  | cons first rest ih =>
      obtain ⟨⟨allowed, below⟩, later⟩ := every
      obtain ⟨middle, stepped, kept, sub⟩ := step_wrap32_tiled tiled allowed below
      obtain ⟨next, done, final, further⟩ := ih kept (later middle stepped)
      refine ⟨next, ?_, final, sub.trans further⟩
      rw [Runs.run_cons, stepped]
      exact done

omit [DecidableEq MachineInstr] in
theorem getIndex_lt_iff (tiled : Tiled state) (later : Tiled next)
    (sub : (addresses state.indexList).Sublist (addresses next.indexList)) {left right : SlotIndex}
    (inLeft : left.listEntry ∈ addresses state.indexList)
    (inRight : right.listEntry ∈ addresses state.indexList) :
    getIndex next.indexList left < getIndex next.indexList right ↔
      getIndex state.indexList left < getIndex state.indexList right := by
  by_cases same : left.listEntry = right.listEntry
  · rw [getIndex_eq tiled.ordered tiled.distinct inLeft,
      getIndex_eq tiled.ordered tiled.distinct inRight,
      getIndex_eq later.ordered later.distinct (sub.subset inLeft),
      getIndex_eq later.ordered later.distinct (sub.subset inRight), same]
    omega
  · rcases pair_sublist_total inLeft inRight same with first | second
    · have before := getIndex_lt_of_sublist tiled.ordered tiled.distinct first
      have after := getIndex_lt_of_sublist later.ordered later.distinct (first.trans sub)
      exact iff_of_true after before
    · have before := getIndex_lt_of_sublist tiled.ordered tiled.distinct second
      have after := getIndex_lt_of_sublist later.ordered later.distinct (second.trans sub)
      omega

/-! ### Which instructions are indexed -/

/-- The instructions that have an index after a step, from those that have one before. -/
def indexedAfter : Step MachineInstr → (MachineInstr → Bool) → MachineInstr → Bool
  | .insertMachineInstrInMaps MI _, indexed => update indexed MI true
  | .removeMachineInstrFromMaps MI, indexed => update indexed MI false
  | .replaceMachineInstrInMaps MI NewMI, indexed =>
      if indexed MI then update (update indexed MI false) NewMI true else indexed
  | _, indexed => indexed

theorem isSome_update (entries : MachineInstr → Option SlotIndex) (MI : MachineInstr)
    (held : Option SlotIndex) :
    (fun other => (update entries MI held other).isSome) =
      update (fun other => (entries other).isSome) MI held.isSome := by
  funext other
  by_cases same : other = MI
  · rw [same, update_self, update_self]
  · rw [update_of_ne same, update_of_ne same]

theorem replaceMachineInstrInMaps_hasIndex (MI NewMI : MachineInstr) :
    (replaceMachineInstrInMaps MI NewMI state).hasIndex =
      indexedAfter (.replaceMachineInstrInMaps MI NewMI) state.hasIndex := by
  change _ = if state.hasIndex MI then _ else _
  unfold replaceMachineInstrInMaps
  cases held : state.mi2iMap MI with
  | none =>
      have absent : ¬ state.hasIndex MI = true := by simp [Indexes.hasIndex, held]
      rw [if_neg absent]
  | some replaceBaseIndex =>
      have present : state.hasIndex MI = true := by simp [Indexes.hasIndex, held]
      have erased : (fun other => (update state.mi2iMap MI none other).isSome) =
          update state.hasIndex MI false := isSome_update state.mi2iMap MI none
      rw [if_pos present, ← erased]
      by_cases already : (update state.mi2iMap MI none NewMI).isSome = true
      · simp only [already, if_true]
        exact (Function.update_eq_self_iff.mpr already.symm).symm
      · simp only [already]
        exact isSome_update _ NewMI (some replaceBaseIndex)

omit [DecidableEq MachineInstr] in
theorem insertMBBInMaps_hasIndex {unsigned : Nat → Nat} {mbb : MachineBasicBlock MachineInstr}
    (done : insertMBBInMaps unsigned mbb state = some next) : next.hasIndex = state.hasIndex := by
  unfold insertMBBInMaps at done
  simp only [bind_eq_bind] at done
  cases later : (neighbours mbb.number state.mf).2 with
  | nil =>
      simp only [later] at done
      obtain ⟨startEntry, _, done⟩ := bind_eq_some_iff.mp done
      obtain ⟨list, _, done⟩ := bind_eq_some_iff.mp done
      rw [bind_some] at done
      obtain ⟨prevMBB, _, result⟩ := bind_eq_some_iff.mp done
      cases result
      rfl
  | cons nextMBB others =>
      simp only [later] at done
      obtain ⟨endEntry, _, done⟩ := bind_eq_some_iff.mp done
      obtain ⟨⟨front, back⟩, _, done⟩ := bind_eq_some_iff.mp done
      obtain ⟨list, _, done⟩ := bind_eq_some_iff.mp done
      rw [bind_some] at done
      obtain ⟨prevMBB, _, result⟩ := bind_eq_some_iff.mp done
      cases result
      rfl

theorem step_hasIndex {unsigned : Nat → Nat} {first : Step MachineInstr}
    (done : step unsigned first state = some next) :
    next.hasIndex = indexedAfter first state.hasIndex := by
  cases first with
  | placeInstr | takeInstr =>
      cases done
      rfl
  | insertMachineInstrInMaps MI Late =>
      obtain ⟨_, _, done⟩ := bind_eq_some_iff.mp done
      obtain ⟨indexList, _, result⟩ := bind_eq_some_iff.mp done
      cases result
      exact isSome_update state.mi2iMap MI (some (SlotIndex.atEntry state.allocated))
  | removeMachineInstrFromMaps MI =>
      cases done
      unfold removeMachineInstrFromMaps
      split
      · rename_i absent
        have already : state.hasIndex MI = false := by rw [Indexes.hasIndex, absent]; rfl
        rw [indexedAfter, ← already, update_eq_self]
      · exact isSome_update state.mi2iMap MI none
  | replaceMachineInstrInMaps MI NewMI =>
      cases done
      exact replaceMachineInstrInMaps_hasIndex MI NewMI
  | insertMBBInMaps position mbb =>
      change insertMBBInMaps unsigned mbb _ = some next at done
      have kept := insertMBBInMaps_hasIndex done
      exact kept

theorem run_hasIndex {unsigned : Nat → Nat} {steps : List (Step MachineInstr)}
    (done : Runs.run (step unsigned) steps state = some next) :
    next.hasIndex = steps.foldl (fun indexed first => indexedAfter first indexed) state.hasIndex := by
  induction steps generalizing state with
  | nil =>
      cases done
      rfl
  | cons first rest ih =>
      obtain ⟨middle, stepped, remaining⟩ := Runs.run_cons_eq_some _ done
      rw [ih remaining, step_hasIndex stepped]
      rfl

theorem runOnMachineFunction_hasIndex (unsigned : Nat → Nat) (isDebugInstr : MachineInstr → Bool)
    (getNumBlockIDs : Nat) (mf : List (MachineBasicBlock MachineInstr)) (MI : MachineInstr) :
    (runOnMachineFunction unsigned isDebugInstr getNumBlockIDs mf).hasIndex MI = true ↔
      MI ∈ mf.flatMap MachineBasicBlock.instrs ∧ isDebugInstr MI = false := by
  have instrs : ∀ (code : List MachineInstr) (state : Indexes MachineInstr × Nat),
      (code.foldl (indexInstr unsigned isDebugInstr) state).1.hasIndex MI = true ↔
        state.1.hasIndex MI = true ∨ (MI ∈ code ∧ isDebugInstr MI = false) := by
    intro code
    induction code with
    | nil => simp
    | cons first rest ih =>
        intro state
        rw [foldl_cons, ih]
        by_cases debug : isDebugInstr first = true
        · rw [indexInstr, if_pos debug]
          grind
        · rw [indexInstr, if_neg debug]
          by_cases same : MI = first
          · subst same
            simp [Indexes.hasIndex, debug]
          · simp [Indexes.hasIndex, pushEntry, same]
  have blocks : ∀ (rest : List (MachineBasicBlock MachineInstr)) (state : Indexes MachineInstr × Nat),
      (rest.foldl (indexBlock unsigned isDebugInstr) state).1.hasIndex MI = true ↔
        state.1.hasIndex MI = true ∨
          (MI ∈ rest.flatMap MachineBasicBlock.instrs ∧ isDebugInstr MI = false) := by
    intro rest
    induction rest with
    | nil => simp
    | cons mbb rest ih =>
        intro state
        have walked : (indexBlock unsigned isDebugInstr state mbb).1.hasIndex =
            (mbb.instrs.foldl (indexInstr unsigned isDebugInstr) state).1.hasIndex := rfl
        rw [foldl_cons, ih, walked, instrs, flatMap_cons, mem_append]
        tauto
  have whole := blocks mf (⟨[], [⟨0, none, 0⟩], fun _ => none, List.replicate getNumBlockIDs none,
    [], 1⟩, 0)
  rw [or_iff_right (by simp [Indexes.hasIndex])] at whole
  exact whole

/-- From the first numbering on, over every sequence of steps that the callers may take
and whose numbers stay below 2^32, the code goes through, slot indexes mirror the program
order, and two indexes that were there after any of the steps compare as they did then. The
instructions with an index are those first numbered, debug instructions apart, and what the
steps have made of them. -/
theorem indexes_mirror (isDebugInstr : MachineInstr → Bool) (getNumBlockIDs : Nat)
    (mf : List (MachineBasicBlock MachineInstr)) (steps : List (Step MachineInstr))
    (inside : ∀ mbb ∈ mf, mbb.number < getNumBlockIDs)
    (numbers : (mf.map MachineBasicBlock.number).Nodup)
    (instrs : (mf.flatMap MachineBasicBlock.instrs).Nodup)
    (below : Fits (runOnMachineFunction id isDebugInstr getNumBlockIDs mf).indexList)
    (every : Runs.EveryStep (step wrap32)
      (fun first current => Allowed first current ∧ StaysBelow first current) steps
      (runOnMachineFunction wrap32 isDebugInstr getNumBlockIDs mf)) :
    ∃ state, Runs.run (step wrap32) steps
        (runOnMachineFunction wrap32 isDebugInstr getNumBlockIDs mf) = some state ∧
      Mirrors state ∧
      state.hasIndex = steps.foldl (fun indexed first => indexedAfter first indexed) (fun MI =>
        decide (MI ∈ mf.flatMap MachineBasicBlock.instrs ∧ isDebugInstr MI = false)) ∧
      ∀ taken rest middle, steps = taken ++ rest →
        Runs.run (step wrap32) taken
          (runOnMachineFunction wrap32 isDebugInstr getNumBlockIDs mf) = some middle →
        ∀ left right : SlotIndex, left.listEntry ∈ addresses middle.indexList →
          right.listEntry ∈ addresses middle.indexList →
            (getIndex state.indexList left < getIndex state.indexList right ↔
              getIndex middle.indexList left < getIndex middle.indexList right) := by
  have numbered : (runOnMachineFunction wrap32 isDebugInstr getNumBlockIDs mf).hasIndex = fun MI =>
      decide (MI ∈ mf.flatMap MachineBasicBlock.instrs ∧ isDebugInstr MI = false) := by
    funext MI
    rw [Bool.eq_iff_iff, decide_eq_true_iff]
    exact runOnMachineFunction_hasIndex wrap32 isDebugInstr getNumBlockIDs mf MI
  have tiled := runOnMachineFunction_tiled isDebugInstr inside numbers instrs
  rw [← runOnMachineFunction_wrap32 isDebugInstr below] at tiled
  rw [← numbered]
  generalize runOnMachineFunction wrap32 isDebugInstr getNumBlockIDs mf = start at tiled every ⊢
  obtain ⟨state, done, final, _⟩ := run_tiled tiled every
  refine ⟨state, done, final.mirrors, run_hasIndex done, ?_⟩
  intro taken rest middle split reached left right inLeft inRight
  rw [split, Runs.everyStep_append] at every
  obtain ⟨before, run, kept, _⟩ := run_tiled tiled every.1
  rw [reached] at run
  cases run
  obtain ⟨after, further, last, sub⟩ := run_tiled kept (every.2 middle reached)
  rw [split, Runs.run_append, reached, bind_some, further] at done
  cases done
  exact getIndex_lt_iff kept last sub inLeft inRight

def twoBlocks : List (MachineBasicBlock Nat) := [⟨0, [1, 2]⟩, ⟨1, [3]⟩]

/-- A new instruction between the two of the first block, and a new block behind it. -/
def insertions : List (Step Nat) :=
  [.placeInstr 0 1 10, .insertMachineInstrInMaps 10 false, .insertMBBInMaps 1 ⟨2, []⟩]

theorem twoBlocks_mirror :
    ∃ state, Runs.run (step wrap32) insertions
        (runOnMachineFunction wrap32 (fun _ => false) 2 twoBlocks) = some state ∧
      Mirrors state ∧ state.hasIndex 10 = true := by
  have every : Runs.EveryStep (step wrap32)
      (fun first current => Allowed first current ∧ StaysBelow first current) insertions
      (runOnMachineFunction wrap32 (fun _ => false) 2 twoBlocks) := by
    refine ⟨⟨?_, by decide⟩, ?_⟩
    · change ∀ mbb ∈ _, _
      decide
    intro placed done
    cases done
    refine ⟨⟨?_, by decide⟩, ?_⟩
    · change (∃ mbb ∈ _, _) ∧ _ = false
      decide
    intro inserted done
    cases done
    refine ⟨⟨?_, by decide⟩, fun _ _ => trivial⟩
    change _ ≠ [] ∧ _ = _ ∧ _ ∧ ∀ instr ∈ _, _
    decide
  obtain ⟨state, done, mirrors, indexed, _⟩ := indexes_mirror (fun _ => false) 2 twoBlocks
    insertions (by decide) (by decide) (by decide) (by decide) every
  exact ⟨state, done, mirrors, by rw [indexed]; decide⟩

end EvmBackend.SlotIndexes
