/-
Every step keeps the list of entries a tiling of the function.

The list is cut where an entry goes in or changes, and only the part of one block is
different afterwards.
-/

import EvmBackend.SlotIndexes.Numbering

namespace EvmBackend.SlotIndexes

open List Option Function

variable {MachineInstr : Type}

section Lists

variable {entries : List (IndexListEntry MachineInstr)}
  {front back : List (Nat × Option MachineInstr)} {address : Nat} {mi : Option MachineInstr}

/-! ### Cutting the list -/

section

variable (distinct : (addresses entries).Nodup) (split : shapes entries = front ++ (address, mi) :: back)

include distinct split

theorem splitBefore_eq :
    ∃ before later, splitBefore address entries = some (before, later) ∧
      entries = before ++ later ∧ shapes before = front ∧
      shapes later = (address, mi) :: back := by
  obtain ⟨before, later, rfl, rfl, rest⟩ := map_eq_append_iff.mp split
  obtain ⟨entry, behind, rfl, here, _⟩ := map_eq_cons_iff.mp rest
  have same : entry.address = address := congrArg Prod.fst here
  have apart : ∀ other ∈ before, (other.address != address) = true := by
    intro other member
    rw [bne_iff_ne, ← same]
    rw [addresses, map_append, map_cons] at distinct
    intro equal
    exact (nodup_append.mp distinct).2.2 _ (List.mem_map_of_mem member) _
      mem_cons_self equal
  have stops : ¬ (entry.address != address) = true := by
    rw [same, bne_self_eq_false]
    exact Bool.false_ne_true
  refine ⟨before, entry :: behind, ?_, rfl, rfl, rest⟩
  rw [splitBefore, takeWhile_append_of_pos apart,
    dropWhile_append_of_pos apart, takeWhile_cons, dropWhile_cons, if_neg stops,
    if_neg stops, append_nil]
  rfl

theorem splitAfter_eq :
    ∃ before later, splitAfter address entries = some (before, later) ∧
      entries = before ++ later ∧ shapes before = front ++ [(address, mi)] ∧
      shapes later = back := by
  obtain ⟨before, later, cut, whole, sameFront, sameBack⟩ := splitBefore_eq distinct split
  obtain ⟨entry, behind, rfl, here, rest⟩ := map_eq_cons_iff.mp sameBack
  refine ⟨before ++ [entry], behind, ?_, ?_, ?_, rest⟩
  · rw [splitAfter, cut]
    rfl
  · rw [whole, List.append_assoc]
    rfl
  · rw [shapes_append, sameFront]
    exact congrArg (front ++ [·]) here

theorem shapes_setInstr (new : Option MachineInstr) :
    shapes (setInstr address new entries) = front ++ (address, new) :: back := by
  have each : shapes (setInstr address new entries) =
      (shapes entries).map fun shape => if shape.1 = address then (shape.1, new) else shape := by
    rw [shapes, setInstr, shapes, List.map_map, List.map_map]
    apply map_congr_left
    intro entry _
    simp only [Function.comp_apply]
    split <;> rfl
  rw [addresses_eq, split, map_append, map_cons] at distinct
  obtain ⟨_, behind, apart⟩ := nodup_append.mp distinct
  have stays : ∀ part : List (Nat × Option MachineInstr), (∀ shape ∈ part, shape.1 ≠ address) →
      (part.map fun shape => if shape.1 = address then (shape.1, new) else shape) = part := by
    intro part differ
    have same : ∀ shape ∈ part,
        (if shape.1 = address then (shape.1, new) else shape) = id shape := by
      intro shape member
      rw [if_neg (differ shape member)]
      rfl
    rw [map_congr_left same, List.map_id]
  rw [each, split, map_append, map_cons, if_pos rfl]
  rw [stays front, stays back]
  · intro shape member same
    have inBack : shape.1 ∈ back.map Prod.fst := List.mem_map_of_mem member
    rw [same] at inBack
    exact (nodup_cons.mp behind).1 inBack
  · intro shape member same
    exact apart shape.1 (List.mem_map_of_mem member) address mem_cons_self same

end

theorem addresses_setInstr (new : Option MachineInstr) :
    addresses (setInstr address new entries) = addresses entries := by
  rw [addresses, setInstr, List.map_map]
  apply map_congr_left
  intro entry _
  simp only [Function.comp_apply]
  split <;> rfl

theorem Ordered.setInstr (ordered : Ordered entries) (new : Option MachineInstr) :
    Ordered (setInstr address new entries) := by
  have same : ∀ entry : IndexListEntry MachineInstr,
      (if entry.address = address then { entry with mi := new } else entry).index = entry.index := by
    intro entry
    split <;> rfl
  refine ⟨?_, ?_⟩
  · rw [SlotIndexes.setInstr, pairwise_map]
    simp only [same]
    exact ordered.increasing
  · intro entry member
    obtain ⟨old, inEntries, rfl⟩ := List.mem_map.mp member
    rw [same]
    exact ordered.fours old inEntries

theorem body_split {body : List (Nat × Option MachineInstr)} {before behind : List MachineInstr}
    {MI : MachineInstr} (instrs : body.filterMap Prod.snd = before ++ MI :: behind) :
    ∃ earlier address later, body = earlier ++ (address, some MI) :: later ∧
      earlier.filterMap Prod.snd = before ∧ later.filterMap Prod.snd = behind := by
  obtain ⟨earlier, rest, rfl, sameBefore, others⟩ := filterMap_eq_append_iff.mp instrs
  obtain ⟨nulls, shape, later, rfl, none, isMI, sameBehind⟩ := filterMap_eq_cons_iff.mp others
  obtain ⟨address, mi⟩ := shape
  cases isMI
  refine ⟨earlier ++ nulls, address, later, ?_, ?_, sameBehind⟩
  · rw [List.append_assoc]
  · rw [filterMap_append, sameBefore, filterMap_eq_nil_iff.mpr none, append_nil]

theorem mem_replaced {MI : MachineInstr}
    (distinct : ((front ++ (address, some MI) :: back).map Prod.fst).Nodup)
    (only : ∀ place, (place, some MI) ∈ front ++ (address, some MI) :: back → place = address)
    (new : Option MachineInstr) (other : MachineInstr) (place : Nat) :
    (place, some other) ∈ front ++ (address, new) :: back ↔
      other ≠ MI ∧ (place, some other) ∈ front ++ (address, some MI) :: back ∨
        new = some other ∧ place = address := by
  rw [map_append, map_cons] at distinct
  obtain ⟨_, unique, differ⟩ := nodup_append.mp distinct
  have notFront : (address, some MI) ∉ front := by
    intro member
    exact differ address (List.mem_map_of_mem member) address mem_cons_self rfl
  have notBack : (address, some MI) ∉ back := by
    intro member
    exact (nodup_cons.mp unique).1 (List.mem_map_of_mem member)
  rw [mem_append, mem_cons, mem_append, mem_cons]
  constructor
  · rintro (inFront | here | inBack)
    · left
      refine ⟨?_, Or.inl inFront⟩
      rintro rfl
      have same := only place (mem_append_left _ inFront)
      exact notFront (same ▸ inFront)
    · right
      cases here
      exact ⟨rfl, rfl⟩
    · left
      refine ⟨?_, Or.inr (Or.inr inBack)⟩
      rintro rfl
      have same := only place (mem_append_right _ (mem_cons_of_mem _ inBack))
      exact notBack (same ▸ inBack)
  · rintro (⟨differs, inFront | here | inBack⟩ | ⟨isNew, rfl⟩)
    · exact Or.inl inFront
    · cases here
      exact absurd rfl differs
    · exact Or.inr (Or.inr inBack)
    · rw [isNew]
      exact Or.inr (Or.inl rfl)

end Lists

variable [DecidableEq MachineInstr]

structure Tiled (state : Indexes MachineInstr) : Prop where
  tiles : ∃ start rest, shapes state.indexList = (start, none) :: rest ∧
    Tiles state.hasIndex state.MBBRanges state.mf start rest
  distinct : (addresses state.indexList).Nodup
  fresh : ∀ address ∈ addresses state.indexList, address < state.allocated
  maps : ∀ MI index, state.mi2iMap MI = some index ↔
    ∃ address, index = SlotIndex.atEntry address ∧ (address, some MI) ∈ shapes state.indexList
  instrs : (state.mf.flatMap MachineBasicBlock.instrs).Nodup
  numbers : (state.mf.map MachineBasicBlock.number).Nodup
  starts : Starts state.MBBRanges state.idx2MBBMap (state.mf.map MachineBasicBlock.number)
  ordered : Ordered state.indexList

variable {state : Indexes MachineInstr} {MI : MachineInstr}

omit [DecidableEq MachineInstr] in
theorem Tiled.hasIndex_iff (tiled : Tiled state) :
    state.hasIndex MI = true ↔ ∃ address, (address, some MI) ∈ shapes state.indexList := by
  rw [Indexes.hasIndex, isSome_iff_exists]
  constructor
  · intro ⟨index, mapped⟩
    obtain ⟨address, _, member⟩ := (tiled.maps MI index).mp mapped
    exact ⟨address, member⟩
  · intro ⟨address, member⟩
    exact ⟨_, (tiled.maps MI _).mpr ⟨address, rfl, member⟩⟩

omit [DecidableEq MachineInstr] in
theorem Tiled.exists_block (tiled : Tiled state) (indexed : state.hasIndex MI = true) :
    ∃ mbb ∈ state.mf, MI ∈ mbb.instrs := by
  obtain ⟨address, member⟩ := tiled.hasIndex_iff.mp indexed
  obtain ⟨start, rest, shape, tiles⟩ := tiled.tiles
  have inList : MI ∈ (shapes state.indexList).filterMap Prod.snd :=
    mem_filterMap.mpr ⟨(address, some MI), member, rfl⟩
  rw [shape, tiles.filterMap_eq] at inList
  exact mem_flatMap.mp (mem_of_mem_filter inList)

/-! ### Blocks get and lose instructions -/

omit [DecidableEq MachineInstr] in
theorem Tiled.editBlocks (tiled : Tiled state)
    {edit : MachineBasicBlock MachineInstr → MachineBasicBlock MachineInstr}
    (number : ∀ mbb, (edit mbb).number = mbb.number)
    (instrs : ∀ mbb, (edit mbb).instrs.filter state.hasIndex = mbb.instrs.filter state.hasIndex)
    (distinct : ((state.mf.map edit).flatMap MachineBasicBlock.instrs).Nodup) :
    Tiled { state with mf := state.mf.map edit } := by
  have numbers : (state.mf.map edit).map MachineBasicBlock.number =
      state.mf.map MachineBasicBlock.number := by
    rw [List.map_map]
    exact map_congr_left fun mbb _ => number mbb
  obtain ⟨start, rest, shape, tiles⟩ := tiled.tiles
  refine ⟨⟨start, rest, shape, tiles.map number instrs⟩, tiled.distinct, tiled.fresh, tiled.maps,
    distinct, ?_, ?_, tiled.ordered⟩
  · rw [numbers]
    exact tiled.numbers
  · rw [numbers]
    exact tiled.starts

theorem filter_takeInstr (absent : state.hasIndex MI = false) (instrs : List MachineInstr) :
    (instrs.filter (· ≠ MI)).filter state.hasIndex = instrs.filter state.hasIndex := by
  rw [List.filter_filter]
  apply filter_congr
  intro instr _
  by_cases same : instr = MI
  · rw [same, absent, Bool.false_and]
  · rw [decide_eq_true same, Bool.and_true]

theorem takeInstr_tiled (tiled : Tiled state) (absent : state.hasIndex MI = false) :
    ∃ next, step id (.takeInstr MI) state = some next ∧ Tiled next := by
  refine ⟨_, rfl, ?_⟩
  refine tiled.editBlocks (fun _ => rfl) (fun mbb => filter_takeInstr absent mbb.instrs) ?_
  have filtered : ∀ mf : List (MachineBasicBlock MachineInstr),
      (mf.map fun mbb => { mbb with instrs := mbb.instrs.filter (· ≠ MI) }).flatMap
        MachineBasicBlock.instrs = (mf.flatMap MachineBasicBlock.instrs).filter (· ≠ MI) := by
    intro mf
    induction mf with
    | nil => rfl
    | cons mbb mf ih => rw [map_cons, flatMap_cons, ih, flatMap_cons, filter_append]
  rw [filtered]
  exact tiled.instrs.filter _

omit [DecidableEq MachineInstr] in
theorem editBlock_of_not_mem {number : Nat} {edit : List MachineInstr → List MachineInstr}
    {mf : List (MachineBasicBlock MachineInstr)}
    (absent : number ∉ mf.map MachineBasicBlock.number) : editBlock number edit mf = mf := by
  have same : ∀ mbb ∈ mf,
      (if mbb.number = number then { mbb with instrs := edit mbb.instrs } else mbb) = id mbb := by
    intro mbb member
    have differs : mbb.number ≠ number := fun here => absent (here ▸ List.mem_map_of_mem member)
    rw [if_neg differs]
    rfl
  rw [editBlock, map_congr_left same, List.map_id]

omit [DecidableEq MachineInstr] in
theorem editBlock_cons (number : Nat) (edit : List MachineInstr → List MachineInstr)
    (mbb : MachineBasicBlock MachineInstr) (mf : List (MachineBasicBlock MachineInstr)) :
    editBlock number edit (mbb :: mf) =
      (if mbb.number = number then { mbb with instrs := edit mbb.instrs } else mbb) ::
        editBlock number edit mf := rfl

omit [DecidableEq MachineInstr] in
theorem flatMap_placeInstr (number position : Nat) (MI : MachineInstr)
    {mf : List (MachineBasicBlock MachineInstr)}
    (distinct : (mf.map MachineBasicBlock.number).Nodup) :
    (editBlock number (fun instrs => instrs.take position ++ MI :: instrs.drop position) mf).flatMap
        MachineBasicBlock.instrs = mf.flatMap MachineBasicBlock.instrs ∨
      ((editBlock number (fun instrs => instrs.take position ++ MI :: instrs.drop position)
        mf).flatMap MachineBasicBlock.instrs).Perm
          (MI :: mf.flatMap MachineBasicBlock.instrs) := by
  induction mf with
  | nil => exact Or.inl rfl
  | cons mbb mf ih =>
      obtain ⟨apart, later⟩ := nodup_cons.mp distinct
      by_cases here : mbb.number = number
      · right
        have rest : editBlock number
            (fun instrs => instrs.take position ++ MI :: instrs.drop position) mf = mf :=
          editBlock_of_not_mem (here ▸ apart)
        rw [editBlock_cons, if_pos here, rest, flatMap_cons, flatMap_cons]
        have middle : (mbb.instrs.take position ++ MI :: mbb.instrs.drop position).Perm
            (MI :: mbb.instrs) := by
          have whole := take_append_drop position mbb.instrs
          nth_rewrite 3 [← whole]
          exact perm_middle
        exact middle.append_right _
      · rw [editBlock_cons, if_neg here, flatMap_cons, flatMap_cons]
        rcases ih later with same | perm
        · exact Or.inl (congrArg _ same)
        · exact Or.inr ((perm.append_left _).trans perm_middle)

omit [DecidableEq MachineInstr] in
theorem filter_placeInstr (absent : state.hasIndex MI = false) (position : Nat)
    (instrs : List MachineInstr) :
    (instrs.take position ++ MI :: instrs.drop position).filter state.hasIndex =
      instrs.filter state.hasIndex := by
  rw [filter_append, filter_cons_of_neg (Bool.eq_false_iff.mp absent),
    ← filter_append, take_append_drop]

theorem placeInstr_tiled (tiled : Tiled state) (number position : Nat)
    (absent : ∀ mbb ∈ state.mf, MI ∉ mbb.instrs) :
    ∃ next, step id (.placeInstr number position MI) state = some next ∧ Tiled next := by
  have noIndex : state.hasIndex MI = false := by
    rw [Bool.eq_false_iff]
    intro indexed
    obtain ⟨mbb, member, inBlock⟩ := tiled.exists_block indexed
    exact absent mbb member inBlock
  refine ⟨_, rfl, tiled.editBlocks ?_ ?_ ?_⟩
  · intro mbb
    split <;> rfl
  · intro mbb
    split
    · exact filter_placeInstr noIndex position mbb.instrs
    · rfl
  · rcases flatMap_placeInstr number position MI tiled.numbers with same | perm
    · exact same ▸ tiled.instrs
    · refine perm.nodup_iff.mpr (nodup_cons.mpr ⟨?_, tiled.instrs⟩)
      intro member
      obtain ⟨mbb, inFunction, inBlock⟩ := mem_flatMap.mp member
      exact absent mbb inFunction inBlock

/-! ### Instructions in the maps -/

omit [DecidableEq MachineInstr] in
theorem Tiled.not_mem_others (tiled : Tiled state)
    {before behind : List (MachineBasicBlock MachineInstr)} {mbb : MachineBasicBlock MachineInstr}
    (split : state.mf = before ++ mbb :: behind) (inBlock : MI ∈ mbb.instrs) :
    ∀ other ∈ before ++ behind, ∀ instr ∈ other.instrs, instr ≠ MI := by
  have distinct := (nodup_flatMap.mp tiled.instrs).2
  rw [split] at distinct
  obtain ⟨_, later, earlier⟩ := pairwise_append.mp distinct
  intro other member instr inOther same
  rcases mem_append.mp member with inBefore | inBehind
  · exact earlier other inBefore mbb mem_cons_self inOther (same ▸ inBlock)
  · exact (pairwise_cons.mp later).1 other inBehind inBlock (same ▸ inOther)

omit [DecidableEq MachineInstr] in
theorem Tiled.setEntry (tiled : Tiled state) {address : Nat} (new : Option MachineInstr)
    (mapped : state.mi2iMap MI = some (SlotIndex.atEntry address))
    {before behind : List (MachineBasicBlock MachineInstr)} {mbb : MachineBasicBlock MachineInstr}
    (split : state.mf = before ++ mbb :: behind) {map' : MachineInstr → Option SlotIndex}
    (moved : ∀ other index, map' other = some index ↔
      other ≠ MI ∧ state.mi2iMap other = some index ∨
        new = some other ∧ index = SlotIndex.atEntry address)
    (others : ∀ other ∈ before ++ behind, ∀ instr ∈ other.instrs,
      (map' instr).isSome = state.hasIndex instr)
    (earlier later : List MachineInstr)
    (filtered : mbb.instrs.filter state.hasIndex = earlier ++ MI :: later)
    (filtered' : (mbb.instrs.filter fun instr => (map' instr).isSome) =
      earlier ++ (new.toList ++ later)) :
    Tiled { state with
      mi2iMap := map'
      indexList := setInstr address new state.indexList } := by
  obtain ⟨start, rest, shape, tiles⟩ := tiled.tiles
  rw [split] at tiles
  obtain ⟨front, first, body, next, back, whole, instrs, _, _, _, rebuild⟩ := tiles.focus
  rw [filtered] at instrs
  obtain ⟨left, place, right, rfl, sameLeft, sameRight⟩ := body_split instrs
  rw [whole] at shape
  have here : place = address := by
    have member : (place, some MI) ∈ shapes state.indexList := by
      rw [shape]
      simp only [mem_append, mem_cons, true_or, or_true]
    have known := (tiled.maps MI _).mpr ⟨place, rfl, member⟩
    rw [mapped] at known
    exact (congrArg SlotIndex.listEntry (Option.some.inj known)).symm
  subst here
  have cut : shapes state.indexList = (front ++ (first, none) :: left) ++ (place, some MI) ::
      (right ++ (next, none) :: back) := by
    rw [shape]
    simp only [List.append_assoc, List.cons_append]
  have cut' := shapes_setInstr tiled.distinct cut new
  obtain ⟨rest', sameList, rebuilt⟩ := rebuild (fun instr => (map' instr).isSome) mbb.instrs
    (left ++ (place, new) :: right) others (by
      rw [filtered', filterMap_append, sameLeft, filterMap_cons]
      cases new with
      | none => rw [sameRight]; rfl
      | some instr => rw [sameRight]; rfl)
  refine ⟨⟨start, rest', ?_, ?_⟩, ?_, ?_, ?_, tiled.instrs, tiled.numbers, tiled.starts,
    tiled.ordered.setInstr new⟩
  · rw [cut', sameList]
    simp only [List.append_assoc, List.cons_append]
  · rw [split]
    exact rebuilt
  · rw [addresses_setInstr]
    exact tiled.distinct
  · rw [addresses_setInstr]
    exact tiled.fresh
  · have only : ∀ other, (other, some MI) ∈ shapes state.indexList → other = place := by
      intro other member
      have known := (tiled.maps MI _).mpr ⟨other, rfl, member⟩
      rw [mapped] at known
      exact (congrArg SlotIndex.listEntry (Option.some.inj known)).symm
    have distinct := tiled.distinct
    rw [addresses_eq, cut] at distinct
    rw [cut] at only
    have member' := mem_replaced distinct only new
    rw [← cut, ← cut'] at member'
    intro other index
    rw [moved, tiled.maps]
    constructor
    · rintro (⟨differs, where', rfl, member⟩ | ⟨isNew, rfl⟩)
      · exact ⟨where', rfl, (member' other where').mpr (Or.inl ⟨differs, member⟩)⟩
      · exact ⟨place, rfl, (member' other place).mpr (Or.inr ⟨isNew, rfl⟩)⟩
    · rintro ⟨where', rfl, member⟩
      rcases (member' other where').mp member with ⟨differs, inOld⟩ | ⟨isNew, rfl⟩
      · exact Or.inl ⟨differs, where', rfl, inOld⟩
      · exact Or.inr ⟨isNew, rfl⟩

omit [DecidableEq MachineInstr] in
theorem Tiled.indexed_split (tiled : Tiled state) {index : SlotIndex}
    (mapped : state.mi2iMap MI = some index) :
    ∃ address before mbb behind earlier later, index = SlotIndex.atEntry address ∧
      state.mf = before ++ mbb :: behind ∧ mbb.instrs = earlier ++ MI :: later := by
  obtain ⟨address, same, _⟩ := (tiled.maps MI index).mp mapped
  have indexed : state.hasIndex MI = true := by
    rw [Indexes.hasIndex, mapped]
    rfl
  obtain ⟨mbb, member, inBlock⟩ := tiled.exists_block indexed
  obtain ⟨before, behind, split⟩ := append_of_mem member
  obtain ⟨earlier, later, instrs⟩ := append_of_mem inBlock
  exact ⟨address, before, mbb, behind, earlier, later, same, split, instrs⟩

omit [DecidableEq MachineInstr] in
theorem Tiled.block_nodup (tiled : Tiled state) {mbb : MachineBasicBlock MachineInstr}
    (member : mbb ∈ state.mf) : mbb.instrs.Nodup :=
  (nodup_flatMap.mp tiled.instrs).1 mbb member

omit [DecidableEq MachineInstr] in
theorem Tiled.hasIndex_of_mapped {index : SlotIndex} (mapped : state.mi2iMap MI = some index) :
    state.hasIndex MI = true := by
  rw [Indexes.hasIndex, mapped]
  rfl

theorem removeMachineInstrFromMaps_tiled (tiled : Tiled state) (MI : MachineInstr) :
    Tiled (removeMachineInstrFromMaps MI state) := by
  unfold removeMachineInstrFromMaps
  cases mapped : state.mi2iMap MI with
  | none => exact tiled
  | some index =>
      obtain ⟨address, before, mbb, behind, earlier, later, rfl, split, instrs⟩ :=
        tiled.indexed_split mapped
      have inBlock : MI ∈ mbb.instrs := by
        rw [instrs]
        exact mem_append_right _ mem_cons_self
      have distinct := tiled.block_nodup (split ▸ mem_append_right _ mem_cons_self)
      rw [instrs] at distinct
      obtain ⟨_, unique, differ⟩ := nodup_append.mp distinct
      have elsewhere : ∀ instr, instr ≠ MI →
          (update state.mi2iMap MI none instr).isSome = state.hasIndex instr := by
        intro instr differs
        rw [update_of_ne differs]
        rfl
      have gone : ¬ (update state.mi2iMap MI none MI).isSome = true := by
        rw [update_self]
        exact Bool.false_ne_true
      refine tiled.setEntry none mapped split ?_ ?_ (earlier.filter state.hasIndex)
        (later.filter state.hasIndex) ?_ ?_
      · intro other index
        by_cases same : other = MI
        · subst same
          rw [update_self]
          simp
        · rw [update_of_ne same]
          simp [same]
      · intro other member instr inOther
        exact elsewhere instr (tiled.not_mem_others split inBlock other member instr inOther)
      · rw [instrs, filter_append,
          filter_cons_of_pos (Tiled.hasIndex_of_mapped mapped)]
      · rw [instrs, filter_append, filter_cons, if_neg gone]
        congr 1
        · exact filter_congr fun instr member =>
            elsewhere instr (differ instr member MI mem_cons_self)
        · exact filter_congr fun instr member =>
            elsewhere instr fun same => (nodup_cons.mp unique).1 (same ▸ member)

/-- The new instruction stands in the place of the old one: no indexed instruction is
between them. -/
def StandsFor (state : Indexes MachineInstr) (MI NewMI : MachineInstr) : Prop :=
  ∃ mbb ∈ state.mf, ∃ earlier between later,
    (mbb.instrs = earlier ++ MI :: (between ++ NewMI :: later) ∨
      mbb.instrs = earlier ++ NewMI :: (between ++ MI :: later)) ∧
    ∀ instr ∈ between, state.hasIndex instr = false

theorem replaceMachineInstrInMaps_tiled (tiled : Tiled state) {MI NewMI : MachineInstr}
    (unindexed : state.hasIndex MI = true → state.hasIndex NewMI = false)
    (stands : state.hasIndex MI = true → StandsFor state MI NewMI) :
    Tiled (replaceMachineInstrInMaps MI NewMI state) := by
  unfold replaceMachineInstrInMaps
  cases mapped : state.mi2iMap MI with
  | none => exact tiled
  | some index =>
      have indexed := Tiled.hasIndex_of_mapped mapped
      have noIndex := unindexed indexed
      obtain ⟨mbb, member, earlier, between, later, order, empty⟩ := stands indexed
      obtain ⟨before, behind, split⟩ := append_of_mem member
      obtain ⟨address, rfl, _⟩ := (tiled.maps MI index).mp mapped
      have differs : NewMI ≠ MI := by
        rintro rfl
        rw [indexed] at noIndex
        cases noIndex
      have noEntry : state.mi2iMap NewMI = none := by
        rw [Indexes.hasIndex, isSome_eq_false_iff, isNone_iff_eq_none] at noIndex
        exact noIndex
      have erased : (update state.mi2iMap MI none NewMI).isSome = false := by
        rw [update_of_ne differs, noEntry]
        rfl
      simp only [erased, if_neg Bool.false_ne_true]
      have elsewhere : ∀ instr, instr ≠ MI → instr ≠ NewMI →
          (update (update state.mi2iMap MI none) NewMI
            (some (SlotIndex.atEntry address)) instr).isSome = state.hasIndex instr := by
        intro instr notOld notNew
        rw [update_of_ne notNew, update_of_ne notOld]
        rfl
      have old : (update (update state.mi2iMap MI none) NewMI
          (some (SlotIndex.atEntry address)) MI).isSome = false := by
        rw [update_of_ne differs.symm, update_self]
        rfl
      have new : (update (update state.mi2iMap MI none) NewMI
          (some (SlotIndex.atEntry address)) NewMI).isSome = true := by
        rw [update_self]
        rfl
      have distinct := tiled.block_nodup member
      have apart : ∀ instr ∈ earlier ++ (between ++ later), instr ≠ MI ∧ instr ≠ NewMI := by
        have front : mbb.instrs.Perm (MI :: NewMI :: (earlier ++ (between ++ later))) := by
          rcases order with order | order
          · rw [order]
            refine perm_middle.trans (List.Perm.cons _ ?_)
            exact (perm_middle.append_left earlier).trans perm_middle
          · rw [order]
            refine perm_middle.trans ?_
            refine (List.Perm.cons _ ?_).trans (List.Perm.swap _ _ _)
            exact (perm_middle.append_left earlier).trans perm_middle
        obtain ⟨notOld, unique⟩ := nodup_cons.mp (front.nodup_iff.mp distinct)
        intro instr inParts
        refine ⟨?_, ?_⟩
        · rintro rfl
          exact notOld (mem_cons_of_mem _ inParts)
        · rintro rfl
          exact (nodup_cons.mp unique).1 inParts
      have agree : ∀ part : List MachineInstr, (∀ instr ∈ part, instr ∈ earlier ++ (between ++ later)) →
          (part.filter fun instr => (update (update state.mi2iMap MI none) NewMI
            (some (SlotIndex.atEntry address)) instr).isSome) = part.filter state.hasIndex := by
        intro part inside
        apply filter_congr
        intro instr inPart
        obtain ⟨notOld, notNew⟩ := apart instr (inside instr inPart)
        exact elsewhere instr notOld notNew
      have noneBetween : between.filter state.hasIndex = [] :=
        filter_eq_nil_iff.mpr fun instr inBetween => Bool.eq_false_iff.mp (empty instr inBetween)
      have inBlock : MI ∈ mbb.instrs ∧ NewMI ∈ mbb.instrs := by
        rcases order with order | order <;> rw [order] <;> simp
      refine tiled.setEntry (some NewMI) mapped split ?_ ?_ (earlier.filter state.hasIndex)
        (later.filter state.hasIndex) ?_ ?_
      · intro other index
        by_cases isNew : other = NewMI
        · subst isNew
          rw [update_self, noEntry]
          simp [eq_comm]
        · rw [update_of_ne isNew]
          by_cases isOld : other = MI
          · subst isOld
            rw [update_self]
            simp [differs]
          · rw [update_of_ne isOld]
            simp [isOld, Ne.symm isNew]
      · intro other inOthers instr inOther
        refine elsewhere instr ?_ ?_
        · exact tiled.not_mem_others split inBlock.1 other inOthers instr inOther
        · exact tiled.not_mem_others split inBlock.2 other inOthers instr inOther
      · rcases order with order | order
        · rw [order, filter_append, filter_cons_of_pos indexed, filter_append,
            noneBetween, filter_cons_of_neg (Bool.eq_false_iff.mp noIndex), nil_append]
        · rw [order, filter_append, filter_cons_of_neg (Bool.eq_false_iff.mp noIndex),
            filter_append, noneBetween, filter_cons_of_pos indexed, nil_append]
      · have parts := agree earlier fun instr inPart => mem_append_left _ inPart
        have parts' := agree between fun instr inPart =>
          mem_append_right _ (mem_append_left _ inPart)
        have parts'' := agree later fun instr inPart =>
          mem_append_right _ (mem_append_right _ inPart)
        rw [noneBetween] at parts'
        rcases order with order | order
        · rw [order, filter_append, filter_cons, old, if_neg Bool.false_ne_true,
            filter_append, filter_cons, new, if_pos rfl, parts, parts', parts'']
          rfl
        · rw [order, filter_append, filter_cons, new, if_pos rfl, filter_append,
            filter_cons, old, if_neg Bool.false_ne_true, parts, parts', parts'']
          rfl

/-! ### Inserted instructions -/

omit [DecidableEq MachineInstr] in
theorem findSome?_of_filter {Found : Type} (find : MachineInstr → Option Found)
    (instrs : List MachineInstr) :
    ((instrs.filter fun instr => (find instr).isSome) = [] ∧ instrs.findSome? find = none) ∨
      ∃ first rest, (instrs.filter fun instr => (find instr).isSome) = first :: rest ∧
        (find first).isSome = true ∧ instrs.findSome? find = find first := by
  induction instrs with
  | nil => exact Or.inl ⟨rfl, rfl⟩
  | cons instr instrs ih =>
      rw [findSome?_cons]
      cases found : find instr with
      | some here =>
          have some : (find instr).isSome = true := by
            rw [found]
            rfl
          right
          rw [filter_cons, if_pos some]
          exact ⟨instr, _, rfl, some, found.symm⟩
      | none =>
          have none : ¬ (find instr).isSome = true := by
            rw [found]
            exact Bool.false_ne_true
          rw [filter_cons, if_neg none]
          exact ih

theorem Tiled.getParent_eq (tiled : Tiled state)
    {before behind : List (MachineBasicBlock MachineInstr)} {mbb : MachineBasicBlock MachineInstr}
    (split : state.mf = before ++ mbb :: behind) (inBlock : MI ∈ mbb.instrs) :
    state.getParent MI = some mbb := by
  have apart := tiled.not_mem_others split inBlock
  rw [Indexes.getParent, split, find?_append, find?_eq_none.mpr, none_or,
    find?_cons, decide_eq_true inBlock]
  intro other member inOther
  exact apart other (mem_append_left _ member) MI (of_decide_eq_true inOther) rfl

theorem takeWhile_dropWhile_ne {earlier : List MachineInstr} (later : List MachineInstr)
    (absent : MI ∉ earlier) :
    ((earlier ++ MI :: later).takeWhile (· ≠ MI)) = earlier ∧
      ((earlier ++ MI :: later).dropWhile (· ≠ MI)) = MI :: later := by
  have differ : ∀ instr ∈ earlier, decide (instr ≠ MI) = true := by
    intro instr member
    exact decide_eq_true fun same => absent (same ▸ member)
  have stops : ¬ decide (MI ≠ MI) = true := by
    rw [decide_eq_true_eq]
    exact fun differs => differs rfl
  rw [takeWhile_append_of_pos differ, dropWhile_append_of_pos differ,
    takeWhile_cons, dropWhile_cons, if_neg stops, if_neg stops, append_nil]
  exact ⟨rfl, rfl⟩

theorem Tiled.insertionPoint_eq (tiled : Tiled state) (Late : Bool)
    {before behind : List (MachineBasicBlock MachineInstr)} {mbb : MachineBasicBlock MachineInstr}
    (split : state.mf = before ++ mbb :: behind) {earlier later : List MachineInstr}
    (instrs : mbb.instrs = earlier ++ MI :: later) (absent : state.hasIndex MI = false)
    {front body back : List (Nat × Option MachineInstr)} {first next : Nat}
    (shape : shapes state.indexList = front ++ (first, none) :: (body ++ (next, none) :: back))
    (filtered : body.filterMap Prod.snd = mbb.instrs.filter state.hasIndex)
    (range : state.MBBRanges[mbb.number]? =
      some (some (SlotIndex.atEntry first, SlotIndex.atEntry next))) :
    ∃ left right bodyLeft bodyRight, insertionPoint MI Late state = some (left, right) ∧
      state.indexList = left ++ right ∧ body = bodyLeft ++ bodyRight ∧
      shapes left = front ++ (first, none) :: bodyLeft ∧
      shapes right = bodyRight ++ (next, none) :: back ∧
      bodyLeft.filterMap Prod.snd = earlier.filter state.hasIndex ∧
      bodyRight.filterMap Prod.snd = later.filter state.hasIndex := by
  have inBlock : MI ∈ mbb.instrs := by
    rw [instrs]
    exact mem_append_right _ mem_cons_self
  have parent := tiled.getParent_eq split inBlock
  have distinct := tiled.block_nodup (split ▸ mem_append_right _ mem_cons_self)
  rw [instrs] at distinct
  have notEarlier : MI ∉ earlier := by
    intro member
    exact (nodup_append.mp distinct).2.2 MI member MI mem_cons_self rfl
  obtain ⟨takes, drops⟩ := takeWhile_dropWhile_ne later notEarlier
  rw [instrs, filter_append, filter_cons_of_neg (Bool.eq_false_iff.mp absent)] at filtered
  have startIdx : state.getMBBStartIdx mbb.number = some (SlotIndex.atEntry first) := by
    rw [Indexes.getMBBStartIdx, Indexes.getMBBRange, range]
    rfl
  have endIdx : state.getMBBEndIdx mbb.number = some (SlotIndex.atEntry next) := by
    rw [Indexes.getMBBEndIdx, Indexes.getMBBRange, range]
    rfl
  cases Late with
  | true =>
      rcases findSome?_of_filter state.mi2iMap later with ⟨none, notFound⟩ |
        ⟨after, others, some, _, found⟩
      · -- Before the boundary at the end of the block.
        have whole : shapes state.indexList =
            (front ++ (first, Option.none) :: body) ++ (next, Option.none) :: back := by
          rw [shape, List.append_assoc, List.cons_append]
        obtain ⟨left, right, cut, joined, sameLeft, sameRight⟩ := splitBefore_eq tiled.distinct whole
        have noneLater : later.filter state.hasIndex = [] := none
        refine ⟨left, right, body, [], ?_, joined, (append_nil _).symm, sameLeft, sameRight,
          ?_, noneLater.symm⟩
        · rw [insertionPoint, if_pos rfl, Indexes.getIndexAfter, parent]
          simp only [bind_eq_bind, bind_some, instrs, drops, tail_cons, notFound,
            endIdx]
          exact cut
        · rw [filtered, noneLater, append_nil]
      · -- Before the entry of the next indexed instruction.
        have noLater : later.filter state.hasIndex = after :: others := some
        rw [noLater] at filtered
        obtain ⟨bodyLeft, address, bodyRight, rfl, sameLeft, sameRight⟩ := body_split filtered
        have mapped : state.mi2iMap after = Option.some (SlotIndex.atEntry address) := by
          apply (tiled.maps after _).mpr
          refine ⟨address, rfl, ?_⟩
          rw [shape]
          simp only [mem_append, mem_cons, true_or, or_true]
        have whole : shapes state.indexList = (front ++ (first, Option.none) :: bodyLeft) ++
            (address, Option.some after) :: (bodyRight ++ (next, Option.none) :: back) := by
          rw [shape]
          simp only [List.append_assoc, List.cons_append]
        obtain ⟨left, right, cut, joined, leftShape, rightShape⟩ :=
          splitBefore_eq tiled.distinct whole
        refine ⟨left, right, bodyLeft, (address, Option.some after) :: bodyRight, ?_, joined, rfl,
          leftShape, ?_, sameLeft, ?_⟩
        · rw [insertionPoint, if_pos rfl, Indexes.getIndexAfter, parent]
          simp only [bind_eq_bind, bind_some, instrs, drops, tail_cons, found,
            mapped]
          exact cut
        · rw [rightShape, List.cons_append]
        · rw [filterMap_cons, sameRight, noLater]
  | false =>
      rcases findSome?_of_filter state.mi2iMap earlier.reverse with ⟨none, notFound⟩ |
        ⟨after, others, some, _, found⟩
      · -- After the boundary at the start of the block.
        obtain ⟨left, right, cut, joined, sameLeft, sameRight⟩ := splitAfter_eq tiled.distinct shape
        have noneEarlier : earlier.filter state.hasIndex = [] := by
          rw [filter_reverse, reverse_eq_nil_iff] at none
          exact none
        refine ⟨left, right, [], body, ?_, joined, rfl, sameLeft, sameRight, noneEarlier.symm, ?_⟩
        · rw [insertionPoint, if_neg Bool.false_ne_true, Indexes.getIndexBefore, parent]
          simp only [bind_eq_bind, bind_some, instrs, takes, notFound, startIdx]
          exact cut
        · rw [filtered, noneEarlier, nil_append]
      · -- After the entry of the indexed instruction before.
        have someEarlier : earlier.filter state.hasIndex = others.reverse ++ [after] := by
          rw [filter_reverse, reverse_eq_iff, reverse_cons] at some
          exact some
        rw [someEarlier, List.append_assoc, List.cons_append, nil_append] at filtered
        obtain ⟨bodyLeft, address, bodyRight, rfl, sameLeft, sameRight⟩ := body_split filtered
        have mapped : state.mi2iMap after = Option.some (SlotIndex.atEntry address) := by
          apply (tiled.maps after _).mpr
          refine ⟨address, rfl, ?_⟩
          rw [shape]
          simp only [mem_append, mem_cons, true_or, or_true]
        have whole : shapes state.indexList = (front ++ (first, Option.none) :: bodyLeft) ++
            (address, Option.some after) :: (bodyRight ++ (next, Option.none) :: back) := by
          rw [shape]
          simp only [List.append_assoc, List.cons_append]
        obtain ⟨left, right, cut, joined, leftShape, rightShape⟩ :=
          splitAfter_eq tiled.distinct whole
        refine ⟨left, right, bodyLeft ++ [(address, Option.some after)], bodyRight, ?_, joined, ?_,
          ?_, rightShape, ?_, sameRight⟩
        · rw [insertionPoint, if_neg Bool.false_ne_true, Indexes.getIndexBefore, parent]
          simp only [bind_eq_bind, bind_some, instrs, takes, found, mapped]
          exact cut
        · rw [List.append_assoc]
          rfl
        · rw [leftShape, List.append_assoc]
          rfl
        · rw [filterMap_append, sameLeft, someEarlier]
          rfl

theorem maps_inserted {map : MachineInstr → Option SlotIndex} {new : Nat}
    {list list' : List (Nat × Option MachineInstr)}
    (maps : ∀ MI index, map MI = some index ↔
      ∃ address, index = SlotIndex.atEntry address ∧ (address, some MI) ∈ list)
    (absent : ∀ address, (address, some MI) ∉ list)
    (member : ∀ other address, (address, some other) ∈ list' ↔
      (address, some other) ∈ list ∨ address = new ∧ other = MI) :
    ∀ other index, update map MI (some (SlotIndex.atEntry new)) other = some index ↔
      ∃ address, index = SlotIndex.atEntry address ∧ (address, some other) ∈ list' := by
  intro other index
  by_cases same : other = MI
  · subst same
    rw [update_self]
    constructor
    · intro known
      cases known
      exact ⟨new, rfl, (member _ _).mpr (Or.inr ⟨rfl, rfl⟩)⟩
    · rintro ⟨address, rfl, known⟩
      rcases (member _ address).mp known with old | ⟨rfl, _⟩
      · exact absurd old (absent address)
      · rfl
  · rw [update_of_ne same, maps]
    constructor
    · rintro ⟨address, rfl, known⟩
      exact ⟨address, rfl, (member _ address).mpr (Or.inl known)⟩
    · rintro ⟨address, rfl, known⟩
      rcases (member _ address).mp known with old | ⟨_, isMI⟩
      · exact ⟨address, rfl, old⟩
      · exact absurd isMI same

theorem insertMachineInstrInMaps_tiled (tiled : Tiled state) (Late : Bool)
    {mbb : MachineBasicBlock MachineInstr} (member : mbb ∈ state.mf) (inBlock : MI ∈ mbb.instrs)
    (absent : state.hasIndex MI = false) :
    ∃ next, insertMachineInstrInMaps id MI Late state = some next ∧ Tiled next ∧
      (addresses state.indexList).Sublist (addresses next.indexList) := by
  obtain ⟨before, behind, split⟩ := append_of_mem member
  obtain ⟨earlier, later, instrs⟩ := append_of_mem inBlock
  obtain ⟨start, rest, shape, tiles⟩ := tiled.tiles
  rw [split] at tiles
  obtain ⟨front, first, body, next, back, whole, filtered, range, _, _, rebuild⟩ := tiles.focus
  rw [whole] at shape
  obtain ⟨left, right, bodyLeft, bodyRight, cut, joined, rfl, leftShape, rightShape, sameLeft,
    sameRight⟩ := tiled.insertionPoint_eq Late split instrs absent shape filtered range
  have isLast : ∃ prev, left.getLast? = some prev := by
    cases found : left.getLast? with
    | some prev => exact ⟨prev, rfl⟩
    | none =>
        rw [getLast?_eq_none_iff.mp found] at leftShape
        exact absurd leftShape.symm (by simp [shapes])
  have isHead : ∃ next, right.head? = some next := by
    cases found : right.head? with
    | some next => exact ⟨next, rfl⟩
    | none =>
        rw [head?_eq_none_iff.mp found] at rightShape
        exact absurd rightShape.symm (by simp [shapes])
  obtain ⟨prevItr, isLast⟩ := isLast
  obtain ⟨nextItr, isHead⟩ := isHead
  have ordered := tiled.ordered
  rw [joined] at ordered
  obtain ⟨inserted, done, insertedOrdered, insertedShape⟩ :=
    insertEntry_ordered MI state.allocated isLast isHead ordered
  have joinedShape : shapes state.indexList = shapes left ++ shapes right := by
    rw [joined, shapes_append]
  have absentShape : ∀ address, (address, some MI) ∉ shapes state.indexList := by
    intro address present
    rw [tiled.hasIndex_iff.mpr ⟨address, present⟩] at absent
    cases absent
  have elsewhere : ∀ instr, instr ≠ MI → (update state.mi2iMap MI
      (some (SlotIndex.atEntry state.allocated)) instr).isSome = state.hasIndex instr := by
    intro instr differs
    rw [update_of_ne differs]
    rfl
  have here : (update state.mi2iMap MI
      (some (SlotIndex.atEntry state.allocated)) MI).isSome = true := by
    rw [update_self]
    rfl
  have distinct := tiled.block_nodup member
  rw [instrs] at distinct
  obtain ⟨_, unique, differ⟩ := nodup_append.mp distinct
  obtain ⟨rest', sameList, rebuilt⟩ := rebuild
    (fun instr => (update state.mi2iMap MI
      (some (SlotIndex.atEntry state.allocated)) instr).isSome) mbb.instrs
    (bodyLeft ++ (state.allocated, some MI) :: bodyRight)
    (fun other inOthers instr inOther =>
      elsewhere instr (tiled.not_mem_others split inBlock other inOthers instr inOther))
    (by
      rw [instrs, filter_append, filter_cons, if_pos here, filterMap_append,
        sameLeft, filterMap_cons, sameRight]
      congr 1
      · exact (filter_congr fun instr inPart =>
          elsewhere instr (differ instr inPart MI mem_cons_self)).symm
      · exact congrArg (MI :: ·) (filter_congr fun instr inPart =>
          elsewhere instr fun same => (nodup_cons.mp unique).1 (same ▸ inPart)).symm)
  have newAddresses : addresses inserted =
      addresses left ++ state.allocated :: addresses right := by
    rw [addresses_eq, insertedShape, map_append, map_cons, ← addresses_eq,
      ← addresses_eq]
  have oldAddresses : addresses state.indexList = addresses left ++ addresses right := by
    rw [joined]
    exact map_append
  refine ⟨{ state with
      indexList := inserted
      mi2iMap := update state.mi2iMap MI (some (SlotIndex.atEntry state.allocated))
      allocated := state.allocated + 1 }, ?_, ⟨⟨start, rest', ?_, ?_⟩, ?_, ?_, ?_, tiled.instrs,
    tiled.numbers, tiled.starts, insertedOrdered⟩, ?_⟩
  · rw [insertMachineInstrInMaps, cut]
    exact (bind_some ..).trans ((congrArg (Option.bind · _) done).trans (bind_some ..))
  · rw [insertedShape, leftShape, rightShape, sameList]
    simp only [List.append_assoc, List.cons_append]
  · rw [split]
    exact rebuilt
  · rw [newAddresses]
    refine nodup_middle.mpr (nodup_cons.mpr ⟨?_, oldAddresses ▸ tiled.distinct⟩)
    rw [← oldAddresses]
    intro known
    exact Nat.lt_irrefl _ (tiled.fresh _ known)
  · rw [newAddresses]
    intro address known
    have cases : address = state.allocated ∨ address ∈ addresses state.indexList := by
      rw [oldAddresses]
      rcases mem_append.mp known with inLeft | inRight
      · exact Or.inr (mem_append_left _ inLeft)
      rcases mem_cons.mp inRight with rfl | inRight
      · exact Or.inl rfl
      · exact Or.inr (mem_append_right _ inRight)
    rcases cases with rfl | old
    · exact Nat.lt_succ_self _
    · exact Nat.lt_succ_of_lt (tiled.fresh _ old)
  · refine maps_inserted tiled.maps absentShape ?_
    intro other address
    rw [insertedShape, joinedShape, mem_append, mem_cons, mem_append]
    simp only [Prod.mk.injEq, Option.some.injEq]
    constructor
    · rintro (inLeft | new | inRight)
      · exact Or.inl (Or.inl inLeft)
      · exact Or.inr new
      · exact Or.inl (Or.inr inRight)
    · rintro ((inLeft | inRight) | new)
      · exact Or.inl inLeft
      · exact Or.inr (Or.inr inRight)
      · exact Or.inr (Or.inl new)
  · rw [newAddresses, oldAddresses]
    exact (List.Sublist.refl _).append (sublist_cons_self _ _)

end EvmBackend.SlotIndexes
