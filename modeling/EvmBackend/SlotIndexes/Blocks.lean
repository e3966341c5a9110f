/-
New blocks, and the first numbering of a function.

A new block takes the boundary behind the block before it, or a new boundary in front of
the one behind it. The list of blocks by their starts is sorted again, which gives the
layout order.
-/

import EvmBackend.SlotIndexes.Updates

namespace EvmBackend.SlotIndexes

open List

variable {MachineInstr : Type}

variable {pairs : List (SlotIndex × Nat)} {getNumBlockIDs start : Nat}

theorem starts_increase {entries : List (IndexListEntry MachineInstr)}
    {indexed : MachineInstr → Bool} {ranges : List (Option (SlotIndex × SlotIndex))}
    {mf : List (MachineBasicBlock MachineInstr)} {rest : List (Nat × Option MachineInstr)}
    (ordered : Ordered entries) (distinct : (addresses entries).Nodup)
    (shape : shapes entries = (start, none) :: rest) (tiles : Tiles indexed ranges mf start rest)
    (starts : Starts ranges pairs (mf.map MachineBasicBlock.number)) :
    pairs.Pairwise fun left right => getIndex entries left.1 < getIndex entries right.1 := by
  have sub := tiles.starts_sublist starts
  rw [← shape] at sub
  have all : ((shapes entries).map fun shape => SlotIndex.atEntry shape.1).Pairwise
      fun left right => getIndex entries left < getIndex entries right := by
    have addressed : ((shapes entries).map fun shape => SlotIndex.atEntry shape.1) =
        (addresses entries).map SlotIndex.atEntry := by
      rw [addresses_eq, List.map_map]
      rfl
    rw [addressed, pairwise_map]
    refine (ordered.pairwise_addresses distinct).imp_of_mem ?_
    intro left right inLeft inRight less
    rw [getIndex_eq ordered distinct (show (SlotIndex.atEntry left).listEntry ∈ _ from inLeft),
      getIndex_eq ordered distinct (show (SlotIndex.atEntry right).listEntry ∈ _ from inRight)]
    exact less
  have firsts := all.sublist sub
  rw [pairwise_map] at firsts
  exact firsts

theorem sortByFirst_eq {entries : List (IndexListEntry MachineInstr)}
    {sorted : List (SlotIndex × Nat)} (same : pairs.Perm sorted)
    (increase : sorted.Pairwise fun left right => getIndex entries left.1 < getIndex entries right.1) :
    sortByFirst entries pairs = sorted := by
  let le : SlotIndex × Nat → SlotIndex × Nat → Prop := fun left right =>
    getIndex entries left.1 ≤ getIndex entries right.1
  have total : Std.Total le := ⟨fun left right => Nat.le_total _ _⟩
  have trans : IsTrans (SlotIndex × Nat) le := ⟨fun _ _ _ => Nat.le_trans⟩
  have isSorted : (sortByFirst entries pairs).Pairwise le := pairwise_insertionSort le pairs
  have perm : (sortByFirst entries pairs).Perm sorted :=
    (perm_insertionSort le pairs).trans same
  refine List.Perm.eq_of_pairwise ?_ isSorted (increase.imp fun less => Nat.le_of_lt less) perm
  let agree : SlotIndex × Nat → SlotIndex × Nat → Prop := fun left right =>
    getIndex entries left.1 = getIndex entries right.1 → left = right
  have unique : ∀ left ∈ sorted, ∀ right ∈ sorted, agree left right := by
    apply List.Pairwise.forall_of_forall_of_flip
    · exact fun _ _ _ => rfl
    · exact increase.imp fun less same => absurd same less.ne
    · exact increase.imp fun less same => absurd same less.ne'
  intro left right inLeft inRight less more
  exact unique left (perm.subset inLeft) right inRight (Nat.le_antisymm less more)

/-! ### A new block -/

theorem Tiles.insertBlock {indexed : MachineInstr → Bool}
    {ranges : List (Option (SlotIndex × SlotIndex))}
    {before behind : List (MachineBasicBlock MachineInstr)}
    {prev mbb : MachineBasicBlock MachineInstr} {rest : List (Nat × Option MachineInstr)}
    (tiles : Tiles indexed ranges (before ++ prev :: behind) start rest)
    (empty : mbb.instrs.filter indexed = []) :
    ∃ front first body next back,
      (start, none) :: rest = front ++ (first, none) :: (body ++ (next, none) :: back) ∧
      ranges[prev.number]? = some (some (SlotIndex.atEntry first, SlotIndex.atEntry next)) ∧
      (behind = [] → back = []) ∧
      (∀ other others, behind = other :: others → ∃ ends, ranges[other.number]? =
        some (some (SlotIndex.atEntry next, SlotIndex.atEntry ends))) ∧
      ∀ ranges' begins ends,
        (∀ other ∈ before ++ behind, ranges'[other.number]? = ranges[other.number]?) →
        (begins = next ∧ behind = [] ∨ ends = next) →
        ranges'[prev.number]? = some (some (SlotIndex.atEntry first, SlotIndex.atEntry begins)) →
        ranges'[mbb.number]? = some (some (SlotIndex.atEntry begins, SlotIndex.atEntry ends)) →
        ∃ rest', (start, none) :: rest' = front ++ (first, none) ::
            (body ++ (begins, none) :: (ends, none) :: back) ∧
          Tiles indexed ranges' (before ++ prev :: mbb :: behind) start rest' := by
  obtain ⟨front, first, list, split, tail, _, rebuild⟩ := tiles.append
  cases tail with
  | block _ _ _ next body back instrs range later =>
      refine ⟨front, first, body, next, back, split, range, ?_, ?_, ?_⟩
      · rintro rfl
        cases later
        rfl
      · rintro other others rfl
        cases later with
        | block _ _ _ ends _ _ _ itsRange _ => exact ⟨ends, itsRange⟩
      · intro ranges' begins ends same boundary prevRange newRange
        have later' : Tiles indexed ranges' behind ends back := by
          rcases boundary with ⟨_, rfl⟩ | rfl
          · cases later
            exact Tiles.last ends
          · exact later.congr (fun _ _ _ _ => rfl)
              fun other member => same other (mem_append_right _ member)
        apply rebuild indexed ranges'
        · exact fun _ _ _ _ => rfl
        · exact fun other member => same other (mem_append_left _ member)
        · refine Tiles.block prev (mbb :: behind) first begins body ((ends, none) :: back) instrs
            prevRange ?_
          exact Tiles.block mbb behind begins ends [] back empty.symm newRange later'

theorem neighbours_eq {before behind : List (MachineBasicBlock MachineInstr)}
    {mbb : MachineBasicBlock MachineInstr}
    (apart : ∀ other ∈ before, other.number ≠ mbb.number) :
    neighbours mbb.number (before ++ mbb :: behind) = (before, behind) := by
  have differ : ∀ other ∈ before, (other.number != mbb.number) = true := fun other member =>
    bne_iff_ne.mpr (apart other member)
  have stops : ¬ (mbb.number != mbb.number) = true := by
    rw [bne_self_eq_false]
    exact Bool.false_ne_true
  rw [neighbours, takeWhile_append_of_pos differ, dropWhile_append_of_pos differ,
    takeWhile_cons, dropWhile_cons, if_neg stops, if_neg stops, append_nil]
  rfl

def rangesWith (ranges : List (Option (SlotIndex × SlotIndex))) (prev : Nat)
    (startIdx endIdx : SlotIndex) : List (Option (SlotIndex × SlotIndex)) :=
  ranges.modify prev (Option.map fun range => (range.1, startIdx)) ++ [some (startIdx, endIdx)]

section Ranges

variable {ranges : List (Option (SlotIndex × SlotIndex))} {prev : Nat} {startIdx endIdx : SlotIndex}

theorem rangesWith_other {number : Nat} (inside : number < ranges.length) (differs : number ≠ prev) :
    (rangesWith ranges prev startIdx endIdx)[number]? = ranges[number]? := by
  rw [rangesWith, getElem?_append_left (by rw [length_modify]; exact inside),
    getElem?_modify]
  simp only [if_neg differs.symm]
  exact Option.map_id'

theorem rangesWith_prev {range : SlotIndex × SlotIndex} (known : ranges[prev]? = some (some range)) :
    (rangesWith ranges prev startIdx endIdx)[prev]? = some (some (range.1, startIdx)) := by
  have inside := (List.getElem?_eq_some_iff.mp known).1
  rw [rangesWith, getElem?_append_left (by rw [length_modify]; exact inside),
    getElem?_modify, known]
  simp only [if_pos]
  rfl

theorem rangesWith_new :
    (rangesWith ranges prev startIdx endIdx)[ranges.length]? = some (some (startIdx, endIdx)) := by
  rw [rangesWith, getElem?_append_right (by rw [length_modify]), length_modify,
    Nat.sub_self]
  rfl

end Ranges

theorem Starts.congr {ranges ranges' : List (Option (SlotIndex × SlotIndex))} {numbers : List Nat}
    (starts : Starts ranges pairs numbers)
    (same : ∀ number ∈ numbers, ∀ range, ranges[number]? = some (some range) →
      ∃ ends, ranges'[number]? = some (some (range.1, ends))) :
    Starts ranges' pairs numbers := by
  induction starts with
  | nil => exact List.Forall₂.nil
  | @cons pair number pairs numbers here _ ih =>
      refine List.Forall₂.cons ?_ (ih fun other member => same other (mem_cons_of_mem _ member))
      obtain ⟨isNumber, ends, known⟩ := here
      exact ⟨isNumber, same number mem_cons_self _ known⟩

theorem Starts.split {ranges : List (Option (SlotIndex × SlotIndex))} (before behind : List Nat)
    (starts : Starts ranges pairs (before ++ behind)) :
    ∃ left right, pairs = left ++ right ∧ Starts ranges left before ∧
      Starts ranges right behind :=
  ⟨_, _, (take_append_drop before.length pairs).symm,
    forall₂_take_append pairs before behind starts,
    forall₂_drop_append pairs before behind starts⟩

theorem Starts.insert {ranges : List (Option (SlotIndex × SlotIndex))}
    {left right : List (SlotIndex × Nat)} {before behind : List Nat} {number : Nat}
    {startIdx endIdx : SlotIndex} (front : Starts ranges left before)
    (back : Starts ranges right behind) (known : ranges[number]? = some (some (startIdx, endIdx))) :
    Starts ranges (left ++ (startIdx, number) :: right) (before ++ number :: behind) :=
  rel_append front (List.Forall₂.cons ⟨rfl, endIdx, known⟩ back)

variable {state : Indexes MachineInstr}

theorem Tiled.number_lt (tiled : Tiled state) {mbb : MachineBasicBlock MachineInstr}
    (member : mbb ∈ state.mf) : mbb.number < state.MBBRanges.length := by
  obtain ⟨start, rest, _, tiles⟩ := tiled.tiles
  obtain ⟨_, _, known, _⟩ := tiles.exists_range member
  exact (List.getElem?_eq_some_iff.mp known).1

theorem addresses_insert (left right : List Nat) {next begins ends new : Nat}
    (boundary : begins = next ∧ ends = new ∨ begins = new ∧ ends = next) :
    (left ++ begins :: ends :: right).Perm (new :: (left ++ next :: right)) ∧
      (left ++ next :: right).Sublist (left ++ begins :: ends :: right) := by
  rcases boundary with ⟨rfl, rfl⟩ | ⟨rfl, rfl⟩
  · refine ⟨?_, ?_⟩
    · exact ((List.Perm.swap _ _ _).append_left left).trans perm_middle
    · exact (List.Sublist.refl _).append ((sublist_cons_self _ _).cons_cons _)
  · exact ⟨perm_middle, (List.Sublist.refl _).append (sublist_cons_self _ _)⟩

/-- A new block comes behind one of the function, with the next number and
instructions that are in no other block. -/
structure NewBlock (state : Indexes MachineInstr) (before : List (MachineBasicBlock MachineInstr))
    (prev mbb : MachineBasicBlock MachineInstr)
    (behind : List (MachineBasicBlock MachineInstr)) : Prop where
  split : state.mf = before ++ prev :: behind
  isNew : mbb.number = state.MBBRanges.length
  instrs : mbb.instrs.Nodup
  absent : ∀ instr ∈ mbb.instrs, ∀ other ∈ state.mf, instr ∉ other.instrs

section NewBlock

variable {before behind : List (MachineBasicBlock MachineInstr)}
  {prev mbb : MachineBasicBlock MachineInstr}

section

variable (added : NewBlock state before prev mbb behind)

include added

theorem NewBlock.perm :
    (before ++ prev :: mbb :: behind).Perm (mbb :: state.mf) := by
  rw [added.split]
  exact ((List.Perm.swap _ _ _).append_left before).trans perm_middle

theorem NewBlock.around (tiled : Tiled state) :
    neighbours mbb.number (before ++ prev :: mbb :: behind) = (before ++ [prev], behind) := by
  have joined : before ++ prev :: mbb :: behind = (before ++ [prev]) ++ mbb :: behind := by
    rw [List.append_assoc]
    rfl
  rw [joined]
  apply neighbours_eq
  intro other member
  have inside : other ∈ state.mf := by
    rw [added.split]
    rcases mem_append.mp member with inBefore | isPrev
    · exact mem_append_left _ inBefore
    · rw [mem_singleton.mp isPrev]
      exact mem_append_right _ mem_cons_self
  have bound := tiled.number_lt inside
  have isNew := added.isNew
  omega

theorem NewBlock.unindexed (tiled : Tiled state) :
    mbb.instrs.filter state.hasIndex = [] := by
  rw [filter_eq_nil_iff]
  intro instr member indexed
  obtain ⟨other, inFunction, inOther⟩ := tiled.exists_block indexed
  exact added.absent instr member other inFunction inOther

theorem NewBlock.others (tiled : Tiled state)
    (startIdx endIdx : SlotIndex) : ∀ other ∈ before ++ behind,
      (rangesWith state.MBBRanges prev.number startIdx endIdx)[other.number]? =
        state.MBBRanges[other.number]? := by
  intro other member
  have distinct := tiled.numbers
  rw [added.split, map_append, map_cons] at distinct
  obtain ⟨notPrev, _⟩ := nodup_cons.mp (nodup_middle.mp distinct)
  apply rangesWith_other
  · apply tiled.number_lt
    rw [added.split]
    rcases mem_append.mp member with inBefore | inBehind
    · exact mem_append_left _ inBefore
    · exact mem_append_right _ (mem_cons_of_mem _ inBehind)
  · intro same
    apply notPrev
    rw [← same, ← map_append]
    exact List.mem_map_of_mem member

theorem NewBlock.starts (tiled : Tiled state)
    (begins ends : SlotIndex) :
    ∃ leftPairs rightPairs, state.idx2MBBMap = leftPairs ++ rightPairs ∧
      Starts (rangesWith state.MBBRanges prev.number begins ends)
        (leftPairs ++ (begins, mbb.number) :: rightPairs)
        ((before ++ prev :: mbb :: behind).map MachineBasicBlock.number) := by
  have starts := tiled.starts
  rw [added.split, map_append, map_cons] at starts
  obtain ⟨leftPairs, rightPairs, pairs, leftStarts, rightStarts⟩ :=
    Starts.split (before.map MachineBasicBlock.number ++ [prev.number])
      (behind.map MachineBasicBlock.number) (by rw [List.append_assoc]; exact starts)
  have keep : ∀ (number : Nat) (range : SlotIndex × SlotIndex),
      state.MBBRanges[number]? = some (some range) →
      ∃ finish, (rangesWith state.MBBRanges prev.number begins ends)[number]? =
        some (some (range.1, finish)) := by
    intro number range known
    by_cases same : number = prev.number
    · subst same
      exact ⟨_, rangesWith_prev known⟩
    · refine ⟨range.2, ?_⟩
      rw [rangesWith_other (List.getElem?_eq_some_iff.mp known).1 same]
      exact known
  have joined : (before ++ prev :: mbb :: behind).map MachineBasicBlock.number =
      (before.map MachineBasicBlock.number ++ [prev.number]) ++
        mbb.number :: behind.map MachineBasicBlock.number := by
    simp only [map_append, map_cons, List.append_assoc, List.cons_append,
      nil_append]
  refine ⟨leftPairs, rightPairs, pairs, ?_⟩
  rw [joined]
  exact Starts.insert (leftStarts.congr fun number _ => keep number)
    (rightStarts.congr fun number _ => keep number) (added.isNew ▸ rangesWith_new)

end

theorem Tiled.insertBlock (tiled : Tiled state) (added : NewBlock state before prev mbb behind)
    {entries : List (IndexListEntry MachineInstr)} (ordered : Ordered entries)
    {left back : List (Nat × Option MachineInstr)} {next begins ends : Nat}
    {rest' : List (Nat × Option MachineInstr)}
    (old : shapes state.indexList = left ++ (next, none) :: back)
    (new : shapes entries = left ++ (begins, none) :: (ends, none) :: back)
    (boundary : begins = next ∧ ends = state.allocated ∨ begins = state.allocated ∧ ends = next)
    (shape : shapes entries = (start, none) :: rest')
    (tiles : Tiles state.hasIndex
    (rangesWith state.MBBRanges prev.number (SlotIndex.atEntry begins) (SlotIndex.atEntry ends))
    (before ++ prev :: mbb :: behind) start rest') :
    Tiled { state with
      mf := before ++ prev :: mbb :: behind
      indexList := entries
      MBBRanges := rangesWith state.MBBRanges prev.number (SlotIndex.atEntry begins)
        (SlotIndex.atEntry ends)
      idx2MBBMap := sortByFirst entries
        (state.idx2MBBMap ++ [(SlotIndex.atEntry begins, mbb.number)])
      allocated := state.allocated + 1 } ∧
      (addresses state.indexList).Sublist (addresses entries) := by
  have oldAddresses : addresses state.indexList =
      left.map Prod.fst ++ next :: back.map Prod.fst := by
    rw [addresses_eq, old, map_append, map_cons]
  have newAddresses : addresses entries =
      left.map Prod.fst ++ begins :: ends :: back.map Prod.fst := by
    rw [addresses_eq, new, map_append, map_cons, map_cons]
  obtain ⟨perm, sub⟩ := addresses_insert (left.map Prod.fst) (back.map Prod.fst) boundary
  rw [← newAddresses, ← oldAddresses] at perm sub
  have distinct : (addresses entries).Nodup := by
    refine perm.nodup_iff.mpr (nodup_cons.mpr ⟨?_, tiled.distinct⟩)
    exact fun known => Nat.lt_irrefl _ (tiled.fresh _ known)
  obtain ⟨leftPairs, rightPairs, pairs, newStarts⟩ :=
    added.starts tiled (SlotIndex.atEntry begins) (SlotIndex.atEntry ends)
  have sorted : sortByFirst entries
      (state.idx2MBBMap ++ [(SlotIndex.atEntry begins, mbb.number)]) =
        leftPairs ++ (SlotIndex.atEntry begins, mbb.number) :: rightPairs := by
    apply sortByFirst_eq
    · rw [pairs, List.append_assoc]
      exact (perm_append_singleton _ _).append_left leftPairs
    · exact starts_increase ordered distinct shape tiles newStarts
  refine ⟨⟨⟨start, rest', shape, tiles⟩, distinct, ?_, ?_, ?_, ?_, ?_, ordered⟩, sub⟩
  · intro address known
    rcases mem_cons.mp (perm.subset known) with rfl | inOld
    · exact Nat.lt_succ_self _
    · exact Nat.lt_succ_of_lt (tiled.fresh _ inOld)
  · intro MI index
    have same : ∀ address, (address, some MI) ∈ shapes entries ↔
        (address, some MI) ∈ shapes state.indexList := by
      intro address
      rw [old, new]
      simp only [mem_append, mem_cons, Prod.mk.injEq, reduceCtorEq, and_false, false_or]
    simp only [same]
    exact tiled.maps MI index
  · refine (added.perm.flatMap_right _).nodup_iff.mpr
      (nodup_append.mpr ⟨added.instrs, tiled.instrs, ?_⟩)
    rintro instr inNew _ inOld rfl
    obtain ⟨other, member, inOther⟩ := mem_flatMap.mp inOld
    exact added.absent instr inNew other member inOther
  · refine (added.perm.map _).nodup_iff.mpr (nodup_cons.mpr ⟨?_, tiled.numbers⟩)
    intro known
    obtain ⟨other, member, same⟩ := List.mem_map.mp known
    have inside := tiled.number_lt member
    have isNew := added.isNew
    omega
  · rw [sorted]
    exact newStarts

/-- What both ways to insert a block start from: the boundary behind the block
before it, and how the list is tiled with a boundary more. -/
theorem NewBlock.boundary (added : NewBlock state before prev mbb behind) (tiled : Tiled state) :
    ∃ left next back start, shapes state.indexList = left ++ (next, none) :: back ∧ left ≠ [] ∧
      (behind = [] → back = []) ∧
      (∀ other others, behind = other :: others → ∃ ends, state.MBBRanges[other.number]? =
        some (some (SlotIndex.atEntry next, SlotIndex.atEntry ends))) ∧
      ∀ begins ends, (begins = next ∧ behind = [] ∨ ends = next) →
        ∃ rest', left ++ (begins, none) :: (ends, none) :: back = (start, none) :: rest' ∧
          Tiles state.hasIndex (rangesWith state.MBBRanges prev.number (SlotIndex.atEntry begins)
            (SlotIndex.atEntry ends)) (before ++ prev :: mbb :: behind) start rest' := by
  obtain ⟨start, rest, shape, tiles⟩ := tiled.tiles
  rw [added.split] at tiles
  obtain ⟨front, first, body, next, back, whole, prevRange, lastOne, following, rebuild⟩ :=
    tiles.insertBlock (added.unindexed tiled)
  refine ⟨front ++ (first, none) :: body, next, back, start, ?_, by simp, lastOne, following, ?_⟩
  · rw [shape, whole, List.append_assoc, List.cons_append]
  · intro begins ends place
    obtain ⟨rest', newWhole, newTiles⟩ := rebuild _ begins ends (added.others tiled _ _) place
      (rangesWith_prev prevRange) (added.isNew ▸ rangesWith_new)
    exact ⟨rest', by rw [newWhole, List.append_assoc, List.cons_append], newTiles⟩

theorem exists_getLast?_of_shapes {entries : List (IndexListEntry MachineInstr)}
    (nonempty : shapes entries ≠ []) : ∃ entry, entries.getLast? = some entry := by
  cases found : entries.getLast? with
  | some entry => exact ⟨entry, rfl⟩
  | none =>
      rw [getLast?_eq_none_iff.mp found] at nonempty
      exact absurd rfl nonempty

theorem insertMBBInMaps_last (tiled : Tiled state) (added : NewBlock state before prev mbb []) :
    ∃ next, insertMBBInMaps id mbb { state with mf := before ++ prev :: [mbb] } = some next ∧
      Tiled next ∧ (addresses state.indexList).Sublist (addresses next.indexList) := by
  obtain ⟨left, next, back, start, old, _, lastOne, _, rebuild⟩ := added.boundary tiled
  have noBack := lastOne rfl
  subst noBack
  obtain ⟨entry, isLast⟩ := exists_getLast?_of_shapes
    (show shapes state.indexList ≠ [] by rw [old]; simp)
  have isEntry : entry.address = next := by
    have last : (shapes state.indexList).getLast? = some (entry.address, entry.mi) := by
      rw [shapes, getLast?_map, isLast, Option.map_some]
    rw [old, getLast?_concat] at last
    exact (congrArg Prod.fst (Option.some.inj last)).symm
  obtain ⟨entries, renumbered, ordered, newShape⟩ :=
    renumberIndexes_ordered ⟨state.allocated, none, 0⟩ isLast
      (show Ordered (state.indexList ++ []) by rw [append_nil]; exact tiled.ordered)
  have new : shapes entries = left ++ (next, none) :: (state.allocated, none) :: [] := by
    rw [newShape, old, List.append_assoc]
    rfl
  obtain ⟨rest', newWhole, newTiles⟩ := rebuild next state.allocated (Or.inl ⟨rfl, rfl⟩)
  have result := tiled.insertBlock added ordered old new (Or.inl ⟨rfl, rfl⟩)
    (by rw [new, newWhole]) newTiles
  have lastPrev : (before ++ [prev]).getLast? = some prev := getLast?_concat
  have around := added.around tiled
  unfold insertMBBInMaps
  refine ⟨_, ?_, result.1, result.2⟩
  simp only [around, isLast, isEntry, renumbered, lastPrev, Option.bind_eq_bind, Option.bind_some]
  rfl

theorem insertMBBInMaps_between {nextMBB : MachineBasicBlock MachineInstr} (tiled : Tiled state)
    (added : NewBlock state before prev mbb (nextMBB :: behind)) :
    ∃ next, insertMBBInMaps id mbb
        { state with mf := before ++ prev :: mbb :: nextMBB :: behind } = some next ∧
      Tiled next ∧ (addresses state.indexList).Sublist (addresses next.indexList) := by
  obtain ⟨listed, next, back, start, old, nonempty, _, following, rebuild⟩ := added.boundary tiled
  obtain ⟨ends, nextRange⟩ := following nextMBB behind rfl
  have startIdx : (state.MBBRanges[nextMBB.number]?).join =
      some (SlotIndex.atEntry next, SlotIndex.atEntry ends) := by
    rw [nextRange]
    rfl
  obtain ⟨left, right, cut, joined, leftShape, rightShape⟩ := splitBefore_eq tiled.distinct old
  obtain ⟨entry, isLast⟩ := exists_getLast?_of_shapes (by rw [leftShape]; exact nonempty)
  obtain ⟨entries, renumbered, ordered, newShape⟩ :=
    renumberIndexes_ordered ⟨state.allocated, none, 0⟩ isLast (joined ▸ tiled.ordered)
  have new : shapes entries = listed ++ (state.allocated, none) :: (next, none) :: back := by
    rw [newShape, leftShape, rightShape]
  obtain ⟨rest', newWhole, newTiles⟩ := rebuild state.allocated next (Or.inr rfl)
  have result := tiled.insertBlock added ordered old new (Or.inr ⟨rfl, rfl⟩)
    (by rw [new, newWhole]) newTiles
  have lastPrev : (before ++ [prev]).getLast? = some prev := getLast?_concat
  have around := added.around tiled
  unfold insertMBBInMaps
  refine ⟨_, ?_, result.1, result.2⟩
  simp only [around, Indexes.getMBBStartIdx, Indexes.getMBBRange, startIdx, Option.map_some,
    SlotIndex.atEntry, cut, renumbered, lastPrev, Option.bind_eq_bind, Option.bind_some]
  rfl

end NewBlock

theorem insertMBBInMaps_tiled [DecidableEq MachineInstr] (tiled : Tiled state) {position : Nat}
    {mbb : MachineBasicBlock MachineInstr} (notFirst : 0 < position)
    (nonempty : state.mf ≠ []) (isNew : mbb.number = state.MBBRanges.length)
    (instrs : mbb.instrs.Nodup)
    (absent : ∀ instr ∈ mbb.instrs, ∀ other ∈ state.mf, instr ∉ other.instrs) :
    ∃ next, step id (.insertMBBInMaps position mbb) state = some next ∧ Tiled next ∧
      (addresses state.indexList).Sublist (addresses next.indexList) := by
  have some : state.mf.take position ≠ [] := by
    rw [Ne, take_eq_nil_iff]
    rintro (none | none)
    · omega
    · exact nonempty none
  obtain ⟨before, prev, taken⟩ := (eq_nil_or_concat' _).resolve_left some
  have split : state.mf = before ++ prev :: state.mf.drop position := by
    have whole := take_append_drop position state.mf
    rw [taken, List.append_assoc] at whole
    exact whole.symm
  have joined : state.mf.take position ++ mbb :: state.mf.drop position =
      before ++ prev :: mbb :: state.mf.drop position := by
    rw [taken, List.append_assoc]
    rfl
  rw [step, joined]
  have added : NewBlock state before prev mbb (state.mf.drop position) :=
    ⟨split, isNew, instrs, absent⟩
  cases behind : state.mf.drop position with
  | nil =>
      rw [behind] at added
      exact insertMBBInMaps_last tiled added
  | cons nextMBB others =>
      rw [behind] at added
      exact insertMBBInMaps_between tiled added

/-! ### The first numbering -/

/-- The state in the middle of a block, with entries for some of its instructions. -/
structure Pushed (old : Indexes MachineInstr) (done : List MachineInstr)
    (state : Indexes MachineInstr × Nat) : Prop where
  mf : state.1.mf = old.mf
  ranges : state.1.MBBRanges = old.MBBRanges
  pairs : state.1.idx2MBBMap = old.idx2MBBMap
  body : ∃ body, shapes state.1.indexList = shapes old.indexList ++ body ∧
    body.filterMap Prod.snd = done
  distinct : (addresses state.1.indexList).Nodup
  fresh : ∀ address ∈ addresses state.1.indexList, address < state.1.allocated
  maps : ∀ MI index, state.1.mi2iMap MI = some index ↔
    ∃ address, index = SlotIndex.atEntry address ∧ (address, some MI) ∈ shapes state.1.indexList
  ordered : Ordered state.1.indexList
  last : ∃ entry, state.1.indexList.getLast? = some entry ∧ entry.index = state.2

variable {old : Indexes MachineInstr} {done : List MachineInstr} {pushed : Indexes MachineInstr × Nat}

theorem pushEntry_ordered {entries : List (IndexListEntry MachineInstr)} {index address : Nat}
    {mi : Option MachineInstr} (ordered : Ordered entries)
    (last : ∃ entry, entries.getLast? = some entry ∧ entry.index = index) :
    Ordered (entries ++ [⟨address, mi, index + InstrDist⟩]) := by
  obtain ⟨entry, isLast, rfl⟩ := last
  have four := ordered.fours entry (mem_of_getLast? isLast)
  refine ordered.append ⟨pairwise_singleton _ _, ?_⟩ ?_
  · intro other member
    rw [mem_singleton.mp member]
    change (entry.index + 16) % 4 = 0
    omega
  · intro left inEntries right isNew
    rw [mem_singleton.mp isNew]
    have most := ordered.le_getLast isLast left inEntries
    change left.index < entry.index + 16
    omega

theorem nodup_push {entries : List (IndexListEntry MachineInstr)} (entry : IndexListEntry MachineInstr)
    (distinct : (addresses entries).Nodup)
    (fresh : ∀ address ∈ addresses entries, address < entry.address) :
    (addresses (entries ++ [entry])).Nodup ∧
      ∀ address ∈ addresses (entries ++ [entry]), address < entry.address + 1 := by
  have split : addresses (entries ++ [entry]) = addresses entries ++ [entry.address] := map_append
  rw [split]
  refine ⟨?_, ?_⟩
  · rw [nodup_append]
    refine ⟨distinct, nodup_singleton _, ?_⟩
    rintro address known _ isNew rfl
    rw [mem_singleton.mp isNew] at known
    exact Nat.lt_irrefl _ (fresh _ known)
  · intro address known
    rcases mem_append.mp known with inOld | isNew
    · exact Nat.lt_succ_of_lt (fresh _ inOld)
    · rw [mem_singleton.mp isNew]
      exact Nat.lt_succ_self _

variable [DecidableEq MachineInstr]

theorem indexInstr_pushed (isDebugInstr : MachineInstr → Bool) {MI : MachineInstr}
    (state : Pushed old done pushed) (absent : ∀ address, (address, some MI) ∉ shapes old.indexList)
    (notDone : MI ∉ done) :
    Pushed old (if isDebugInstr MI then done else done ++ [MI])
      (indexInstr id isDebugInstr pushed MI) := by
  unfold indexInstr
  by_cases debug : isDebugInstr MI = true
  · rw [if_pos debug, if_pos debug]
    exact state
  rw [if_neg debug, if_neg debug]
  obtain ⟨body, shape, filtered⟩ := state.body
  have noEntry : ∀ address, (address, some MI) ∉ shapes pushed.1.indexList := by
    intro address known
    rw [shape] at known
    rcases mem_append.mp known with inOld | inBody
    · exact absent address inOld
    · apply notDone
      rw [← filtered]
      exact mem_filterMap.mpr ⟨_, inBody, rfl⟩
  obtain ⟨distinct, fresh⟩ := nodup_push ⟨pushed.1.allocated, some MI, pushed.2 + InstrDist⟩
    state.distinct state.fresh
  refine ⟨state.mf, state.ranges, state.pairs, ⟨body ++ [(pushed.1.allocated, some MI)], ?_, ?_⟩,
    distinct, fresh, ?_, pushEntry_ordered state.ordered state.last, ?_⟩
  · change shapes (pushed.1.indexList ++ [_]) = _
    rw [shapes_append, shape, List.append_assoc]
    rfl
  · rw [filterMap_append, filtered]
    rfl
  · refine maps_inserted state.maps noEntry ?_
    intro other address
    change (address, some other) ∈ shapes (pushed.1.indexList ++ [_]) ↔ _
    rw [shapes_append, mem_append]
    simp only [shapes, map_cons, map_nil, mem_singleton, Prod.mk.injEq,
      Option.some.injEq]
  · exact ⟨_, getLast?_concat, rfl⟩

theorem indexInstrs_pushed (isDebugInstr : MachineInstr → Bool) {instrs : List MachineInstr}
    (state : Pushed old done pushed)
    (absent : ∀ MI ∈ instrs, ∀ address, (address, some MI) ∉ shapes old.indexList)
    (distinct : (done ++ instrs).Nodup) :
    Pushed old (done ++ instrs.filter fun MI => !isDebugInstr MI)
      (instrs.foldl (indexInstr id isDebugInstr) pushed) := by
  induction instrs generalizing done pushed with
  | nil =>
      rw [filter_nil, append_nil]
      exact state
  | cons MI instrs ih =>
      have apart := (nodup_cons.mp (nodup_middle.mp distinct)).1
      have next := indexInstr_pushed isDebugInstr state (absent MI mem_cons_self)
        fun known => apart (mem_append_left _ known)
      have later : ∀ other ∈ instrs, ∀ address, (address, some other) ∉ shapes old.indexList :=
        fun other member => absent other (mem_cons_of_mem _ member)
      rw [foldl_cons]
      by_cases debug : isDebugInstr MI = true
      · rw [if_pos debug] at next
        have kept : List.filter (fun MI => !isDebugInstr MI) (MI :: instrs) =
            List.filter (fun MI => !isDebugInstr MI) instrs := by
          rw [filter_cons, debug]
          rfl
        rw [kept]
        exact ih next later (nodup_cons.mp (nodup_middle.mp distinct)).2
      · rw [if_neg debug] at next
        have kept : List.filter (fun MI => !isDebugInstr MI) (MI :: instrs) =
            MI :: List.filter (fun MI => !isDebugInstr MI) instrs := by
          rw [filter_cons, Bool.eq_false_iff.mpr debug]
          rfl
        have whole := ih next later (by rw [List.append_assoc]; exact distinct)
        rw [kept]
        rw [List.append_assoc] at whole
        exact whole

structure Numbered (getNumBlockIDs : Nat) (state : Indexes MachineInstr × Nat) : Prop where
  tiled : Tiled state.1
  last : ∃ entry, state.1.indexList.getLast? = some entry ∧ entry.index = state.2
  length : state.1.MBBRanges.length = getNumBlockIDs

omit [DecidableEq MachineInstr] in
theorem Numbered.begins {state : Indexes MachineInstr × Nat}
    (numbered : Numbered getNumBlockIDs state) : Pushed state.1 [] state :=
  ⟨rfl, rfl, rfl, ⟨[], (append_nil _).symm, rfl⟩, numbered.tiled.distinct, numbered.tiled.fresh,
    numbered.tiled.maps, numbered.tiled.ordered, numbered.last⟩

omit [DecidableEq MachineInstr] in
theorem Pushed.isSome_iff (tiled : Tiled old) (state : Pushed old done pushed) (MI : MachineInstr) :
    (pushed.1.mi2iMap MI).isSome = true ↔ old.hasIndex MI = true ∨ MI ∈ done := by
  obtain ⟨body, shape, rfl⟩ := state.body
  rw [Option.isSome_iff_exists, tiled.hasIndex_iff, mem_filterMap]
  constructor
  · rintro ⟨index, mapped⟩
    obtain ⟨address, _, member⟩ := (state.maps MI index).mp mapped
    rw [shape] at member
    rcases mem_append.mp member with inOld | inBody
    · exact Or.inl ⟨address, inOld⟩
    · exact Or.inr ⟨_, inBody, rfl⟩
  · rintro (⟨address, inOld⟩ | ⟨⟨address, mi⟩, inBody, isMI⟩)
    · refine ⟨_, (state.maps MI _).mpr ⟨address, rfl, ?_⟩⟩
      rw [shape]
      exact mem_append_left _ inOld
    · cases isMI
      refine ⟨_, (state.maps MI _).mpr ⟨address, rfl, ?_⟩⟩
      rw [shape]
      exact mem_append_right _ inBody

omit [DecidableEq MachineInstr] in
theorem Pushed.closeBlock {mbb : MachineBasicBlock MachineInstr} {isDebugInstr : MachineInstr → Bool}
    (tiled : Tiled old)
    (state : Pushed old (mbb.instrs.filter fun MI => !isDebugInstr MI) pushed)
    (inside : mbb.number < old.MBBRanges.length)
    (isNew : mbb.number ∉ old.mf.map MachineBasicBlock.number) (instrs : mbb.instrs.Nodup)
    (absent : ∀ instr ∈ mbb.instrs, ∀ other ∈ old.mf, instr ∉ other.instrs) :
    Tiled { pushed.1 with
      indexList := pushed.1.indexList ++ [⟨pushed.1.allocated, none, pushed.2 + InstrDist⟩]
      allocated := pushed.1.allocated + 1
      mf := pushed.1.mf ++ [mbb]
      MBBRanges := pushed.1.MBBRanges.set mbb.number
        (some (SlotIndex.atEntry (backAddress old.indexList),
          SlotIndex.atEntry pushed.1.allocated))
      idx2MBBMap := pushed.1.idx2MBBMap ++
        [(SlotIndex.atEntry (backAddress old.indexList), mbb.number)] } := by
  obtain ⟨body, shape, filtered⟩ := state.body
  obtain ⟨start, rest, oldShape, tiles⟩ := tiled.tiles
  rw [← append_nil old.mf] at tiles
  obtain ⟨front, boundary, behind, split, lastTiles, _, rebuild⟩ := tiles.append
  cases lastTiles
  have isBack : backAddress old.indexList = boundary := by
    have last : (shapes old.indexList).getLast? = some (boundary, none) := by
      rw [oldShape, split]
      exact getLast?_concat
    rw [shapes, getLast?_map] at last
    rw [backAddress]
    cases found : old.indexList.getLast? with
    | none =>
        rw [found] at last
        cases last
    | some entry =>
        rw [found, Option.map_some] at last
        exact congrArg Prod.fst (Option.some.inj last)
  have indexedOthers : ∀ other ∈ old.mf, ∀ instr ∈ other.instrs,
      (pushed.1.mi2iMap instr).isSome = old.hasIndex instr := by
    intro other member instr inOther
    rw [Bool.eq_iff_iff, state.isSome_iff tiled]
    refine or_iff_left ?_
    intro inBlock
    exact absent instr (mem_of_mem_filter inBlock) other member inOther
  have indexedHere : mbb.instrs.filter (fun instr => (pushed.1.mi2iMap instr).isSome) =
      mbb.instrs.filter fun MI => !isDebugInstr MI := by
    apply filter_congr
    intro instr inBlock
    have notOld : ¬ old.hasIndex instr = true := by
      intro indexed
      obtain ⟨other, member, inOther⟩ := tiled.exists_block indexed
      exact absent instr inBlock other member inOther
    rw [Bool.eq_iff_iff, state.isSome_iff tiled, or_iff_right notOld, mem_filter]
    exact and_iff_right inBlock
  obtain ⟨distinct, fresh⟩ := nodup_push ⟨pushed.1.allocated, none, pushed.2 + InstrDist⟩
    state.distinct state.fresh
  have newShape : shapes (pushed.1.indexList ++
      [⟨pushed.1.allocated, none, pushed.2 + InstrDist⟩]) =
        front ++ (boundary, none) :: (body ++ (pushed.1.allocated, none) :: []) := by
    rw [shapes_append, shape, oldShape, split, List.append_assoc, List.append_assoc]
    rfl
  rw [isBack, state.mf, state.ranges, state.pairs]
  obtain ⟨rest', newSplit, newTiles⟩ := rebuild (fun instr => (pushed.1.mi2iMap instr).isSome)
    (old.MBBRanges.set mbb.number
      (some (SlotIndex.atEntry boundary, SlotIndex.atEntry pushed.1.allocated)))
    [mbb] (body ++ (pushed.1.allocated, none) :: []) indexedOthers
    (by
      intro other member
      apply getElem?_set_ne
      exact fun same => isNew (same ▸ List.mem_map_of_mem member))
    (Tiles.block mbb [] boundary pushed.1.allocated body [] (filtered.trans indexedHere.symm)
      (getElem?_set_self inside) (Tiles.last _))
  refine ⟨⟨start, rest', newShape.trans newSplit.symm, newTiles⟩, distinct, fresh, ?_, ?_, ?_, ?_,
    pushEntry_ordered state.ordered state.last⟩
  · intro MI index
    have same : ∀ address, (address, some MI) ∈ shapes (pushed.1.indexList ++
        [⟨pushed.1.allocated, none, pushed.2 + InstrDist⟩]) ↔
          (address, some MI) ∈ shapes pushed.1.indexList := by
      intro address
      rw [shapes_append, mem_append]
      simp [shapes]
    simp only [same]
    exact state.maps MI index
  · rw [flatMap_append, nodup_append]
    refine ⟨tiled.instrs, ?_, ?_⟩
    · rw [flatMap_singleton]
      exact instrs
    · rintro instr inOld _ inNew rfl
      rw [flatMap_singleton] at inNew
      obtain ⟨other, member, inOther⟩ := mem_flatMap.mp inOld
      exact absent instr inNew other member inOther
  · rw [map_append, nodup_append]
    refine ⟨tiled.numbers, nodup_singleton _, ?_⟩
    rintro number known _ isNumber rfl
    rw [mem_singleton.mp isNumber] at known
    exact isNew known
  · rw [map_append]
    refine rel_append (tiled.starts.congr ?_) (List.Forall₂.cons
      ⟨rfl, SlotIndex.atEntry pushed.1.allocated, getElem?_set_self inside⟩ List.Forall₂.nil)
    intro number member range known
    refine ⟨range.2, ?_⟩
    have differs : mbb.number ≠ number := fun same => isNew (same ▸ member)
    rw [getElem?_set_ne differs]
    exact known

theorem indexBlock_numbered (isDebugInstr : MachineInstr → Bool)
    {state : Indexes MachineInstr × Nat} {mbb : MachineBasicBlock MachineInstr}
    (numbered : Numbered getNumBlockIDs state) (inside : mbb.number < getNumBlockIDs)
    (isNew : mbb.number ∉ state.1.mf.map MachineBasicBlock.number) (instrs : mbb.instrs.Nodup)
    (absent : ∀ instr ∈ mbb.instrs, ∀ other ∈ state.1.mf, instr ∉ other.instrs) :
    Numbered getNumBlockIDs (indexBlock id isDebugInstr state mbb) ∧
      (indexBlock id isDebugInstr state mbb).1.mf = state.1.mf ++ [mbb] := by
  have tiled := numbered.tiled
  have noEntry : ∀ MI ∈ mbb.instrs, ∀ address, (address, some MI) ∉ shapes state.1.indexList := by
    intro MI member address known
    obtain ⟨other, inFunction, inOther⟩ :=
      tiled.exists_block (tiled.hasIndex_iff.mpr ⟨address, known⟩)
    exact absent MI member other inFunction inOther
  have whole := indexInstrs_pushed isDebugInstr numbered.begins noEntry instrs
  rw [nil_append] at whole
  generalize filled : mbb.instrs.foldl (indexInstr id isDebugInstr) state = filledState at whole
  have result : indexBlock id isDebugInstr state mbb =
      ({ filledState.1 with
          indexList := filledState.1.indexList ++
            [⟨filledState.1.allocated, none, filledState.2 + InstrDist⟩]
          allocated := filledState.1.allocated + 1
          mf := filledState.1.mf ++ [mbb]
          MBBRanges := filledState.1.MBBRanges.set mbb.number
            (some (SlotIndex.atEntry (backAddress state.1.indexList),
              SlotIndex.atEntry filledState.1.allocated))
          idx2MBBMap := filledState.1.idx2MBBMap ++
            [(SlotIndex.atEntry (backAddress state.1.indexList), mbb.number)] },
        filledState.2 + InstrDist) := by
    rw [indexBlock, filled]
    rfl
  rw [result]
  refine ⟨⟨?_, ⟨_, getLast?_concat, rfl⟩, ?_⟩, ?_⟩
  · exact whole.closeBlock tiled (numbered.length.symm ▸ inside) isNew instrs absent
  · change (filledState.1.MBBRanges.set _ _).length = _
    rw [length_set, whole.ranges]
    exact numbered.length
  · change filledState.1.mf ++ [mbb] = _
    rw [whole.mf]

theorem indexBlocks_numbered (isDebugInstr : MachineInstr → Bool)
    {state : Indexes MachineInstr × Nat} {mf : List (MachineBasicBlock MachineInstr)}
    (numbered : Numbered getNumBlockIDs state) (inside : ∀ mbb ∈ mf, mbb.number < getNumBlockIDs)
    (numbers : ((state.1.mf ++ mf).map MachineBasicBlock.number).Nodup)
    (instrs : ((state.1.mf ++ mf).flatMap MachineBasicBlock.instrs).Nodup) :
    Numbered getNumBlockIDs (mf.foldl (indexBlock id isDebugInstr) state) := by
  induction mf generalizing state with
  | nil => exact numbered
  | cons mbb mf ih =>
      have isNew : mbb.number ∉ state.1.mf.map MachineBasicBlock.number := by
        rw [map_append, map_cons] at numbers
        intro known
        exact (nodup_cons.mp (nodup_middle.mp numbers)).1 (mem_append_left _ known)
      obtain ⟨each, apart⟩ := nodup_flatMap.mp instrs
      obtain ⟨next, nextMf⟩ := indexBlock_numbered isDebugInstr numbered
        (inside mbb mem_cons_self) isNew
        (each mbb (mem_append_right _ mem_cons_self))
        (by
          intro instr inBlock other member inOther
          exact (pairwise_append.mp apart).2.2 other member mbb mem_cons_self inOther
            inBlock)
      rw [foldl_cons]
      apply ih next fun other member => inside other (mem_cons_of_mem _ member)
      · rw [nextMf, List.append_assoc]
        exact numbers
      · rw [nextMf, List.append_assoc]
        exact instrs

theorem runOnMachineFunction_tiled (isDebugInstr : MachineInstr → Bool)
    {mf : List (MachineBasicBlock MachineInstr)}
    (inside : ∀ mbb ∈ mf, mbb.number < getNumBlockIDs)
    (numbers : (mf.map MachineBasicBlock.number).Nodup)
    (instrs : (mf.flatMap MachineBasicBlock.instrs).Nodup) :
    Tiled (runOnMachineFunction id isDebugInstr getNumBlockIDs mf) := by
  let start : Indexes MachineInstr :=
    ⟨[], [⟨0, none, 0⟩], fun _ => none, List.replicate getNumBlockIDs none, [], 1⟩
  have begins : Numbered getNumBlockIDs (start, 0) := by
    refine ⟨⟨⟨0, [], rfl, Tiles.last 0⟩, nodup_singleton 0, ?_, ?_, nodup_nil,
      nodup_nil, List.Forall₂.nil, ⟨pairwise_singleton _ _, ?_⟩⟩, ⟨_, rfl, rfl⟩,
      length_replicate⟩
    · intro address known
      rw [mem_singleton.mp known]
      exact Nat.zero_lt_one
    · intro MI index
      constructor
      · intro mapped
        cases mapped
      · rintro ⟨address, _, member⟩
        cases mem_singleton.mp member
    · intro entry member
      rw [mem_singleton.mp member]
      rfl
  have whole := (indexBlocks_numbered isDebugInstr begins inside numbers instrs).tiled
  obtain ⟨first, rest, shape, tiles⟩ := whole.tiles
  have sorted := sortByFirst_eq (List.Perm.refl _)
    (starts_increase whole.ordered whole.distinct shape tiles whole.starts)
  have same : runOnMachineFunction id isDebugInstr getNumBlockIDs mf =
      (mf.foldl (indexBlock id isDebugInstr) (start, 0)).1 := by
    rw [runOnMachineFunction]
    simp only [sorted, start]
  rw [same]
  exact whole

end EvmBackend.SlotIndexes
