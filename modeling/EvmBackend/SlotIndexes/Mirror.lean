/-
Slot indexes mirror the program order in every reachable state.

The order of two indexes never changes: entries stay in the list, and a renumbering
keeps them in their places.
-/

import EvmBackend.Library.Runs
import EvmBackend.SlotIndexes.Blocks

namespace EvmBackend.SlotIndexes

open List

variable {MachineInstr : Type}

def Precedes (mf : List (MachineBasicBlock MachineInstr)) (left right : MachineInstr) : Prop :=
  List.Sublist [left, right] (mf.flatMap MachineBasicBlock.instrs)

structure Mirrors [DecidableEq MachineInstr] (state : Indexes MachineInstr) : Prop where
  increasing : state.indexList.Pairwise fun left right => left.index < right.index
  fours : ∀ entry ∈ state.indexList, entry.index % 4 = 0
  layout : ∀ left right leftIndex rightIndex, state.mi2iMap left = some leftIndex →
    state.mi2iMap right = some rightIndex →
      (Precedes state.mf left right ↔
        getIndex state.indexList leftIndex < getIndex state.indexList rightIndex)
  inside : ∀ MI index, state.mi2iMap MI = some index →
    ∃ mbb ∈ state.mf, MI ∈ mbb.instrs ∧ ∃ start finish,
      state.getMBBRange mbb.number = some (start, finish) ∧
        getIndex state.indexList start ≤ getIndex state.indexList index ∧
        getIndex state.indexList index < getIndex state.indexList finish
  tile : ∃ boundaries : List Nat, boundaries.Sublist (addresses state.indexList) ∧
    boundaries.head? = (addresses state.indexList).head? ∧
    boundaries.getLast? = (addresses state.indexList).getLast? ∧
    boundaries.length = state.mf.length + 1 ∧
    ∀ place mbb, state.mf[place]? = some mbb → ∃ first next, boundaries[place]? = some first ∧
      boundaries[place + 1]? = some next ∧
        state.getMBBRange mbb.number = some (SlotIndex.atEntry first, SlotIndex.atEntry next)
  blocks : ∀ mbb ∈ state.mf, ∀ start finish, state.getMBBRange mbb.number = some (start, finish) →
    ∀ index : SlotIndex, index.listEntry ∈ addresses state.indexList →
      getIndex state.indexList start ≤ getIndex state.indexList index →
      getIndex state.indexList index < getIndex state.indexList finish →
        state.getMBBFromIndex index = some mbb.number

variable {index : SlotIndex} {ranges : List (Option (SlotIndex × SlotIndex))}

section Reading

variable [DecidableEq MachineInstr] {state : Indexes MachineInstr}

omit [DecidableEq MachineInstr] in
theorem pair_sublist_total {left right : MachineInstr} {list : List MachineInstr}
    (inLeft : left ∈ list) (inRight : right ∈ list) (differs : left ≠ right) :
    List.Sublist [left, right] list ∨ List.Sublist [right, left] list := by
  obtain ⟨before, behind, rfl⟩ := append_of_mem inLeft
  rcases mem_append.mp inRight with inBefore | inRest
  · right
    exact (singleton_sublist.mpr inBefore).append
      (singleton_sublist.mpr mem_cons_self)
  · left
    rcases mem_cons.mp inRest with same | inBehind
    · exact absurd same.symm differs
    · have later : List.Sublist [left, right] (left :: behind) :=
        (singleton_sublist.mpr inBehind).cons_cons left
      exact later.trans (sublist_append_right _ _)

omit [DecidableEq MachineInstr] in
theorem Tiled.getIndex_eq_index (tiled : Tiled state) {entry : IndexListEntry MachineInstr}
    (member : entry ∈ state.indexList) {MI : MachineInstr} (isMI : entry.mi = some MI)
    (mapped : state.mi2iMap MI = some index) : getIndex state.indexList index = entry.index := by
  have here : state.mi2iMap MI = some (SlotIndex.atEntry entry.address) := by
    refine (tiled.maps MI _).mpr ⟨entry.address, rfl, ?_⟩
    rw [← isMI]
    exact List.mem_map_of_mem member
  rw [mapped] at here
  rw [Option.some.inj here, getIndex_eq tiled.ordered tiled.distinct (List.mem_map_of_mem member)]
  exact indexOf_of_mem tiled.distinct member

omit [DecidableEq MachineInstr] in
theorem Tiled.precedes_lt (tiled : Tiled state) {left right : MachineInstr}
    {leftIndex rightIndex : SlotIndex} (leftMapped : state.mi2iMap left = some leftIndex)
    (rightMapped : state.mi2iMap right = some rightIndex) (precedes : Precedes state.mf left right) :
    getIndex state.indexList leftIndex < getIndex state.indexList rightIndex := by
  obtain ⟨start, rest, shape, tiles⟩ := tiled.tiles
  have instrs : state.indexList.filterMap IndexListEntry.mi =
      (state.mf.flatMap MachineBasicBlock.instrs).filter state.hasIndex := by
    rw [← tiles.filterMap_eq, ← shape, shapes, filterMap_map]
    rfl
  have indexed : List.Sublist [left, right] (state.indexList.filterMap IndexListEntry.mi) := by
    rw [instrs]
    have both := precedes.filter state.hasIndex
    rw [filter_cons_of_pos (Tiled.hasIndex_of_mapped leftMapped),
      filter_cons_of_pos (Tiled.hasIndex_of_mapped rightMapped), filter_nil] at both
    exact both
  let less : MachineInstr → MachineInstr → Prop := fun first second =>
    ∀ firstIndex secondIndex, state.mi2iMap first = some firstIndex →
      state.mi2iMap second = some secondIndex →
        getIndex state.indexList firstIndex < getIndex state.indexList secondIndex
  have ordered : (state.indexList.filterMap IndexListEntry.mi).Pairwise less := by
    rw [pairwise_filterMap]
    refine tiled.ordered.increasing.imp_of_mem ?_
    intro earlier later inEarlier inLater increases first isFirst second isSecond firstIndex
      secondIndex firstMapped secondMapped
    rw [tiled.getIndex_eq_index inEarlier isFirst firstMapped,
      tiled.getIndex_eq_index inLater isSecond secondMapped]
    exact increases
  have pair := ordered.sublist indexed
  rw [pairwise_pair] at pair
  exact pair leftIndex rightIndex leftMapped rightMapped

omit [DecidableEq MachineInstr] in
theorem Tiled.precedes_iff (tiled : Tiled state) {left right : MachineInstr}
    {leftIndex rightIndex : SlotIndex} (leftMapped : state.mi2iMap left = some leftIndex)
    (rightMapped : state.mi2iMap right = some rightIndex) :
    Precedes state.mf left right ↔
      getIndex state.indexList leftIndex < getIndex state.indexList rightIndex := by
  refine ⟨tiled.precedes_lt leftMapped rightMapped, ?_⟩
  intro less
  have differs : left ≠ right := by
    rintro rfl
    rw [leftMapped] at rightMapped
    cases rightMapped
    exact Nat.lt_irrefl _ less
  have member : ∀ {MI index}, state.mi2iMap MI = some index →
      MI ∈ state.mf.flatMap MachineBasicBlock.instrs := by
    intro MI index mapped
    obtain ⟨mbb, inFunction, inBlock⟩ := tiled.exists_block (Tiled.hasIndex_of_mapped mapped)
    exact mem_flatMap.mpr ⟨mbb, inFunction, inBlock⟩
  rcases pair_sublist_total (member leftMapped) (member rightMapped) differs with first | second
  · exact first
  · have more := tiled.precedes_lt rightMapped leftMapped second
    omega

/-! ### The ranges of the blocks -/

omit [DecidableEq MachineInstr] in
theorem Tiled.block_addresses (tiled : Tiled state) {mbb : MachineBasicBlock MachineInstr}
    (member : mbb ∈ state.mf) :
    ∃ before behind front first body next back, state.mf = before ++ mbb :: behind ∧
      shapes state.indexList = front ++ (first, none) :: (body ++ (next, none) :: back) ∧
      body.filterMap Prod.snd = mbb.instrs.filter state.hasIndex ∧
      state.getMBBRange mbb.number = some (SlotIndex.atEntry first, SlotIndex.atEntry next) ∧
      (∀ other ∈ before, ∃ begins ends, state.MBBRanges[other.number]? =
        some (some (SlotIndex.atEntry begins, SlotIndex.atEntry ends)) ∧ (begins, none) ∈ front) ∧
      ∀ other ∈ behind, ∃ begins ends, state.MBBRanges[other.number]? =
        some (some (SlotIndex.atEntry begins, SlotIndex.atEntry ends)) ∧
          (begins, none) ∈ (next, none) :: back := by
  obtain ⟨before, behind, split⟩ := append_of_mem member
  obtain ⟨start, rest, shape, tiles⟩ := tiled.tiles
  rw [split] at tiles
  obtain ⟨front, first, body, next, back, whole, instrs, range, earlier, later, _⟩ := tiles.focus
  refine ⟨before, behind, front, first, body, next, back, split, shape.trans whole, instrs, ?_,
    earlier, later⟩
  rw [Indexes.getMBBRange, range]
  rfl

omit [DecidableEq MachineInstr] in
theorem Tiled.getIndex_lt (tiled : Tiled state) {front back : List (Nat × Option MachineInstr)}
    (split : shapes state.indexList = front ++ back) {left right : SlotIndex}
    (inFront : left.listEntry ∈ front.map Prod.fst) (inBack : right.listEntry ∈ back.map Prod.fst) :
    getIndex state.indexList left < getIndex state.indexList right := by
  apply getIndex_lt_of_sublist tiled.ordered tiled.distinct
  rw [addresses_eq, split, map_append]
  exact (singleton_sublist.mpr inFront).append (singleton_sublist.mpr inBack)

omit [DecidableEq MachineInstr] in
theorem Tiled.getIndex_atEntry_le (tiled : Tiled state)
    {front back : List (Nat × Option MachineInstr)} {address : Nat} {mi : Option MachineInstr}
    (split : shapes state.indexList = front ++ (address, mi) :: back)
    (behind : index.listEntry ∈ ((address, mi) :: back).map Prod.fst) :
    getIndex state.indexList (SlotIndex.atEntry address) ≤ getIndex state.indexList index := by
  rw [map_cons] at behind
  rcases mem_cons.mp behind with here | inBack
  · have inList : address ∈ addresses state.indexList := by
      rw [addresses_eq, split]
      simp
    rw [getIndex_eq tiled.ordered tiled.distinct inList,
      getIndex_eq tiled.ordered tiled.distinct (here ▸ inList), here]
    exact Nat.le_add_right _ _
  · have after : shapes state.indexList = (front ++ [(address, mi)]) ++ back := by
      rw [split, List.append_assoc]
      rfl
    exact (tiled.getIndex_lt after (by simp [SlotIndex.atEntry]) inBack).le

omit [DecidableEq MachineInstr] in
theorem Tiled.instr_inside (tiled : Tiled state) {MI : MachineInstr}
    (mapped : state.mi2iMap MI = some index) :
    ∃ mbb ∈ state.mf, MI ∈ mbb.instrs ∧ ∃ start finish,
      state.getMBBRange mbb.number = some (start, finish) ∧
        getIndex state.indexList start ≤ getIndex state.indexList index ∧
        getIndex state.indexList index < getIndex state.indexList finish := by
  have indexed := Tiled.hasIndex_of_mapped mapped
  obtain ⟨mbb, member, inBlock⟩ := tiled.exists_block indexed
  obtain ⟨_, _, front, first, body, next, back, _, shape, instrs, range, _, _⟩ :=
    tiled.block_addresses member
  have inBody : MI ∈ body.filterMap Prod.snd := by
    rw [instrs]
    exact mem_filter.mpr ⟨inBlock, indexed⟩
  obtain ⟨⟨address, mi⟩, inside, isMI⟩ := mem_filterMap.mp inBody
  cases isMI
  have here : index = SlotIndex.atEntry address := by
    have known := (tiled.maps MI _).mpr ⟨address, rfl, by rw [shape]; simp [inside]⟩
    rw [mapped] at known
    exact Option.some.inj known
  subst here
  have inMap : address ∈ body.map Prod.fst := List.mem_map_of_mem inside
  refine ⟨mbb, member, inBlock, _, _, range, Nat.le_of_lt ?_, ?_⟩
  · have split : shapes state.indexList = (front ++ [(first, none)]) ++
        (body ++ (next, none) :: back) := by
      rw [shape, List.append_assoc]
      rfl
    apply tiled.getIndex_lt split
    · rw [map_append]
      exact mem_append_right _ mem_cons_self
    · rw [map_append]
      exact mem_append_left _ inMap
  · have split : shapes state.indexList = (front ++ (first, none) :: body) ++
        ((next, none) :: back) := by
      rw [shape, List.append_assoc, List.cons_append]
    apply tiled.getIndex_lt split
    · rw [map_append, map_cons]
      exact mem_append_right _ (mem_cons_of_mem _ inMap)
    · exact mem_cons_self

omit [DecidableEq MachineInstr] in
theorem Tiles.exists_boundaries {indexed : MachineInstr → Bool}
    {mf : List (MachineBasicBlock MachineInstr)} {start : Nat}
    {rest : List (Nat × Option MachineInstr)} (tiles : Tiles indexed ranges mf start rest) :
    ∃ boundaries : List Nat, boundaries.Sublist (((start, none) :: rest).map Prod.fst) ∧
      boundaries.head? = some start ∧
      boundaries.getLast? = (((start, none) :: rest).map Prod.fst).getLast? ∧
      boundaries.length = mf.length + 1 ∧
      ∀ place mbb, mf[place]? = some mbb → ∃ first next, boundaries[place]? = some first ∧
        boundaries[place + 1]? = some next ∧
          ranges[mbb.number]? = some (some (SlotIndex.atEntry first, SlotIndex.atEntry next)) := by
  induction tiles with
  | last start =>
      refine ⟨[start], List.Sublist.refl _, rfl, rfl, rfl, ?_⟩
      intro place mbb there
      cases there
  | block mbb mf start next body rest _ range _ ih =>
      obtain ⟨boundaries, sub, head, last, length, each⟩ := ih
      refine ⟨start :: boundaries, ?_, rfl, ?_, ?_, ?_⟩
      · rw [map_cons, map_append]
        exact (sub.trans (sublist_append_right _ _)).cons_cons start
      · rw [getLast?_cons, last]
        simp [getLast?_cons, getLast?_append]
      · rw [length_cons, length, length_cons]
      · intro place other there
        cases place with
        | zero =>
            rw [getElem?_cons_zero] at there
            cases there
            refine ⟨start, next, rfl, ?_, range⟩
            rw [getElem?_cons_succ, ← head?_eq_getElem?]
            exact head
        | succ place =>
            rw [getElem?_cons_succ] at there
            obtain ⟨first, finish, isFirst, isFinish, itsRange⟩ := each place other there
            exact ⟨first, finish, isFirst, isFinish, itsRange⟩

omit [DecidableEq MachineInstr] in
theorem Starts.exists_number {pairs : List (SlotIndex × Nat)} {numbers : List Nat}
    (starts : Starts ranges pairs numbers) {pair : SlotIndex × Nat} (member : pair ∈ pairs) :
    ∃ number ∈ numbers, ∃ next, ranges[number]? = some (some (pair.1, next)) := by
  induction starts with
  | nil => cases member
  | cons here _ ih =>
      rcases mem_cons.mp member with rfl | later
      · exact ⟨_, mem_cons_self, here.2⟩
      · obtain ⟨number, inNumbers, known⟩ := ih later
        exact ⟨number, mem_cons_of_mem _ inNumbers, known⟩

omit [DecidableEq MachineInstr] in
theorem Starts.exists_begin {pairs : List (SlotIndex × Nat)}
    {blocks : List (MachineBasicBlock MachineInstr)} {part : List (Nat × Option MachineInstr)}
    (starts : Starts ranges pairs (blocks.map MachineBasicBlock.number))
    (begin : ∀ other ∈ blocks, ∃ begins ends,
      ranges[other.number]? = some (some (SlotIndex.atEntry begins, SlotIndex.atEntry ends)) ∧
      (begins, none) ∈ part)
    {pair : SlotIndex × Nat} (member : pair ∈ pairs) : pair.1.listEntry ∈ part.map Prod.fst := by
  obtain ⟨number, inNumbers, _, itsRange⟩ := starts.exists_number member
  obtain ⟨block, inBlocks, rfl⟩ := List.mem_map.mp inNumbers
  obtain ⟨begins, ends, range, inPart⟩ := begin block inBlocks
  rw [itsRange] at range
  have same : pair.1 = SlotIndex.atEntry begins :=
    congrArg Prod.fst (Option.some.inj (Option.some.inj range))
  rw [same]
  exact List.mem_map_of_mem inPart

omit [DecidableEq MachineInstr] in
theorem getInstructionFromIndex_eq {entries : List (IndexListEntry MachineInstr)}
    (distinct : (addresses entries).Nodup) {entry : IndexListEntry MachineInstr}
    (member : entry ∈ entries) (here : index.listEntry = entry.address) :
    getInstructionFromIndex entries index = entry.mi := by
  induction entries with
  | nil => cases member
  | cons first others ih =>
      obtain ⟨apart, later⟩ := nodup_cons.mp distinct
      rw [getInstructionFromIndex, find?_cons, here]
      rcases mem_cons.mp member with rfl | inOthers
      · rw [beq_self_eq_true]
        rfl
      · have differs : (first.address == entry.address) = false := by
          apply beq_false_of_ne
          intro same
          exact apart (same ▸ List.mem_map_of_mem inOthers)
        rw [differs, ← here]
        exact ih later inOthers

theorem search_starts {entries : List (IndexListEntry MachineInstr)} {start : SlotIndex}
    {number : Nat} {left right : List (SlotIndex × Nat)}
    (earlier : ∀ pair ∈ left, getIndex entries pair.1 < getIndex entries start)
    (least : getIndex entries start ≤ getIndex entries index)
    (later : ∀ pair ∈ right, getIndex entries index < getIndex entries pair.1)
    {state : Indexes MachineInstr} (list : state.indexList = entries)
    (pairs : state.idx2MBBMap = left ++ (start, number) :: right)
    (without : getInstructionFromIndex entries index = none) :
    state.getMBBFromIndex index = some number := by
  have allLeft : ∀ pair ∈ left,
      decide (getIndex entries pair.1 < getIndex entries index) = true := by
    intro pair member
    have less := earlier pair member
    exact decide_eq_true (by omega)
  have noRight : right.takeWhile (fun pair =>
      decide (getIndex entries pair.1 < getIndex entries index)) = [] := by
    cases right with
    | nil => rfl
    | cons pair others =>
        have more := later pair mem_cons_self
        rw [takeWhile_cons, if_neg]
        rw [decide_eq_true_eq]
        omega
  unfold Indexes.getMBBFromIndex
  rw [list, without]
  unfold Indexes.findMBBIndex
  rw [list, pairs, takeWhile_append_of_pos allLeft, takeWhile_cons]
  by_cases before : getIndex entries start < getIndex entries index
  · rw [if_pos (decide_eq_true before), noRight]
    have here : (left ++ (start, number) :: right)[left.length]? = some (start, number) := by
      rw [getElem?_append_right (Nat.le_refl _), Nat.sub_self]
      rfl
    have place : (left ++ [(start, number)]).length = left.length + 1 := length_append
    have following : (left ++ (start, number) :: right)[left.length + 1]? = right[0]? := by
      rw [getElem?_append_right (Nat.le_succ _), Nat.succ_sub (Nat.le_refl _), Nat.sub_self]
      rfl
    simp only [place, following]
    cases right with
    | nil => simp only [getElem?_nil, Indexes.std_prev, Option.bind_some, here, Option.map_some]
    | cons pair others =>
        have more : getIndex entries pair.1 > getIndex entries index :=
          later pair mem_cons_self
        simp only [getElem?_cons_zero, if_pos more, Indexes.std_prev, Option.bind_some, here,
          Option.map_some]
  · rw [if_neg (by rw [decide_eq_true_eq]; exact before), append_nil]
    have here : (left ++ (start, number) :: right)[left.length]? = some (start, number) := by
      rw [getElem?_append_right (Nat.le_refl _), Nat.sub_self]
      rfl
    have notMore : ¬ getIndex entries start > getIndex entries index := by omega
    simp only [here, if_neg notMore, Option.bind_some, Option.map_some]

theorem Tiled.getMBBFromIndex_eq (tiled : Tiled state) {mbb : MachineBasicBlock MachineInstr}
    (member : mbb ∈ state.mf) {start finish : SlotIndex}
    (range : state.getMBBRange mbb.number = some (start, finish))
    (inList : index.listEntry ∈ addresses state.indexList)
    (least : getIndex state.indexList start ≤ getIndex state.indexList index)
    (less : getIndex state.indexList index < getIndex state.indexList finish) :
    state.getMBBFromIndex index = some mbb.number := by
  obtain ⟨before, behind, front, first, body, next, back, split, shape, instrs, itsRange, earlier,
    later⟩ := tiled.block_addresses member
  rw [range] at itsRange
  cases itsRange
  have atFirst : shapes state.indexList = (front ++ [(first, none)]) ++
      (body ++ (next, none) :: back) := by
    rw [shape, List.append_assoc]
    rfl
  have atNext : shapes state.indexList = (front ++ (first, none) :: body) ++
      ((next, none) :: back) := by
    rw [shape, List.append_assoc, List.cons_append]
  obtain ⟨entry, inEntries, isAddress⟩ := List.mem_map.mp inList
  have instruction := getInstructionFromIndex_eq tiled.distinct inEntries isAddress.symm
  cases found : entry.mi with
  | some MI =>
      have here : (entry.address, some MI) ∈ shapes state.indexList := by
        rw [← found]
        exact List.mem_map_of_mem inEntries
      have inBody : (entry.address, some MI) ∈ body := by
        rw [shape] at here
        rcases mem_append.mp here with inFront | rest
        · have before : getIndex state.indexList index <
              getIndex state.indexList (SlotIndex.atEntry first) :=
            tiled.getIndex_lt shape (by rw [← isAddress]; exact List.mem_map_of_mem inFront)
              mem_cons_self
          omega
        · rcases mem_cons.mp rest with isFirst | rest
          · cases isFirst
          · rcases mem_append.mp rest with inside | rest
            · exact inside
            · rcases mem_cons.mp rest with isNext | inBack
              · cases isNext
              · have behindNext : shapes state.indexList =
                    (front ++ (first, none) :: body ++ [(next, none)]) ++ back := by
                  rw [shape]
                  simp
                have after : getIndex state.indexList (SlotIndex.atEntry next) <
                    getIndex state.indexList index :=
                  tiled.getIndex_lt behindNext (by simp [SlotIndex.atEntry])
                    (by rw [← isAddress]; exact List.mem_map_of_mem inBack)
                omega
      have inBlock : MI ∈ mbb.instrs := by
        have filtered : MI ∈ body.filterMap Prod.snd := mem_filterMap.mpr ⟨_, inBody, rfl⟩
        rw [instrs] at filtered
        exact mem_of_mem_filter filtered
      rw [Indexes.getMBBFromIndex, instruction, found]
      simp only [tiled.getParent_eq split inBlock, Option.map_some]
  | none =>
      rw [found] at instruction
      have starts := tiled.starts
      rw [split, map_append, map_cons] at starts
      obtain ⟨left, others, pairs, leftStarts, otherStarts⟩ := Starts.split _ _ starts
      cases otherStarts with
      | @cons pair _ right _ here rightStarts =>
          obtain ⟨isNumber, _, known⟩ := here
          have isStart : pair.1 = SlotIndex.atEntry first := by
            rw [Indexes.getMBBRange, known] at range
            exact congrArg Prod.fst (Option.some.inj range)
          have listed : state.idx2MBBMap =
              left ++ (SlotIndex.atEntry first, mbb.number) :: right := by
            rw [pairs, ← isStart, ← isNumber]
          refine search_starts ?_ least ?_ rfl listed instruction
          · intro other isLeft
            exact tiled.getIndex_lt shape (leftStarts.exists_begin earlier isLeft)
              mem_cons_self
          · intro other isRight
            have begins := tiled.getIndex_atEntry_le atNext
              (Starts.exists_begin rightStarts later isRight)
            omega

theorem Tiled.mirrors (tiled : Tiled state) : Mirrors state where
  increasing := tiled.ordered.increasing
  fours := tiled.ordered.fours
  layout := fun _ _ _ _ leftMapped rightMapped => tiled.precedes_iff leftMapped rightMapped
  inside := fun _ _ mapped => tiled.instr_inside mapped
  tile := by
    obtain ⟨start, rest, shape, tiles⟩ := tiled.tiles
    obtain ⟨boundaries, sub, head, last, length, each⟩ := tiles.exists_boundaries
    refine ⟨boundaries, ?_, ?_, ?_, length, ?_⟩
    · rw [addresses_eq, shape]
      exact sub
    · rw [addresses_eq, shape, head]
      rfl
    · rw [addresses_eq, shape, last]
    · intro place mbb here
      obtain ⟨first, next, isFirst, isNext, range⟩ := each place mbb here
      refine ⟨first, next, isFirst, isNext, ?_⟩
      rw [Indexes.getMBBRange, range]
      rfl
  blocks := fun _ member _ _ range _ inList least less =>
    tiled.getMBBFromIndex_eq member range inList least less

end Reading

end EvmBackend.SlotIndexes
