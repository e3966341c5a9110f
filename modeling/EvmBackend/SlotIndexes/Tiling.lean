/-
How the entries of the list belong to the blocks.

An entry's shape is its address and its instruction: renumbering changes neither. The
shapes of a list are those of its blocks in layout order, each a boundary and the
entries of the block, and a last boundary.
-/

import EvmBackend.SlotIndexes

namespace EvmBackend.SlotIndexes

open List

variable {MachineInstr : Type}

def shapes (entries : List (IndexListEntry MachineInstr)) : List (Nat × Option MachineInstr) :=
  entries.map fun entry => (entry.address, entry.mi)

/-- The blocks tile the list from a boundary on: the ranges of the blocks meet at the
boundaries, and the entries between two of them are for the indexed instructions of the
block. -/
inductive Tiles (indexed : MachineInstr → Bool) (ranges : List (Option (SlotIndex × SlotIndex))) :
    List (MachineBasicBlock MachineInstr) → Nat → List (Nat × Option MachineInstr) → Prop where
  | last (start : Nat) : Tiles indexed ranges [] start []
  | block (mbb : MachineBasicBlock MachineInstr) (mf : List (MachineBasicBlock MachineInstr))
      (start next : Nat) (body rest : List (Nat × Option MachineInstr))
      (instrs : body.filterMap Prod.snd = mbb.instrs.filter indexed)
      (range : ranges[mbb.number]? =
        some (some (SlotIndex.atEntry start, SlotIndex.atEntry next)))
      (later : Tiles indexed ranges mf next rest) :
      Tiles indexed ranges (mbb :: mf) start (body ++ (next, none) :: rest)

variable {indexed : MachineInstr → Bool} {ranges : List (Option (SlotIndex × SlotIndex))}
  {mf : List (MachineBasicBlock MachineInstr)} {start : Nat}
  {rest : List (Nat × Option MachineInstr)}

theorem Tiles.congr {indexed' : MachineInstr → Bool}
    {ranges' : List (Option (SlotIndex × SlotIndex))} (tiles : Tiles indexed ranges mf start rest)
    (same : ∀ mbb ∈ mf, ∀ instr ∈ mbb.instrs, indexed' instr = indexed instr)
    (sameRange : ∀ mbb ∈ mf, ranges'[mbb.number]? = ranges[mbb.number]?) :
    Tiles indexed' ranges' mf start rest := by
  induction tiles with
  | last start => exact Tiles.last start
  | block mbb mf start next body rest instrs range _ ih =>
      refine Tiles.block mbb mf start next body rest ?_ ?_ ?_
      · rw [instrs]
        exact (filter_congr (same mbb mem_cons_self)).symm
      · rw [sameRange mbb mem_cons_self, range]
      · exact ih (fun other member => same other (mem_cons_of_mem _ member))
          fun other member => sameRange other (mem_cons_of_mem _ member)

theorem Tiles.exists_range (tiles : Tiles indexed ranges mf start rest)
    {mbb : MachineBasicBlock MachineInstr} (member : mbb ∈ mf) :
    ∃ first next, ranges[mbb.number]? =
        some (some (SlotIndex.atEntry first, SlotIndex.atEntry next)) ∧
      (first, none) ∈ (start, none) :: rest := by
  induction tiles with
  | last start => cases member
  | block other mf start next body rest _ range _ ih =>
      rcases mem_cons.mp member with rfl | later
      · exact ⟨start, next, range, mem_cons_self⟩
      · obtain ⟨first, last, itsRange, inRest⟩ := ih later
        exact ⟨first, last, itsRange, mem_cons_of_mem _ (mem_append_right _ inRest)⟩

theorem Tiles.append {before : List (MachineBasicBlock MachineInstr)}
    (tiles : Tiles indexed ranges (before ++ mf) start rest) :
    ∃ front boundary behind, (start, none) :: rest = front ++ (boundary, none) :: behind ∧
      Tiles indexed ranges mf boundary behind ∧
      (∀ mbb ∈ before, ∃ first next, ranges[mbb.number]? =
        some (some (SlotIndex.atEntry first, SlotIndex.atEntry next)) ∧ (first, none) ∈ front) ∧
      ∀ indexed' ranges' mf' behind',
        (∀ mbb ∈ before, ∀ instr ∈ mbb.instrs, indexed' instr = indexed instr) →
        (∀ mbb ∈ before, ranges'[mbb.number]? = ranges[mbb.number]?) →
        Tiles indexed' ranges' mf' boundary behind' →
        ∃ rest', (start, none) :: rest' = front ++ (boundary, none) :: behind' ∧
          Tiles indexed' ranges' (before ++ mf') start rest' := by
  induction before generalizing start rest with
  | nil =>
      exact ⟨[], start, rest, rfl, tiles, fun _ member => absurd member not_mem_nil,
        fun _ _ _ behind' _ _ later => ⟨behind', rfl, later⟩⟩
  | cons mbb before ih =>
      cases tiles with
      | block _ _ _ next body rest instrs range later =>
          obtain ⟨front, boundary, behind, split, tail, starts, rebuild⟩ := ih later
          refine ⟨(start, none) :: (body ++ front), boundary, behind, ?_, tail, ?_, ?_⟩
          · rw [split, List.cons_append, List.append_assoc]
          · intro other member
            rcases mem_cons.mp member with rfl | inBefore
            · exact ⟨start, next, range, mem_cons_self⟩
            · obtain ⟨first, last, itsRange, inFront⟩ := starts other inBefore
              exact ⟨first, last, itsRange,
                mem_cons_of_mem _ (mem_append_right _ inFront)⟩
          · intro indexed' ranges' mf' behind' same sameRange further
            obtain ⟨rest', shape, rebuilt⟩ := rebuild indexed' ranges' mf' behind'
              (fun other member => same other (mem_cons_of_mem _ member))
              (fun other member => sameRange other (mem_cons_of_mem _ member)) further
            refine ⟨body ++ (next, none) :: rest', ?_, ?_⟩
            · rw [shape, List.cons_append, List.append_assoc]
            · refine Tiles.block mbb (before ++ mf') start next body rest' ?_ ?_ rebuilt
              · rw [instrs]
                exact (filter_congr (same mbb mem_cons_self)).symm
              · rw [sameRange mbb mem_cons_self, range]

theorem Tiles.focus {before behind : List (MachineBasicBlock MachineInstr)}
    {mbb : MachineBasicBlock MachineInstr}
    (tiles : Tiles indexed ranges (before ++ mbb :: behind) start rest) :
    ∃ front first body next back,
      (start, none) :: rest = front ++ (first, none) :: (body ++ (next, none) :: back) ∧
      body.filterMap Prod.snd = mbb.instrs.filter indexed ∧
      ranges[mbb.number]? = some (some (SlotIndex.atEntry first, SlotIndex.atEntry next)) ∧
      (∀ other ∈ before, ∃ begins ends, ranges[other.number]? =
        some (some (SlotIndex.atEntry begins, SlotIndex.atEntry ends)) ∧ (begins, none) ∈ front) ∧
      (∀ other ∈ behind, ∃ begins ends, ranges[other.number]? =
        some (some (SlotIndex.atEntry begins, SlotIndex.atEntry ends)) ∧
          (begins, none) ∈ (next, none) :: back) ∧
      ∀ indexed' instrs' body',
        (∀ other ∈ before ++ behind, ∀ instr ∈ other.instrs, indexed' instr = indexed instr) →
        body'.filterMap Prod.snd = instrs'.filter indexed' →
        ∃ rest', (start, none) :: rest' =
            front ++ (first, none) :: (body' ++ (next, none) :: back) ∧
          Tiles indexed' ranges (before ++ ⟨mbb.number, instrs'⟩ :: behind) start rest' := by
  obtain ⟨front, boundary, list, split, tail, starts, rebuild⟩ := tiles.append
  cases tail with
  | block _ _ _ next body back instrs range later =>
      refine ⟨front, boundary, body, next, back, split, instrs, range, starts, ?_, ?_⟩
      · intro other member
        exact later.exists_range member
      · intro indexed' instrs' body' same filtered
        apply rebuild indexed' ranges (⟨mbb.number, instrs'⟩ :: behind)
        · exact fun other member => same other (mem_append_left _ member)
        · exact fun _ _ => rfl
        · refine Tiles.block _ _ _ next body' back filtered range ?_
          apply later.congr
          · exact fun other member => same other (mem_append_right _ member)
          · exact fun _ _ => rfl

theorem Tiles.filterMap_eq (tiles : Tiles indexed ranges mf start rest) :
    ((start, none) :: rest).filterMap Prod.snd =
      (mf.flatMap MachineBasicBlock.instrs).filter indexed := by
  induction tiles with
  | last start => rfl
  | block mbb mf start next body rest instrs _ _ ih =>
      rw [filterMap_cons_none rfl] at ih
      rw [filterMap_cons_none rfl, filterMap_append, filterMap_cons_none rfl, ih,
        instrs, flatMap_cons, filter_append]

theorem Tiles.map (tiles : Tiles indexed ranges mf start rest)
    {edit : MachineBasicBlock MachineInstr → MachineBasicBlock MachineInstr}
    (number : ∀ mbb, (edit mbb).number = mbb.number)
    (instrs : ∀ mbb, (edit mbb).instrs.filter indexed = mbb.instrs.filter indexed) :
    Tiles indexed ranges (mf.map edit) start rest := by
  induction tiles with
  | last start => exact Tiles.last start
  | block mbb mf start next body rest filtered range _ ih =>
      refine Tiles.block (edit mbb) (mf.map edit) start next body rest ?_ ?_ ih
      · rw [instrs]
        exact filtered
      · rw [number]
        exact range

def Starts (ranges : List (Option (SlotIndex × SlotIndex))) (pairs : List (SlotIndex × Nat))
    (numbers : List Nat) : Prop :=
  List.Forall₂ (fun pair number => pair.2 = number ∧
    ∃ next, ranges[number]? = some (some (pair.1, next))) pairs numbers

theorem Tiles.starts_sublist (tiles : Tiles indexed ranges mf start rest)
    {pairs : List (SlotIndex × Nat)}
    (starts : Starts ranges pairs (mf.map MachineBasicBlock.number)) :
    (pairs.map Prod.fst).Sublist (((start, none) :: rest).map fun shape =>
      SlotIndex.atEntry shape.1) := by
  induction tiles generalizing pairs with
  | last start =>
      cases starts
      exact nil_sublist _
  | block mbb mf start next body rest _ range _ ih =>
      cases starts with
      | @cons pair _ others _ here later =>
          obtain ⟨_, last, itsRange⟩ := here
          rw [range] at itsRange
          have same : SlotIndex.atEntry start = pair.1 :=
            congrArg Prod.fst (Option.some.inj (Option.some.inj itsRange))
          rw [map_cons, map_cons, ← same]
          refine List.Sublist.cons_cons _ ?_
          rw [map_append]
          exact (ih later).trans (sublist_append_right _ _)

structure Ordered (entries : List (IndexListEntry MachineInstr)) : Prop where
  increasing : entries.Pairwise fun left right => left.index < right.index
  fours : ∀ entry ∈ entries, entry.index % 4 = 0

variable {entries : List (IndexListEntry MachineInstr)}

def addresses (entries : List (IndexListEntry MachineInstr)) : List Nat :=
  entries.map IndexListEntry.address

theorem addresses_eq (entries : List (IndexListEntry MachineInstr)) :
    addresses entries = (shapes entries).map Prod.fst := by
  rw [shapes, List.map_map]
  rfl

theorem indexOf_of_mem (distinct : (addresses entries).Nodup) {entry : IndexListEntry MachineInstr}
    (member : entry ∈ entries) : indexOf entries entry.address = entry.index := by
  induction entries with
  | nil => cases member
  | cons first others ih =>
      obtain ⟨apart, later⟩ := nodup_cons.mp distinct
      rw [indexOf, find?_cons]
      rcases mem_cons.mp member with rfl | inOthers
      · rw [beq_self_eq_true]
        rfl
      · have differs : (first.address == entry.address) = false := by
          apply beq_false_of_ne
          intro same
          exact apart (same ▸ List.mem_map_of_mem inOthers)
        rw [differs]
        exact ih later inOthers

theorem Ordered.pairwise_addresses (ordered : Ordered entries)
    (distinct : (addresses entries).Nodup) :
    (addresses entries).Pairwise fun left right => indexOf entries left < indexOf entries right := by
  rw [addresses, pairwise_map]
  refine ordered.increasing.imp_of_mem ?_
  intro left right inLeft inRight less
  rw [indexOf_of_mem distinct inLeft, indexOf_of_mem distinct inRight]
  exact less

theorem Ordered.indexOf_mod (ordered : Ordered entries) (distinct : (addresses entries).Nodup)
    {address : Nat} (member : address ∈ addresses entries) : indexOf entries address % 4 = 0 := by
  obtain ⟨entry, inEntries, rfl⟩ := List.mem_map.mp member
  rw [indexOf_of_mem distinct inEntries]
  exact ordered.fours entry inEntries

theorem Slot.number_lt (slot : Slot) : slot.number < 4 := by
  cases slot <;> decide

theorem getIndex_eq (ordered : Ordered entries) (distinct : (addresses entries).Nodup)
    {index : SlotIndex} (member : index.listEntry ∈ addresses entries) :
    getIndex entries index = indexOf entries index.listEntry + index.slot.number := by
  have multiple := ordered.indexOf_mod distinct member
  obtain ⟨factor, same⟩ := Nat.dvd_of_mod_eq_zero multiple
  rw [getIndex, same]
  exact (Nat.two_pow_add_eq_or_of_lt (show index.slot.number < 2 ^ 2 from index.slot.number_lt)
    factor).symm

theorem getIndex_lt_of_sublist (ordered : Ordered entries) (distinct : (addresses entries).Nodup)
    {left right : SlotIndex} (sub : List.Sublist [left.listEntry, right.listEntry] (addresses entries)) :
    getIndex entries left < getIndex entries right := by
  have less := (ordered.pairwise_addresses distinct).sublist sub
  have inLeft : left.listEntry ∈ addresses entries := sub.subset mem_cons_self
  have inRight : right.listEntry ∈ addresses entries :=
    sub.subset (mem_cons_of_mem _ mem_cons_self)
  rw [getIndex_eq ordered distinct inLeft, getIndex_eq ordered distinct inRight]
  have leftFours := ordered.indexOf_mod distinct inLeft
  have rightFours := ordered.indexOf_mod distinct inRight
  have bound := left.slot.number_lt
  rw [pairwise_pair] at less
  omega

end EvmBackend.SlotIndexes
