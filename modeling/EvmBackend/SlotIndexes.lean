/-
The numbering of machine instructions.

The pass keeps a list of entries with increasing numbers, one for each indexed
instruction and one for each block boundary. A slot index is the address of an entry
and a slot; entries are never deleted, so it stays good while their numbers change.
Numbers are 32 bits wide: `unsigned` is how a sum is stored, which is the remainder in
the code and the identity where no number gets that large. Where the source follows an
iterator past an end there is no result.
-/

import Mathlib.Data.List.Sort
import Mathlib.Logic.Function.Basic
import Mathlib.Tactic.Ring

namespace EvmBackend.SlotIndexes

inductive Slot where
  | Slot_Block
  | Slot_EarlyClobber
  | Slot_Register
  | Slot_Dead
  deriving DecidableEq, Repr

def Slot.number : Slot → Nat
  | .Slot_Block => 0
  | .Slot_EarlyClobber => 1
  | .Slot_Register => 2
  | .Slot_Dead => 3

structure SlotIndex where
  listEntry : Nat
  slot : Slot
  deriving DecidableEq, Repr

def SlotIndex.atEntry (address : Nat) : SlotIndex := ⟨address, .Slot_Block⟩

structure IndexListEntry (MachineInstr : Type) where
  address : Nat
  mi : Option MachineInstr
  index : Nat
  deriving DecidableEq, Repr

structure MachineBasicBlock (MachineInstr : Type) where
  number : Nat
  instrs : List MachineInstr
  deriving DecidableEq, Repr

structure Indexes (MachineInstr : Type) where
  mf : List (MachineBasicBlock MachineInstr)
  indexList : List (IndexListEntry MachineInstr)
  mi2iMap : MachineInstr → Option SlotIndex
  MBBRanges : List (Option (SlotIndex × SlotIndex))
  idx2MBBMap : List (SlotIndex × Nat)
  allocated : Nat

def InstrDist : Nat := 16

def wrap32 (number : Nat) : Nat := number % 2 ^ 32

variable {MachineInstr : Type} [DecidableEq MachineInstr] (unsigned : Nat → Nat)

def indexOf (entries : List (IndexListEntry MachineInstr)) (address : Nat) : Nat :=
  ((entries.find? fun entry => entry.address == address).map IndexListEntry.index).getD 0

def getIndex (entries : List (IndexListEntry MachineInstr)) (index : SlotIndex) : Nat :=
  indexOf entries index.listEntry ||| index.slot.number

def getInstructionFromIndex (entries : List (IndexListEntry MachineInstr)) (index : SlotIndex) :
    Option MachineInstr :=
  (entries.find? fun entry => entry.address == index.listEntry).bind IndexListEntry.mi

namespace Indexes

variable (state : Indexes MachineInstr)

def hasIndex (instr : MachineInstr) : Bool := (state.mi2iMap instr).isSome

def getParent (instr : MachineInstr) : Option (MachineBasicBlock MachineInstr) :=
  state.mf.find? fun mbb => decide (instr ∈ mbb.instrs)

def getMBBRange (number : Nat) : Option (SlotIndex × SlotIndex) :=
  (state.MBBRanges[number]?).join

def getMBBStartIdx (number : Nat) : Option SlotIndex := (state.getMBBRange number).map Prod.fst

def getMBBEndIdx (number : Nat) : Option SlotIndex := (state.getMBBRange number).map Prod.snd

/-- The index of the last indexed instruction before the given one, or the block's start. -/
def getIndexBefore (instr : MachineInstr) : Option SlotIndex := do
  let mbb ← state.getParent instr
  match (mbb.instrs.takeWhile (· ≠ instr)).reverse.findSome? state.mi2iMap with
  | some index => some index
  | none => state.getMBBStartIdx mbb.number

/-- The index of the first indexed instruction after the given one, or the block's end. -/
def getIndexAfter (instr : MachineInstr) : Option SlotIndex := do
  let mbb ← state.getParent instr
  match (mbb.instrs.dropWhile (· ≠ instr)).tail.findSome? state.mi2iMap with
  | some index => some index
  | none => state.getMBBEndIdx mbb.number

def std_prev : Nat → Option Nat
  | 0 => none
  | place + 1 => some place

def findMBBIndex (index : SlotIndex) : Nat :=
  (state.idx2MBBMap.takeWhile fun IM =>
    decide (getIndex state.indexList IM.1 < getIndex state.indexList index)).length

def getMBBFromIndex (index : SlotIndex) : Option Nat :=
  match getInstructionFromIndex state.indexList index with
  | some MI => (state.getParent MI).map MachineBasicBlock.number
  | none =>
      let I := state.findMBBIndex index
      let J :=
        match state.idx2MBBMap[I]? with
        | some IM =>
            if getIndex state.indexList IM.1 > getIndex state.indexList index then std_prev I else some I
        | none => std_prev I
      (J.bind fun place => state.idx2MBBMap[place]?).map Prod.snd

end Indexes

/-! ### Numbering -/

def renumberFrom : Nat → List (IndexListEntry MachineInstr) → List (IndexListEntry MachineInstr)
  | _, [] => []
  | index, curItr :: rest =>
      let index := unsigned (index + InstrDist / 2)
      { curItr with index } ::
        if rest.head?.any fun next => decide (next.index ≤ index) then renumberFrom index rest
        else rest

def renumberIndexes (before later : List (IndexListEntry MachineInstr)) :
    Option (List (IndexListEntry MachineInstr)) := do
  let startItr ← before.getLast?
  some (before ++ renumberFrom unsigned startItr.index later)

def splitBefore (address : Nat) (entries : List (IndexListEntry MachineInstr)) :
    Option (List (IndexListEntry MachineInstr) × List (IndexListEntry MachineInstr)) :=
  let before := entries.takeWhile fun entry => entry.address != address
  let later := entries.dropWhile fun entry => entry.address != address
  if later.isEmpty then none else some (before, later)

def splitAfter (address : Nat) (entries : List (IndexListEntry MachineInstr)) :
    Option (List (IndexListEntry MachineInstr) × List (IndexListEntry MachineInstr)) := do
  let (before, later) ← splitBefore address entries
  some (before ++ later.take 1, later.drop 1)

/-- Half of the way to the next number, rounded down to a multiple of four. -/
def halfDistance (prev next : Nat) : Nat := wrap32 (next + 2 ^ 32 - prev) / 2 / 4 * 4

/-- A new entry at a distance from the one before; at distance zero it is renumbered. -/
def insertAt (MI : MachineInstr) (address dist : Nat) (prevItr : IndexListEntry MachineInstr)
    (before later : List (IndexListEntry MachineInstr)) :
    Option (List (IndexListEntry MachineInstr)) :=
  let entry := ⟨address, some MI, unsigned (prevItr.index + dist)⟩
  if dist = 0 then renumberIndexes unsigned before (entry :: later)
  else some (before ++ entry :: later)

def insertEntry (MI : MachineInstr) (address : Nat)
    (before later : List (IndexListEntry MachineInstr)) :
    Option (List (IndexListEntry MachineInstr)) := do
  let prevItr ← before.getLast?
  let nextItr ← later.head?
  insertAt unsigned MI address (halfDistance prevItr.index nextItr.index) prevItr before later

def insertionPoint (MI : MachineInstr) (Late : Bool) (state : Indexes MachineInstr) :
    Option (List (IndexListEntry MachineInstr) × List (IndexListEntry MachineInstr)) :=
  if Late then do
    let nextItr ← state.getIndexAfter MI
    splitBefore nextItr.listEntry state.indexList
  else do
    let prevItr ← state.getIndexBefore MI
    splitAfter prevItr.listEntry state.indexList

def insertMachineInstrInMaps (MI : MachineInstr) (Late : Bool) (state : Indexes MachineInstr) :
    Option (Indexes MachineInstr) := do
  let (before, later) ← insertionPoint MI Late state
  let indexList ← insertEntry unsigned MI state.allocated before later
  some { state with
    indexList
    mi2iMap := Function.update state.mi2iMap MI (some (SlotIndex.atEntry state.allocated))
    allocated := state.allocated + 1 }

def setInstr (address : Nat) (mi : Option MachineInstr)
    (entries : List (IndexListEntry MachineInstr)) : List (IndexListEntry MachineInstr) :=
  entries.map fun entry => if entry.address = address then { entry with mi } else entry

def removeMachineInstrFromMaps (MI : MachineInstr) (state : Indexes MachineInstr) :
    Indexes MachineInstr :=
  match state.mi2iMap MI with
  | none => state
  | some MIIndex =>
      { state with
        mi2iMap := Function.update state.mi2iMap MI none
        indexList := setInstr MIIndex.listEntry none state.indexList }

def replaceMachineInstrInMaps (MI NewMI : MachineInstr) (state : Indexes MachineInstr) :
    Indexes MachineInstr :=
  match state.mi2iMap MI with
  | none => state
  | some replaceBaseIndex =>
      let erased := Function.update state.mi2iMap MI none
      { state with
        indexList := setInstr replaceBaseIndex.listEntry (some NewMI) state.indexList
        mi2iMap := if (erased NewMI).isSome then erased
          else Function.update erased NewMI (some replaceBaseIndex) }

def sortByFirst (entries : List (IndexListEntry MachineInstr)) (pairs : List (SlotIndex × Nat)) :
    List (SlotIndex × Nat) :=
  pairs.insertionSort fun left right => getIndex entries left.1 ≤ getIndex entries right.1

def neighbours (number : Nat) (mf : List (MachineBasicBlock MachineInstr)) :
    List (MachineBasicBlock MachineInstr) × List (MachineBasicBlock MachineInstr) :=
  (mf.takeWhile fun mbb => mbb.number != number,
    (mf.dropWhile fun mbb => mbb.number != number).drop 1)

def insertMBBInMaps (mbb : MachineBasicBlock MachineInstr) (state : Indexes MachineInstr) :
    Option (Indexes MachineInstr) := do
  let (before, later) := neighbours mbb.number state.mf
  let (startIdx, endIdx, indexList) ←
    match later with
    | [] => do
        let startEntry ← state.indexList.getLast?
        let indexList ← renumberIndexes unsigned state.indexList [⟨state.allocated, none, 0⟩]
        some (SlotIndex.atEntry startEntry.address, SlotIndex.atEntry state.allocated, indexList)
    | nextMBB :: _ => do
        let endEntry ← state.getMBBStartIdx nextMBB.number
        let (front, back) ← splitBefore endEntry.listEntry state.indexList
        let indexList ← renumberIndexes unsigned front (⟨state.allocated, none, 0⟩ :: back)
        some (SlotIndex.atEntry state.allocated, SlotIndex.atEntry endEntry.listEntry, indexList)
  let prevMBB ← before.getLast?
  let MBBRanges := state.MBBRanges.modify prevMBB.number
    (Option.map fun range => (range.1, startIdx)) ++ [some (startIdx, endIdx)]
  some { state with
    indexList
    MBBRanges
    idx2MBBMap := sortByFirst indexList (state.idx2MBBMap ++ [(startIdx, mbb.number)])
    allocated := state.allocated + 1 }

variable (isDebugInstr : MachineInstr → Bool)

def pushEntry (mi : Option MachineInstr) (state : Indexes MachineInstr × Nat) :
    Indexes MachineInstr × Nat :=
  let index := unsigned (state.2 + InstrDist)
  ({ state.1 with
    indexList := state.1.indexList ++ [⟨state.1.allocated, mi, index⟩]
    allocated := state.1.allocated + 1 }, index)

def indexInstr (state : Indexes MachineInstr × Nat) (MI : MachineInstr) :
    Indexes MachineInstr × Nat :=
  if isDebugInstr MI then state
  else
    let address := SlotIndex.atEntry state.1.allocated
    let state := pushEntry unsigned (some MI) state
    ({ state.1 with mi2iMap := Function.update state.1.mi2iMap MI (some address) }, state.2)

def backAddress (entries : List (IndexListEntry MachineInstr)) : Nat :=
  (entries.getLast?.map IndexListEntry.address).getD 0

def indexBlock (state : Indexes MachineInstr × Nat) (mbb : MachineBasicBlock MachineInstr) :
    Indexes MachineInstr × Nat :=
  let blockStartIndex := SlotIndex.atEntry (backAddress state.1.indexList)
  let state := mbb.instrs.foldl (indexInstr unsigned isDebugInstr) state
  let blockEndIndex := SlotIndex.atEntry state.1.allocated
  let state := pushEntry unsigned none state
  ({ state.1 with
    mf := state.1.mf ++ [mbb]
    MBBRanges := state.1.MBBRanges.set mbb.number (some (blockStartIndex, blockEndIndex))
    idx2MBBMap := state.1.idx2MBBMap ++ [(blockStartIndex, mbb.number)] }, state.2)

/-- Number the blocks of a function, with room for the ranges of so many blocks. -/
def runOnMachineFunction (getNumBlockIDs : Nat) (mf : List (MachineBasicBlock MachineInstr)) :
    Indexes MachineInstr :=
  let start : Indexes MachineInstr :=
    ⟨[], [⟨0, none, 0⟩], fun _ => none, List.replicate getNumBlockIDs none, [], 1⟩
  let state := (mf.foldl (indexBlock unsigned isDebugInstr) (start, 0)).1
  { state with idx2MBBMap := sortByFirst state.indexList state.idx2MBBMap }

/-- What happens to the function and its indexes. Blocks also get and lose instructions
that have no index. -/
inductive Step (MachineInstr : Type) where
  | placeInstr (number position : Nat) (MI : MachineInstr)
  | takeInstr (MI : MachineInstr)
  | insertMachineInstrInMaps (MI : MachineInstr) (Late : Bool)
  | removeMachineInstrFromMaps (MI : MachineInstr)
  | replaceMachineInstrInMaps (MI NewMI : MachineInstr)
  | insertMBBInMaps (position : Nat) (mbb : MachineBasicBlock MachineInstr)

def editBlock (number : Nat) (edit : List MachineInstr → List MachineInstr)
    (mf : List (MachineBasicBlock MachineInstr)) : List (MachineBasicBlock MachineInstr) :=
  mf.map fun mbb => if mbb.number = number then { mbb with instrs := edit mbb.instrs } else mbb

def step : Step MachineInstr → Indexes MachineInstr → Option (Indexes MachineInstr)
  | .placeInstr number position MI, state =>
      some { state with
        mf := editBlock number (fun instrs => instrs.take position ++ MI :: instrs.drop position)
          state.mf }
  | .takeInstr MI, state =>
      some { state with
        mf := state.mf.map fun mbb => { mbb with instrs := mbb.instrs.filter (· ≠ MI) } }
  | .insertMachineInstrInMaps MI Late, state => insertMachineInstrInMaps unsigned MI Late state
  | .removeMachineInstrFromMaps MI, state => some (removeMachineInstrFromMaps MI state)
  | .replaceMachineInstrInMaps MI NewMI, state => some (replaceMachineInstrInMaps MI NewMI state)
  | .insertMBBInMaps position mbb, state =>
      insertMBBInMaps unsigned mbb
        { state with mf := state.mf.take position ++ mbb :: state.mf.drop position }

end EvmBackend.SlotIndexes
