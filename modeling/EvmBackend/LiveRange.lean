/-
Live ranges as the allocator finds them: the segments of a register's values,
the value numbers, and the calls that edit them.

While a range is first computed its segments may be kept in a set; the calls
that search by position then look there, the others always at the vector.
Slot indexes are numbered along the index list, four slots an entry, so the
slot after another is the next number. A value number is a pointer, its place
among the values allocated so far. Assertions are compiled out; a result is
missing where the source goes through an iterator that has no segment.
-/

import EvmBackend.Library.Runs
import EvmBackend.Library.Segments
import Mathlib.Data.List.DropRight

namespace EvmBackend

/-- The definition is missing in a value that is no longer used. -/
structure VNInfo where
  id : Nat
  definedAt : Option Nat
  deriving DecidableEq, Repr

abbrev LiveSegment := Segments.Segment Nat Nat

structure LiveRange where
  segments : List LiveSegment
  segmentSet : Option (List LiveSegment)
  valnos : List Nat
  allocated : List VNInfo
  deriving DecidableEq, Repr

namespace LiveRange

def getDeadSlot (index : Nat) : Nat := 4 * (index / 4) + 3

def isDead (index : Nat) : Bool := index % 4 == 3

def isSameInstr (left right : Nat) : Bool := left / 4 == right / 4

def isEarlierInstr (left right : Nat) : Bool := left / 4 < right / 4

def getPrevSlot (index : Nat) : Nat := index - 1

def getNextSlot (index : Nat) : Nat := index + 1

def info (range : LiveRange) (valno : Nat) : VNInfo :=
  range.allocated[valno]?.getD ⟨0, none⟩

def setDef (valno : Nat) (definedAt : Option Nat) (range : LiveRange) : LiveRange :=
  { range with allocated := range.allocated.set valno { range.info valno with definedAt := definedAt } }

def getNextValue (definedAt : Nat) (range : LiveRange) : LiveRange × Nat :=
  ({ range with
      allocated := range.allocated ++ [⟨range.valnos.length, some definedAt⟩]
      valnos := range.valnos ++ [range.allocated.length] },
    range.allocated.length)

def markValNoForDeletion (valno : Nat) (range : LiveRange) : LiveRange :=
  if (range.info valno).id + 1 = range.valnos.length then
    { range with valnos := range.valnos.dropLast.rdropWhile fun other =>
        (range.info other).definedAt.isNone }
  else
    setDef valno none range

/-- The search for the first segment that ends after the position, among the
`len` segments from `place` on. -/
def findFrom (segments : List LiveSegment) (pos : Nat) : Nat → Nat → Nat → Nat
  | 0, place, _ => place
  | fuel + 1, place, len =>
      if len = 0 then place
      else match segments[place + len / 2]? with
        | none => place
        | some segment =>
            if pos < segment.finish then findFrom segments pos fuel place (len / 2)
            else findFrom segments pos fuel (place + (len / 2 + 1)) (len - (len / 2 + 1))

def find (segments : List LiveSegment) (pos : Nat) : Nat :=
  match segments.getLast? with
  | none => segments.length
  | some last =>
      if last.finish ≤ pos then segments.length
      else findFrom segments pos segments.length 0 segments.length

def upperBound (segments : List LiveSegment) (start : Nat) : Nat :=
  segments.findIdx fun segment => start < segment.start

def segmentLess (left right : LiveSegment) : Bool :=
  left.start < right.start || (left.start == right.start && left.finish < right.finish)

def setUpperBound (segments : List LiveSegment) (segment : LiveSegment) : Nat :=
  segments.findIdx (segmentLess segment)

def setFind (segments : List LiveSegment) (pos : Nat) : Nat :=
  match setUpperBound segments ⟨pos, getNextSlot pos, 0⟩ with
  | 0 => 0
  | place + 1 =>
      match segments[place]? with
      | none => place + 1
      | some before => if pos < before.finish then place else place + 1

def setFindInsertPos (segments : List LiveSegment) (segment : LiveSegment) : Nat :=
  let place := setUpperBound segments segment
  match segments[place]? with
  | none => place
  | some found => if segment.start < found.start then place else place + 1

def collection (range : LiveRange) : List LiveSegment :=
  range.segmentSet.getD range.segments

def setCollection (segments : List LiveSegment) (range : LiveRange) : LiveRange :=
  match range.segmentSet with
  | some _ => { range with segmentSet := some segments }
  | none => { range with segments := segments }

def findPos (range : LiveRange) (pos : Nat) : Nat :=
  match range.segmentSet with
  | some segments => setFind segments pos
  | none => find range.segments pos

def findInsertPos (range : LiveRange) (segment : LiveSegment) : Nat :=
  match range.segmentSet with
  | some segments => setFindInsertPos segments segment
  | none => upperBound range.segments segment.start

def extendSegmentEndTo (place : Nat) (newEnd : Nat) (segments : List LiveSegment) :
    Option (List LiveSegment) :=
  match segments.drop place with
  | [] => none
  | segment :: rest =>
      let merged := rest.takeWhile fun other => other.finish ≤ newEnd
      let after := rest.dropWhile fun other => other.finish ≤ newEnd
      let finish := max newEnd (merged.getLast?.getD segment).finish
      match after with
      | [] => some (segments.take place ++ [{ segment with finish := finish }])
      | next :: later =>
          if next.start ≤ finish ∧ next.value = segment.value then
            some (segments.take place ++ { segment with finish := next.finish } :: later)
          else
            some (segments.take place ++ { segment with finish := finish } :: next :: later)

def mergeStart (newStart : Nat) (segments : List LiveSegment) : Nat → Option Nat
  | 0 => none
  | place + 1 =>
      match segments[place]? with
      | none => none
      | some before =>
          if newStart ≤ before.start then mergeStart newStart segments place else some place

def extendSegmentStartTo (place : Nat) (newStart : Nat) (segments : List LiveSegment) :
    Option (List LiveSegment × Nat) :=
  match segments[place]? with
  | none => none
  | some segment =>
      match mergeStart newStart segments place with
      | none => some ({ segment with start := newStart } :: segments.drop (place + 1), place)
      | some mergeTo =>
          match segments[mergeTo]? with
          | none => none
          | some before =>
              if newStart ≤ before.finish ∧ before.value = segment.value then
                some (segments.take mergeTo ++ { before with finish := segment.finish } ::
                  segments.drop (place + 1), mergeTo)
              else
                match segments[mergeTo + 1]? with
                | none => none
                | some next =>
                    some (segments.take (mergeTo + 1) ++
                      { next with start := newStart, finish := segment.finish } ::
                        segments.drop (place + 1), mergeTo + 1)

/-- The segment before the place takes the new one in, when it has its value
and reaches its start. -/
def extendsBefore (place : Nat) (segment : LiveSegment) (segments : List LiveSegment) : Bool :=
  match place with
  | 0 => false
  | before + 1 =>
      match segments[before]? with
      | none => false
      | some other =>
          segment.value == other.value && other.start ≤ segment.start &&
            segment.start ≤ other.finish

/-- The segment at the place takes the new one in, when it has its value and
starts no later than its end. -/
def extendsAfter (place : Nat) (segment : LiveSegment) (segments : List LiveSegment) : Bool :=
  match segments[place]? with
  | none => false
  | some other => segment.value == other.value && other.start ≤ segment.finish

def addSegmentAt (place : Nat) (segment : LiveSegment) (segments : List LiveSegment) :
    Option (List LiveSegment) :=
  if extendsBefore place segment segments then
    extendSegmentEndTo (place - 1) segment.finish segments
  else if extendsAfter place segment segments then do
    let (extended, mergedAt) ← extendSegmentStartTo place segment.start segments
    let found ← extended[mergedAt]?
    if found.finish < segment.finish then extendSegmentEndTo mergedAt segment.finish extended
    else some extended
  else
    some (segments.insertIdx place segment)

def addSegment (segment : LiveSegment) (range : LiveRange) : Option LiveRange :=
  (addSegmentAt (range.findInsertPos segment) segment range.collection).map fun segments =>
    range.setCollection segments

def valueFor (definedAt : Nat) (forVNI : Option Nat) (range : LiveRange) :
    LiveRange × Nat :=
  match forVNI with
  | some valno => (range, valno)
  | none => getNextValue definedAt range

def createDeadDefAt (definedAt : Nat) (forVNI : Option Nat) (range : LiveRange) :
    LiveRange × Nat :=
  let place := range.findPos definedAt
  match range.collection[place]? with
  | none =>
      let (next, valno) := valueFor definedAt forVNI range
      (next.setCollection (range.collection ++ [⟨definedAt, getDeadSlot definedAt, valno⟩]), valno)
  | some segment =>
      if isSameInstr definedAt segment.start then
        let earlier := min definedAt segment.start
        if earlier ≠ segment.start then
          ((range.setCollection (range.collection.set place { segment with start := earlier })).setDef
            segment.value (some earlier), segment.value)
        else (range, segment.value)
      else
        let (next, valno) := valueFor definedAt forVNI range
        (next.setCollection
          (range.collection.insertIdx place ⟨definedAt, getDeadSlot definedAt, valno⟩), valno)

/-- A definition at the index, of a value that is new unless there is one. -/
def createDeadDef (definedAt : Nat) (range : LiveRange) : LiveRange × Nat :=
  createDeadDefAt definedAt none range

def createDeadDefOf (valno : Nat) (range : LiveRange) : Option (LiveRange × Nat) :=
  (range.info valno).definedAt.map fun definedAt => createDeadDefAt definedAt (some valno) range

def segmentBefore (use : Nat) (range : LiveRange) : Option (Nat × LiveSegment) :=
  match range.findInsertPos ⟨getPrevSlot use, use, 0⟩ with
  | 0 => none
  | place + 1 => range.collection[place]?.map (place, ·)

def extendInBlock (startIdx use : Nat) (range : LiveRange) :
    Option (LiveRange × Option Nat) :=
  if range.collection = [] then some (range, none)
  else match segmentBefore use range with
    | none => some (range, none)
    | some (place, segment) =>
        if segment.finish ≤ startIdx then some (range, none)
        else if segment.finish < use then
          (extendSegmentEndTo place use range.collection).map fun segments =>
            (range.setCollection segments, some segment.value)
        else some (range, some segment.value)

def isUndefIn (undefs : List Nat) (start finish : Nat) : Bool :=
  undefs.any fun index => start ≤ index && index < finish

def extendInBlockUndefs (undefs : List Nat) (startIdx use : Nat) (range : LiveRange) :
    Option (LiveRange × Option Nat × Bool) :=
  if range.collection = [] then some (range, none, false)
  else match segmentBefore use range with
    | none => some (range, none, isUndefIn undefs startIdx (getPrevSlot use))
    | some (place, segment) =>
        if segment.finish ≤ startIdx then
          some (range, none, isUndefIn undefs startIdx (getPrevSlot use))
        else if segment.finish < use then
          if isUndefIn undefs segment.finish (getPrevSlot use) then some (range, none, true)
          else (extendSegmentEndTo place use range.collection).map fun segments =>
            (range.setCollection segments, some segment.value, false)
        else some (range, some segment.value, false)

def removeSegment (start finish : Nat) (removeDeadValNo : Bool) (range : LiveRange) :
    Option LiveRange :=
  let place := find range.segments start
  match range.segments[place]? with
  | none => none
  | some segment =>
      let before := range.segments.take place
      let after := range.segments.drop (place + 1)
      if segment.start = start then
        if segment.finish = finish then
          let dead := (before ++ after).all fun other => other.value != segment.value
          let marked :=
            if removeDeadValNo && dead then markValNoForDeletion segment.value range else range
          some { marked with segments := before ++ after }
        else some { range with segments := before ++ { segment with start := finish } :: after }
      else if segment.finish = finish then
        some { range with segments := before ++ { segment with finish := start } :: after }
      else
        some { range with segments := before ++ { segment with finish := start } ::
          ⟨finish, segment.finish, segment.value⟩ :: after }

def removeValNo (valno : Nat) (range : LiveRange) : LiveRange :=
  if range.segments = [] then range
  else markValNoForDeletion valno
    { range with segments := range.segments.filter fun segment => decide (segment.value ≠ valno) }

/-- The segment before, lengthened when it has the surviving value and touches. -/
def mergeBack (kept : Nat) (done : List LiveSegment) (segment : LiveSegment) :
    List LiveSegment × LiveSegment :=
  match done with
  | [] => ([], segment)
  | before :: earlier =>
      if before.value = kept ∧ before.finish = segment.start then
        (earlier, { before with finish := segment.finish })
      else (before :: earlier, segment)

/-- The loop over the segments. Those passed are kept in reverse; the segment
after the current one is swallowed when it touches and has the surviving value. -/
def mergeLoop (gone kept : Nat) : List LiveSegment → List LiveSegment → List LiveSegment
  | done, [] => done.reverse
  | done, [segment] =>
      if segment.value ≠ gone then (segment :: done).reverse
      else
        let (earlier, current) := mergeBack kept done segment
        ({ current with value := kept } :: earlier).reverse
  | done, segment :: next :: later =>
      if segment.value ≠ gone then mergeLoop gone kept (segment :: done) (next :: later)
      else
        let (earlier, current) := mergeBack kept done segment
        if next.start = current.finish ∧ next.value = kept then
          mergeLoop gone kept ({ current with finish := next.finish, value := kept } :: earlier) later
        else mergeLoop gone kept ({ current with value := kept } :: earlier) (next :: later)

/-- The value with the smaller number survives, with the definition of the
second. -/
def mergeValueNumberInto (v1 v2 : Nat) (range : LiveRange) : LiveRange × Nat :=
  let swaps := (range.info v1).id < (range.info v2).id
  let copied := if swaps then setDef v1 (range.info v2).definedAt range else range
  let gone := if swaps then v2 else v1
  let kept := if swaps then v1 else v2
  (markValNoForDeletion gone { copied with segments := mergeLoop gone kept [] range.segments }, kept)

end LiveRange

end EvmBackend
