/-
The bulk updater of a live range: a gap in the vector of segments that follows
the start of the segments added, and a spill area for those that do not fit.

Iterators are positions in the vector. What lies in the gap is left over from
before. A result is missing where the source goes through an iterator that has
no segment.
-/

import EvmBackend.LiveRange

namespace EvmBackend

structure LiveRangeUpdater where
  range : LiveRange
  lastStart : Option Nat
  writeI : Nat
  readI : Nat
  spills : List LiveSegment
  deriving DecidableEq, Repr

namespace LiveRangeUpdater

def create (range : LiveRange) : LiveRangeUpdater := ⟨range, none, 0, 0, []⟩

def isDirty (updater : LiveRangeUpdater) : Bool := updater.lastStart.isSome

def segments (updater : LiveRangeUpdater) : List LiveSegment := updater.range.segments

def setSegments (segments : List LiveSegment) (updater : LiveRangeUpdater) : LiveRangeUpdater :=
  { updater with range := { updater.range with segments := segments } }

def coalescable (left right : LiveSegment) : Bool :=
  if left.finish = right.start then left.value == right.value
  else decide (right.start < left.finish)

/-- The merge from the back of the spills and the segments before `src`. The
place written to comes down on the place read from as spills are moved. -/
def mergeBackwards (spills : List LiveSegment) :
    Nat → Nat → Nat → List LiveSegment → Option (List LiveSegment × Nat)
  | 0, _, spillSrc, segments => some (segments, spillSrc)
  | dst + 1, src, spillSrc, segments =>
      if src = dst + 1 then some (segments, spillSrc)
      else do
        let spill ← (spills.take spillSrc).getLast?
        match (segments.take src).getLast? with
        | none => mergeBackwards spills dst src (spillSrc - 1) (segments.set dst spill)
        | some before =>
            if spill.start < before.start then
              mergeBackwards spills dst (src - 1) spillSrc (segments.set dst before)
            else mergeBackwards spills dst src (spillSrc - 1) (segments.set dst spill)

def mergeSpills (updater : LiveRangeUpdater) : Option LiveRangeUpdater :=
  let gapSize := updater.readI - updater.writeI
  let numMoved := min updater.spills.length gapSize
  let newWriteI := updater.writeI + numMoved
  (mergeBackwards updater.spills newWriteI updater.writeI updater.spills.length
    updater.segments).map fun (segments, spillSrc) =>
      { updater.setSegments segments with
        writeI := newWriteI
        spills := updater.spills.take spillSrc }

def resizeGap (updater : LiveRangeUpdater) : LiveRangeUpdater :=
  let gapSize := updater.readI - updater.writeI
  let resized :=
    if gapSize < updater.spills.length then
      updater.segments.take updater.readI ++
        List.replicate (updater.spills.length - gapSize) ⟨0, 0, 0⟩ ++
          updater.segments.drop updater.readI
    else
      updater.segments.take (updater.writeI + updater.spills.length) ++
        updater.segments.drop updater.readI
  { updater.setSegments resized with readI := updater.writeI + updater.spills.length }

def flush (updater : LiveRangeUpdater) : Option LiveRangeUpdater :=
  if updater.isDirty then
    let clean := { updater with lastStart := none }
    if clean.spills = [] then
      some (clean.setSegments
        (clean.segments.take clean.writeI ++ clean.segments.drop clean.readI))
    else mergeSpills (resizeGap clean)
  else some updater

/-! ### Adding a segment -/

def restart (start : Nat) (updater : LiveRangeUpdater) : Option LiveRangeUpdater :=
  match updater.lastStart with
  | none => some { updater with writeI := 0, readI := 0 }
  | some last =>
      if start < last then
        (flush updater).map fun flushed => { flushed with writeI := 0, readI := 0 }
      else some updater

def shiftDown (start : Nat) : Nat → LiveRangeUpdater → LiveRangeUpdater
  | 0, updater => updater
  | fuel + 1, updater =>
      match updater.segments[updater.readI]? with
      | none => updater
      | some next =>
          if next.finish ≤ start then
            shiftDown start fuel
              { updater.setSegments (updater.segments.set updater.writeI next) with
                writeI := updater.writeI + 1
                readI := updater.readI + 1 }
          else updater

def fillGap (updater : LiveRangeUpdater) : Option LiveRangeUpdater :=
  if updater.readI ≠ updater.writeI then mergeSpills updater else some updater

def moveGap (start : Nat) (updater : LiveRangeUpdater) : LiveRangeUpdater :=
  if updater.readI = updater.writeI then
    let found := LiveRange.find updater.segments start
    { updater with writeI := found, readI := found }
  else shiftDown start updater.segments.length updater

def advance (start : Nat) (updater : LiveRangeUpdater) : Option LiveRangeUpdater :=
  match updater.segments[updater.readI]? with
  | none => some updater
  | some next =>
      if next.finish ≤ start then (fillGap updater).map (moveGap start)
      else some updater

def coalesceRead (segments : List LiveSegment) : Nat → LiveSegment → Nat → LiveSegment × Nat
  | 0, added, readI => (added, readI)
  | fuel + 1, added, readI =>
      match segments[readI]? with
      | none => (added, readI)
      | some next =>
          if coalescable added next then
            coalesceRead segments fuel { added with finish := max added.finish next.finish } (readI + 1)
          else (added, readI)

def coalesceSpill (added : LiveSegment) (spills : List LiveSegment) :
    LiveSegment × List LiveSegment :=
  match spills.getLast? with
  | none => (added, spills)
  | some back =>
      if coalescable back added then
        ({ added with start := back.start, finish := max back.finish added.finish }, spills.dropLast)
      else (added, spills)

def coalescableBefore (added : LiveSegment) (updater : LiveRangeUpdater) : Option LiveSegment :=
  match updater.writeI with
  | 0 => none
  | before + 1 => updater.segments[before]?.filter fun last => coalescable last added

/-- The segment goes into the gap, to the end of the vector or to the spills. -/
def insertApart (added : LiveSegment) (updater : LiveRangeUpdater) : LiveRangeUpdater :=
  if updater.writeI ≠ updater.readI then
    { updater.setSegments (updater.segments.set updater.writeI added) with
      writeI := updater.writeI + 1 }
  else if updater.writeI = updater.segments.length then
    { updater.setSegments (updater.segments ++ [added]) with
      writeI := updater.segments.length + 1
      readI := updater.segments.length + 1 }
  else { updater with spills := updater.spills ++ [added] }

def insertSegment (added : LiveSegment) (updater : LiveRangeUpdater) : LiveRangeUpdater :=
  match coalescableBefore added updater with
  | some last =>
      updater.setSegments (updater.segments.set (updater.writeI - 1)
        { last with finish := max last.finish added.finish })
  | none => insertApart added updater

def coalesce (added : LiveSegment) (updater : LiveRangeUpdater) : LiveRangeUpdater :=
  let (wider, readI) := coalesceRead updater.segments updater.segments.length added updater.readI
  let (widest, spills) := coalesceSpill wider updater.spills
  insertSegment widest { updater with readI := readI, spills := spills }

/-- A segment within the one behind the gap changes nothing. -/
def place (added : LiveSegment) (updater : LiveRangeUpdater) : LiveRangeUpdater :=
  match updater.segments[updater.readI]? with
  | none => coalesce added updater
  | some next =>
      if next.start ≤ added.start then
        if added.finish ≤ next.finish then updater
        else coalesce { added with start := next.start } { updater with readI := updater.readI + 1 }
      else coalesce added updater

def add (added : LiveSegment) (updater : LiveRangeUpdater) : Option LiveRangeUpdater :=
  match updater.range.segmentSet with
  | some _ => (updater.range.addSegment added).map fun range => { updater with range := range }
  | none => do
      let restarted ← restart added.start updater
      let advanced ← advance added.start { restarted with lastStart := some added.start }
      some (place added advanced)

end LiveRangeUpdater

end EvmBackend
