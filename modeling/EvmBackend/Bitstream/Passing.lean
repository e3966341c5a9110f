/-
Records and blocks passed over in the streams that a writer makes: at every place a
client comes to, it gets where it would by reading, unless there is an array with so
many characters that their bits are counted wrong.
-/

import EvmBackend.Bitstream.RoundTrip

namespace EvmBackend.Bitstream

open BitLists BitstreamCursor List

variable {cursor last finish : BitstreamCursor} {events more : List Event}
    {places others : List (Entry × BitstreamCursor)}

def Reaches (start : BitstreamCursor) (entry : Entry) (cursor : BitstreamCursor) : Prop :=
  ∃ events places middle, Reads start events places middle ∧ Advances middle entry cursor

theorem Reads.reaches (reads : Reads cursor events places last) :
    ∀ place ∈ places, Reaches cursor place.1 place.2 := by
  induction reads with
  | nil => exact fun place none => absurd none not_mem_nil
  | step advances seen _ ih =>
      refine forall_mem_cons.mpr ⟨⟨[], [], _, .nil, advances⟩, fun place member => ?_⟩
      obtain ⟨more, others, middle, reads, comes⟩ := ih place member
      exact ⟨_, _, middle, .step advances seen reads, comes⟩

theorem Advances.at_end {entry : Entry} {next : BitstreamCursor} (advances : Advances cursor entry next)
    (atEnd : cursor.stream.atEndOfStream = true) : entry = .error := by
  have stopped := advances.advance
  rw [BitstreamCursor.advance, advanceLoop, if_pos atEnd] at stopped
  cases stopped
  rfl

theorem Reads.only (one : Reads cursor events places last) (atEnd : last.stream.atEndOfStream = true) :
    ∀ {more others middle entry next}, Reads cursor more others middle → Advances middle entry next →
      entry = .error ∨ (entry, next) ∈ places := by
  induction one with
  | nil =>
      intro more others middle entry next two advances
      cases two with
      | nil => exact .inl (advances.at_end atEnd)
      | step first seen _ =>
          rw [first.at_end atEnd] at seen
          cases seen
  | step advances seen _ ih =>
      intro more others middle entry next two comes
      cases two with
      | nil =>
          have same := advances.advance.symm.trans comes.advance
          cases same
          exact .inr mem_cons_self
      | step advancesOther seenOther rest =>
          have same := advances.advance.symm.trans advancesOther.advance
          cases same
          have sameEvent := seen.symm.trans seenOther
          cases sameEvent
          exact (ih atEnd rest comes).imp_right (mem_cons_of_mem _)

variable {writer next : BitstreamWriter} {count : Nat}

/-- The writer before the characters: the block, the abbreviation, the number of the
record and that of its characters are written. -/
def counted : BitstreamWriter where
  out := [33, 16, 0, 0, 0, 0, 0, 0, 50, 6, 24, 210, 90, 171, 181, 90]
  curBit := 2
  curValue := 1
  curCodeSize := 4
  blockInfoCurBID := 0
  curAbbrevs := [[.literal 1, .array, .char6]]
  blockScope := [⟨2, 1, []⟩]
  blockInfoRecords := []

def defined : BitstreamWriter :=
  { counted with out := [33, 16, 0, 0, 0, 0, 0, 0], curBit := 26, curValue := 35128882 }

end EvmBackend.Bitstream
