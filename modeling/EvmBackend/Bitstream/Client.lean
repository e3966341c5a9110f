/-
The reading client event by event. Definitions of abbreviations go by between two
events, so a cursor before one leads to the cursor behind it.
-/

import EvmBackend.Bitstream.Definitions
import EvmBackend.Library.Turns

namespace EvmBackend.Bitstream

open BitLists BitstreamCursor

variable {cursor middle next last : BitstreamCursor} {entry : Entry} {event : Event} {events more : List Event}

def Advances (cursor : BitstreamCursor) (entry : Entry) (next : BitstreamCursor) : Prop :=
  Turns.Ends (advanceLoop false false) (·.stream.bitsLeft) cursor (.ok (entry, next))

/-- From the one cursor the client comes to the other before it comes to an entry. -/
def Leads (cursor next : BitstreamCursor) : Prop :=
  Turns.Leads (advanceLoop false false) (·.stream.bitsLeft) cursor next

theorem Advances.advance (advances : Advances cursor entry next) :
    cursor.advance false false = .ok (entry, next) := advances _ (Nat.lt_succ_self _)

theorem Advances.nextEvent (advances : Advances cursor entry next) : nextEvent cursor = eventOf entry next := by
  unfold Bitstream.nextEvent
  rw [advances.advance]

/-- The client sees the events one after the other. Each stands for the entry it came
to at one of the places. -/
inductive Reads : BitstreamCursor → List Event → List (Entry × BitstreamCursor) → BitstreamCursor → Prop
  | nil {cursor : BitstreamCursor} : Reads cursor [] [] cursor
  | step {cursor next middle last : BitstreamCursor} {entry : Entry} {event : Event} {events : List Event}
      {places : List (Entry × BitstreamCursor)} (advances : Advances cursor entry next)
      (seen : eventOf entry next = some (event, middle)) (rest : Reads middle events places last) :
      Reads cursor (event :: events) ((entry, next) :: places) last

variable {places others : List (Entry × BitstreamCursor)}

theorem Reads.append (one : Reads cursor events places middle) (two : Reads middle more others last) :
    Reads cursor (events ++ more) (places ++ others) last := by
  induction one with
  | nil => exact two
  | step advances seen _ ih => exact .step advances seen (ih two)

theorem Leads.reads (leads : Leads cursor middle) (reads : Reads middle (event :: events) places last) :
    Reads cursor (event :: events) places last := by
  cases reads with
  | step advances seen rest => exact .step (Turns.Leads.ends leads advances) seen rest

theorem Reads.readEvents (reads : Reads cursor events places last) (atEnd : last.stream.atEndOfStream = true) :
    ∀ fuel, events.length < fuel → readEvents fuel cursor = some events := by
  induction reads with
  | nil =>
      intro fuel enough
      obtain ⟨fuel, rfl⟩ : ∃ less, fuel = less + 1 := ⟨fuel - 1, by omega⟩
      rw [Bitstream.readEvents, if_pos atEnd]
  | @step cursor next middle last entry event events places advances seen rest ih =>
      intro fuel enough
      obtain ⟨fuel, rfl⟩ : ∃ less, fuel = less + 1 := ⟨fuel - 1, by omega⟩
      have more : cursor.stream.atEndOfStream = false := by
        by_contra ended
        rw [Bool.not_eq_false] at ended
        have stopped := advances.advance
        rw [advance, advanceLoop, if_pos ended] at stopped
        cases stopped
        cases seen
      have first : Bitstream.nextEvent cursor = some (event, middle) := advances.nextEvent.trans seen
      have later := ih atEnd fuel (Nat.lt_of_succ_lt_succ enough)
      rw [Bitstream.readEvents, if_neg (by rw [more]; exact Bool.false_ne_true), first]
      simp only [Option.bind_eq_bind, Option.bind_some, later]

end EvmBackend.Bitstream
