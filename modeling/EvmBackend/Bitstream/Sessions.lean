/-
Sessions with a cursor: any calls in any order, the next one after a value or an
error, until the source aborts.

The calls of a client keep to the widths the source asks for. What the bytes say
is not restricted; only where the source trusts a length, a width or a chain of
chunks does a session have to meet the condition of that step.
-/

import EvmBackend.Bitstream.SafeOperations

namespace EvmBackend.CheckedReader

open BitLists CheckedPrograms CheckedPrograms.Program BitstreamCursor

inductive Call
  | read (numBits : Nat)
  | readVBR (numBits : Nat)
  | readVBR64 (numBits : Nat)
  | advance (dontPopBlockAtEnd dontAutoprocessAbbrevs : Bool)
  | enterSubBlock (blockID : Nat)
  | skipBlock
  | readRecord (abbrevID : Nat) (wantsBlob : Bool)
  | skipRecord (abbrevID : Nat)
  | readBlockInfoBlock (readBlockInfoNames : Bool)
  | setBlockInfo (infos : List BlockInfo)
  deriving DecidableEq, Repr

inductive Answer
  | done
  | number (value : Nat)
  | entry (entry : Entry)
  | record (record : Record)
  | blockInfo (infos : Option (List NamedBlockInfo))
  deriving DecidableEq, Repr

def Call.perform : Call → Reader Answer
  | .read numBits => do
      let value ← CheckedReader.read numBits
      pure (.number value)
  | .readVBR numBits => do
      let value ← CheckedReader.readVBR numBits
      pure (.number value)
  | .readVBR64 numBits => do
      let value ← CheckedReader.readVBR64 numBits
      pure (.number value)
  | .advance dontPopBlockAtEnd dontAutoprocessAbbrevs => do
      let entry ← CheckedReader.advance dontPopBlockAtEnd dontAutoprocessAbbrevs
      pure (.entry entry)
  | .enterSubBlock blockID => do
      let numWords ← CheckedReader.enterSubBlock blockID
      pure (.number numWords)
  | .skipBlock => do
      CheckedReader.skipBlock
      pure .done
  | .readRecord abbrevID wantsBlob => do
      let record ← CheckedReader.readRecord abbrevID wantsBlob
      pure (.record record)
  | .skipRecord abbrevID => do
      let code ← CheckedReader.skipRecord abbrevID
      pure (.number code)
  | .readBlockInfoBlock readBlockInfoNames => do
      let infos ← CheckedReader.readBlockInfoBlock readBlockInfoNames
      pure (.blockInfo infos)
  | .setBlockInfo infos => do
      change (BitstreamCursor.setBlockInfo infos)
      pure .done

/-- What the source asks of a call. The infos a client sets are such as the reader
gives. -/
def Call.Allowed : Call → Prop
  | .read numBits => 0 < numBits ∧ numBits ≤ 64
  | .readVBR numBits | .readVBR64 numBits => 2 ≤ numBits ∧ numBits ≤ 32
  | .setBlockInfo infos => ProperInfos infos
  | _ => True

instance : DecidablePred Call.Allowed
  | .read _ => inferInstanceAs (Decidable (_ ∧ _))
  | .readVBR _ | .readVBR64 _ => inferInstanceAs (Decidable (_ ∧ _))
  | .setBlockInfo infos => inferInstanceAs (Decidable (ProperInfos infos))
  | .advance _ _ | .enterSubBlock _ | .skipBlock | .readRecord _ _ | .skipRecord _ | .readBlockInfoBlock _ =>
      isTrue trivial

def Call.step (call : Call) (cursor : BitstreamCursor) : Option BitstreamCursor :=
  match (call.perform cursor).ending with
  | .value _ last | .error _ last => some last
  | .abort _ | .fault _ => none

/-! ### How calls end -/

def Answer.Inside (size : Nat) : Answer → Prop
  | .record content => content.Inside size
  | _ => True

/-- There is no fault, a blob is a part of the array, and running out of data is an
error, except in the steps that are exempt. -/
structure EndsWell (exempt : Step → Bool) (size : Nat)
    (execution : Execution BitstreamCursor BitstreamError BitstreamError Fault Step Answer) : Prop where
  defined : ∀ mistake, execution.ending ≠ .fault mistake
  inside : ∀ answer last, execution.ending = .value answer last → answer.Inside size
  reported : ∀ step ∈ execution.steps, exempt step = false → step.RunsOut →
    ∀ answer last, execution.ending ≠ .value answer last

variable {cursor : BitstreamCursor}

theorem perform_safe {call : Call} (allowed : call.Allowed) (good : Good cursor) :
    Safe call.perform (fun answer last => answer.Inside last.stream.bitcodeBytes.length) cursor := by
  cases call with
  | read numBits =>
      exact Safe.bind (read_safe good allowed.1 allowed.2) fun _ _ later _ => safe_pure later.good trivial
  | readVBR numBits =>
      have widths : 0 < numBits ∧ numBits ≤ 64 := ⟨by have := allowed.1; omega, by have := allowed.2; omega⟩
      exact Safe.bind (readVBR_safe good widths.1 widths.2) fun _ _ later _ => safe_pure later.good trivial
  | readVBR64 numBits =>
      have widths : 0 < numBits ∧ numBits ≤ 64 := ⟨by have := allowed.1; omega, by have := allowed.2; omega⟩
      exact Safe.bind (readVBR64_safe good widths.1 widths.2) fun _ _ later _ => safe_pure later.good trivial
  | advance dontPop dontProcess =>
      exact Safe.bind (advance_safe _ _ good) fun _ _ later _ => safe_pure later.good trivial
  | enterSubBlock blockID =>
      exact Safe.bind (enterSubBlock_safe good blockID) fun _ _ later _ => safe_pure later.good trivial
  | skipBlock => exact Safe.bind (skipBlock_safe good) fun _ _ later _ => safe_pure later.good trivial
  | readRecord abbrevID wantsBlob =>
      exact Safe.bind (readRecord_safe good abbrevID wantsBlob) fun _ _ later inside =>
        safe_pure later.good inside
  | skipRecord abbrevID =>
      exact Safe.bind (skipRecord_safe good abbrevID) fun _ _ later _ => safe_pure later.good trivial
  | readBlockInfoBlock names =>
      exact Safe.bind (readBlockInfoBlock_safe good names) fun _ _ later _ => safe_pure later.good trivial
  | setBlockInfo infos =>
      refine Safe.bind (change_safe ⟨⟨good.sound, good.abbrevs, good.scope, fun others same => ?_⟩, rfl,
        Nat.le_refl _⟩) fun _ _ later _ => safe_pure later.good trivial
      cases same
      exact allowed

theorem perform_endsWell {call : Call} (allowed : call.Allowed) (good : Good cursor)
    (harmless : ∀ step ∈ (call.perform cursor).steps, step.Harmless) :
    EndsWell Step.isBlob cursor.stream.bitcodeBytes.length (call.perform cursor) ∧
      ∀ next, call.step cursor = some next → Kept cursor next := by
  have sound := perform_safe allowed good harmless
  unfold Call.step
  cases ended : (call.perform cursor).ending with
  | value answer last =>
      rw [ended] at sound
      obtain ⟨served, later, inside⟩ := sound
      refine ⟨⟨fun mistake same => ?_, fun other final same => ?_, fun step here free out => ?_⟩,
        fun next same => ?_⟩
      · cases ended.symm.trans same
      · cases ended.symm.trans same
        exact later.bytes ▸ inside
      · exact absurd out (served step here free)
      · cases same
        exact later.kept
  | error problem last =>
      rw [ended] at sound
      refine ⟨⟨fun mistake same => ?_, fun other final same => ?_, fun _ _ _ _ other final same => ?_⟩,
        fun next same => ?_⟩
      · cases ended.symm.trans same
      · cases ended.symm.trans same
      · cases ended.symm.trans same
      · cases same
        exact sound
  | abort reason =>
      refine ⟨⟨fun mistake same => ?_, fun other final same => ?_, fun _ _ _ _ other final same => ?_⟩,
        fun next same => ?_⟩
      · cases ended.symm.trans same
      · cases ended.symm.trans same
      · cases ended.symm.trans same
      · cases same
  | fault mistake =>
      rw [ended] at sound
      exact False.elim sound

theorem good_create (bytes : List UInt8) : Good (BitstreamCursor.create bytes) :=
  ⟨⟨Nat.zero_le _, Nat.zero_lt_succ 63, Nat.zero_le _, fun some_ => absurd rfl some_⟩,
    fun _ none => absurd none List.not_mem_nil, fun _ none => absurd none List.not_mem_nil, nofun⟩

/-- On all bytes, every call of a session whose steps are harmless ends well. -/
theorem session_endsWell (bytes : List UInt8) (calls : List Call)
    (every : Runs.EveryStep Call.step
      (fun call cursor => call.Allowed ∧ ∀ step ∈ (call.perform cursor).steps, step.Harmless)
      calls (BitstreamCursor.create bytes)) :
    Runs.EveryStep Call.step
      (fun call cursor => EndsWell Step.isBlob bytes.length (call.perform cursor))
      calls (BitstreamCursor.create bytes) := by
  refine Runs.everyStep_of_invariant (fun cursor => Good cursor ∧ cursor.stream.bitcodeBytes = bytes)
    (fun call cursor next met inv stepped => ?_) (fun call cursor met inv => ?_) every ⟨good_create bytes, rfl⟩
  · have kept := (perform_endsWell met.1 inv.1 met.2).2 next stepped
    exact ⟨kept.good, kept.bytes.trans inv.2⟩
  · rw [← inv.2]
    exact (perform_endsWell met.1 inv.1 met.2).1

/-- An abbreviation with a blob is defined, and then a record with it comes: its blob
has three bytes. -/
theorem session_endsWell_ofBlob : Runs.EveryStep Call.step
    (fun call cursor => EndsWell Step.isBlob 8 (call.perform cursor))
    [.advance false false, .readRecord 4 true, .advance false false]
    (BitstreamCursor.create [138, 1, 250, 0, 7, 8, 9, 0]) :=
  session_endsWell [138, 1, 250, 0, 7, 8, 9, 0] [.advance false false, .readRecord 4 true, .advance false false]
    (by decide +kernel)

def missingBlob : List UInt8 := [138, 1, 58, 2]

def beforeMissingBlob : BitstreamCursor := ⟨⟨missingBlob, 4, 8, 10⟩, 2, [[.literal 1, .blob]], [], none⟩

/-- The record whose blob is missing has a value. -/
theorem session_not_endsWell :
    (∀ call ∈ [Call.advance false false, .readRecord 4 true], call.Allowed) ∧
      ¬Runs.EveryStep Call.step
        (fun call cursor => EndsWell (fun _ => false) missingBlob.length (call.perform cursor))
        [.advance false false, .readRecord 4 true] (BitstreamCursor.create missingBlob) := by
  refine ⟨by decide, fun every => ?_⟩
  have reported := (every.2 beforeMissingBlob (by decide)).1.reported
  have out : SimpleBitstreamCursor.bitsLeft ⟨missingBlob, 4, 0, 0⟩ < 8 * 8 := by decide
  exact reported (.blob 8 ⟨missingBlob, 4, 0, 0⟩) (by decide) rfl out
    (.record ⟨1, List.replicate 8 0, none⟩) ⟨⟨missingBlob, 4, 0, 0⟩, 2, [[.literal 1, .blob]], [], none⟩
      (by decide)

end EvmBackend.CheckedReader
