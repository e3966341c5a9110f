/-
Entries at the place where the writer was: a client that has the same code size,
abbreviations and block infos comes to the codes, definitions and records that the
writer went on with.
-/

import EvmBackend.Bitstream.Client

namespace EvmBackend.Bitstream

open BitLists BitstreamCursor

/-! ### Places in a stream -/

def Holds (bits : List Bool) (place : Nat) (code : List Bool) : Prop :=
  ∃ front back, bits = front ++ (code ++ back) ∧ front.length = place

/-- From the place of the writer on, the bits go on with what was written next. -/
def Covers (bits : List Bool) (writer next : BitstreamWriter) : Prop :=
  ∃ code, written next = written writer ++ code ∧ Holds bits (written writer).length code

variable {bits code more : List Bool} {place : Nat} {writer middle next last : BitstreamWriter}

theorem Holds.left (holds : Holds bits place (code ++ more)) : Holds bits place code := by
  obtain ⟨front, back, rfl, length⟩ := holds
  exact ⟨front, more ++ back, by rw [List.append_assoc], length⟩

theorem Holds.right (holds : Holds bits place (code ++ more)) : Holds bits (place + code.length) more := by
  obtain ⟨front, back, rfl, rfl⟩ := holds
  refine ⟨front ++ code, back, ?_, List.length_append⟩
  simp only [List.append_assoc]

theorem Covers.left (covers : Covers bits writer next) (one : written writer <+: written middle)
    (two : written middle <+: written next) : Covers bits writer middle := by
  obtain ⟨code, grown, holds⟩ := covers
  obtain ⟨first, same⟩ := one
  obtain ⟨second, rest⟩ := two
  rw [← same, List.append_assoc] at rest
  rw [← List.append_cancel_left (rest.trans grown)] at holds
  exact ⟨first, same.symm, holds.left⟩

theorem Covers.right (covers : Covers bits writer next) (one : written writer <+: written middle)
    (two : written middle <+: written next) : Covers bits middle next := by
  obtain ⟨code, grown, holds⟩ := covers
  obtain ⟨first, same⟩ := one
  obtain ⟨second, rest⟩ := two
  have behind := rest
  rw [← same, List.append_assoc] at rest
  rw [← List.append_cancel_left (rest.trans grown)] at holds
  refine ⟨second, behind.symm, ?_⟩
  rw [← same, List.length_append]
  exact holds.right

theorem Covers.within (covers : Covers bits writer next) : (written next).length ≤ bits.length := by
  obtain ⟨code, grown, front, back, rfl, length⟩ := covers
  rw [grown]
  simp only [List.length_append]
  omega

section Carried

variable {Result : Type} {value : Result} {stream : SimpleBitstreamCursor}
  {reads : Reading Result}

theorem Carries.grows (carries : Carries reads value writer next) : written writer <+: written next := by
  obtain ⟨code, grown, _⟩ := carries.decodes
  exact ⟨code, grown.symm⟩

theorem Carries.decoded (carries : Carries reads value writer next) (covers : Covers bits writer next)
    (here : At stream bits (written writer).length) :
    ∃ done, reads stream = .ok (value, done) ∧ At done bits (written next).length := by
  obtain ⟨code, grown, decodes⟩ := carries.decodes
  obtain ⟨other, same, front, back, rfl, length⟩ := covers
  rw [List.append_cancel_left (same.symm.trans grown)] at here
  obtain ⟨done, read, there⟩ := decodes stream front back length here
  refine ⟨done, read, ?_⟩
  rw [same, List.append_cancel_left (same.symm.trans grown), List.length_append]
  exact there

end Carried

theorem At.closer {one two : SimpleBitstreamCursor} {further : Nat} (here : At one bits place)
    (there : At two bits further)
    (behind : place < further) : two.bitsLeft < one.bitsLeft := by
  rw [here.bitsLeft, there.bitsLeft]
  have spot := there.spot
  have inside := there.inside
  have length := there.length
  omega

variable {cursor : BitstreamCursor} {stream : SimpleBitstreamCursor}

/-- The client is where the writer was, and knows what the writer knew. -/
structure Follows (writer : BitstreamWriter) (bits : List Bool) (cursor : BitstreamCursor) : Prop where
  here : At cursor.stream bits (written writer).length
  codeSize : cursor.curCodeSize = writer.curCodeSize
  abbrevs : cursor.curAbbrevs = writer.curAbbrevs
  infos : cursor.blockInfo.getD [] = writer.blockInfoRecords

theorem Follows.moved (follows : Follows writer bits cursor) (same : SameState writer next)
    (there : At stream bits (written next).length) : Follows next bits { cursor with stream := stream } := by
  rw [same] at there ⊢
  exact ⟨there, follows.codeSize, follows.abbrevs, follows.infos⟩

theorem out_of_grown (good : Good writer) (goodNext : Good next) (grown : written writer <+: written next) :
    writer.out.length ≤ next.out.length := by
  have length := grown.length_le
  rw [length_written, length_written] at length
  have words := good.words
  have wordsNext := goodNext.words
  have curBit := goodNext.curBit
  omega

section Codes

variable {val : Nat}

theorem emitCode_read (good : Good writer) (emitted : writer.emitCode val = some next) :
    Good next ∧ SameState writer next ∧ written next = written writer ++ bitsOf writer.curCodeSize val ∧
      (0 < writer.curCodeSize ∧ writer.curCodeSize ≤ 32 ∧ val < 2 ^ writer.curCodeSize) ∧
      ∀ bits (cursor : BitstreamCursor), Covers bits writer next →
        At cursor.stream bits (written writer).length → cursor.curCodeSize = writer.curCodeSize →
          cursor.stream.atEndOfStream = false ∧ ∃ stream, At stream bits (written next).length ∧
            cursor.readCode = .ok (val, { cursor with stream := stream }) := by
  obtain ⟨asserted, goodNext, same, grown⟩ := emit_written good emitted
  refine ⟨goodNext, same, grown, asserted, ?_⟩
  intro bits cursor covers here codeSize
  obtain ⟨positive, bounded, fits⟩ := asserted
  obtain ⟨stream, read, there⟩ := (carries_emit good emitted).decoded covers here
  have within := covers.within
  rw [grown, List.length_append, length_bitsOf] at within
  refine ⟨?_, stream, there, ?_⟩
  · rw [here.atEnd, decide_eq_false_iff_not]
    omega
  · have small : val < 2 ^ 32 := Nat.lt_of_lt_of_le fits (Nat.pow_le_pow_right Nat.two_pos bounded)
    unfold readCode onStream
    rw [codeSize, read]
    simp only [bind, Except.bind, Except.map, Nat.mod_eq_of_lt small]

theorem emitCode_longer (good : Good writer) (emitted : writer.emitCode val = some next)
    (grown : written next <+: written last) : (written writer).length < (written last).length := by
  obtain ⟨asserted, _, _, same⟩ := emit_written good emitted
  refine Nat.lt_of_lt_of_le ?_ grown.length_le
  rw [same, List.length_append, length_bitsOf]
  exact Nat.lt_add_of_pos_right asserted.1

variable {dontProcess : Bool} {fuel : Nat}

theorem advanceLoop_record (more : cursor.stream.atEndOfStream = false)
    (read : cursor.readCode = .ok (val, { cursor with stream := stream })) (notEnd : val ≠ Bitc.endBlock)
    (notBlock : val ≠ Bitc.enterSubblock) (kept : val = Bitc.defineAbbrev → dontProcess = true) :
    advanceLoop false dontProcess (fuel + 1) cursor = .ok (.record val, { cursor with stream := stream }) := by
  rw [advanceLoop, if_neg (by rw [more]; exact Bool.false_ne_true), read]
  simp only [bind, Except.bind, notEnd, notBlock, if_false]
  rw [if_neg]
  rintro ⟨define, process⟩
  rw [kept define] at process
  cases process

theorem advanceLoop_define {defined : BitstreamCursor} (more : cursor.stream.atEndOfStream = false)
    (read : cursor.readCode = .ok (Bitc.defineAbbrev, { cursor with stream := stream }))
    (processed : readAbbrevRecord { cursor with stream := stream } = .ok defined) :
    advanceLoop false false (fuel + 1) cursor = advanceLoop false false fuel defined := by
  rw [advanceLoop, if_neg (by rw [more]; exact Bool.false_ne_true), read]
  simp only [bind, Except.bind, processed]
  rfl

theorem advanceLoop_block {blockID : Nat} {entered : BitstreamCursor} (more : cursor.stream.atEndOfStream = false)
    (read : cursor.readCode = .ok (Bitc.enterSubblock, { cursor with stream := stream }))
    (numbered : readSubBlockID { cursor with stream := stream } = .ok (blockID, entered)) :
    advanceLoop false dontProcess (fuel + 1) cursor = .ok (.subBlock blockID, entered) := by
  rw [advanceLoop, if_neg (by rw [more]; exact Bool.false_ne_true), read]
  simp only [bind, Except.bind, numbered]
  rfl

theorem advanceLoop_end {outer : BitstreamCursor} (more : cursor.stream.atEndOfStream = false)
    (read : cursor.readCode = .ok (Bitc.endBlock, { cursor with stream := stream }))
    (ended : readBlockEnd { cursor with stream := stream } = some outer) :
    advanceLoop false dontProcess (fuel + 1) cursor = .ok (.endBlock, outer) := by
  rw [advanceLoop, if_neg (by rw [more]; exact Bool.false_ne_true), read]
  simp only [bind, Except.bind, ended]
  rfl

end Codes

theorem emitAbbrev_follows {abbv : BitCodeAbbrev} (proper : ProperAbbrev abbv) (good : Good writer)
    (emitted : writer.emitAbbrev abbv = some next) :
    Good next ∧ next = { writer with
      out := next.out, curBit := next.curBit, curValue := next.curValue,
      curAbbrevs := writer.curAbbrevs ++ [abbv] } ∧
      written writer <+: written next ∧ ∀ bits cursor, Covers bits writer next → Follows writer bits cursor →
        ∃ last, Leads cursor last ∧ Follows next bits last ∧ last.blockScope = cursor.blockScope := by
  obtain ⟨encoded, encoding, pushed⟩ := Option.bind_eq_some_iff.mp emitted
  obtain ⟨coded, numbered, carries⟩ := carries_abbrev proper good encoding
  obtain ⟨_, same, _, _, come⟩ := emitCode_read good numbered
  have first := (carries_emit good numbered).grows
  have kept := same.trans carries.same
  cases pushed
  refine ⟨⟨carries.good.curBit, carries.good.curValue, carries.good.words⟩, ?_, first.trans carries.grows, ?_⟩
  · rw [kept]
  · intro bits cursor covers follows
    have covers : Covers bits writer encoded := covers
    obtain ⟨more, stream, there, read⟩ :=
      come bits cursor (covers.left first carries.grows) follows.here follows.codeSize
    obtain ⟨done, defined, arrived⟩ := carries.decoded (covers.right first carries.grows) there
    refine ⟨{ cursor with stream := done, curAbbrevs := cursor.curAbbrevs ++ [abbv] }, ?_,
      ⟨arrived, ?_, ?_, ?_⟩, rfl⟩
    · refine Turns.leads_of_turn
        (follows.here.closer arrived (emitCode_longer good numbered carries.grows)) fun turns => ?_
      refine advanceLoop_define more read ?_
      unfold readAbbrevRecord
      rw [defined]
      rfl
    · rw [kept]
      exact follows.codeSize
    · rw [kept, follows.abbrevs]
    · rw [kept]
      exact follows.infos

section Records

variable {abbrevID : Nat} {record : Record}

theorem record_follows {coded : BitstreamWriter} (good : Good writer)
    (numbered : writer.emitCode abbrevID = some coded)
    (isRecord : Bitc.unabbrevRecord ≤ abbrevID)
    {reads : Reading Record}
    (carries : Carries reads record coded next)
    (chosen : ∀ cursor : BitstreamCursor, cursor.curAbbrevs = writer.curAbbrevs →
      cursor.readRecord abbrevID true = onStream reads cursor) :
    Good next ∧ SameState writer next ∧ written writer <+: written next ∧
      ∀ bits cursor, Covers bits writer next → Follows writer bits cursor →
        ∃ middle last, Advances cursor (.record abbrevID) middle ∧ At middle.stream bits (written coded).length ∧
          middle.readRecord abbrevID true = .ok (record, last) ∧ Follows next bits last ∧
          last.blockScope = cursor.blockScope ∧ middle.curAbbrevs = writer.curAbbrevs := by
  obtain ⟨_, same, _, _, come⟩ := emitCode_read good numbered
  have first := (carries_emit good numbered).grows
  refine ⟨carries.good, same.trans carries.same, first.trans carries.grows, ?_⟩
  intro bits cursor covers follows
  obtain ⟨more, stream, there, read⟩ :=
    come bits cursor (covers.left first carries.grows) follows.here follows.codeSize
  obtain ⟨done, decoded, arrived⟩ := carries.decoded (covers.right first carries.grows) there
  refine ⟨{ cursor with stream := stream }, { cursor with stream := done }, ?_, there, ?_,
    follows.moved (same.trans carries.same) arrived, rfl, follows.abbrevs⟩
  · unfold Bitc.unabbrevRecord at isRecord
    exact Turns.ends_of_turn fun turns => advanceLoop_record more read (by unfold Bitc.endBlock; omega)
      (by unfold Bitc.enterSubblock; omega) fun define => absurd define (by unfold Bitc.defineAbbrev; omega)
  · rw [chosen { cursor with stream := stream } follows.abbrevs]
    unfold onStream
    rw [decoded]
    rfl

theorem readRecord_unabbreviated (wantsBlob : Bool) (cursor : BitstreamCursor) :
    cursor.readRecord Bitc.unabbrevRecord wantsBlob = onStream readUnabbreviated cursor := rfl

theorem readRecord_abbreviated {abbv : BitCodeAbbrev} {wantsBlob : Bool}
    (application : Bitc.firstApplicationAbbrev ≤ abbrevID)
    (found : cursor.curAbbrevs[abbrevID - Bitc.firstApplicationAbbrev]? = some abbv) :
    cursor.readRecord abbrevID wantsBlob = onStream (readAbbreviated wantsBlob abbv) cursor := by
  unfold Bitc.firstApplicationAbbrev at application
  unfold readRecord getAbbrev
  rw [if_neg (by unfold Bitc.unabbrevRecord; omega), if_neg (by unfold Bitc.firstApplicationAbbrev; omega), found]
  rfl

end Records

end EvmBackend.Bitstream
