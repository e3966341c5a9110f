/-
The block info block. The writer says which blocks a definition is for when that
changes; the reader keeps the place of the last ones named. Both end up with the same
abbreviations for the same blocks.
-/

import EvmBackend.Bitstream.Blocks

namespace EvmBackend

open List

namespace BlockInfo

variable {blockID place : Nat} {abbv : BitCodeAbbrev} {records others : List BlockInfo}

theorem find_congr (same : records.map BlockInfo.blockID = others.map BlockInfo.blockID) (blockID : Nat) :
    find blockID records = find blockID others := by
  have last := congrArg List.getLast? same
  rw [getLast?_map, getLast?_map] at last
  have length := congrArg List.length same
  rw [length_map, length_map] at length
  have index : records.findIdx? (fun info => info.blockID == blockID) =
      others.findIdx? (fun info => info.blockID == blockID) := by
    have mapped := congrArg (List.findIdx? (· == blockID)) same
    rwa [findIdx?_map, findIdx?_map] at mapped
  unfold find
  cases one : records.getLast? with
  | none =>
      rw [one] at last
      cases two : others.getLast? with
      | none => rfl
      | some info =>
          rw [two] at last
          cases last
  | some info =>
      rw [one] at last
      cases two : others.getLast? with
      | none =>
          rw [two] at last
          cases last
      | some other =>
          rw [two] at last
          simp only [Option.map_some, Option.some.injEq] at last
          simp only [last, length, index]

theorem find_addAbbrev (blockID : Nat) : find blockID (addAbbrev place abbv records) = find blockID records := by
  refine find_congr ?_ blockID
  apply ext_getElem?
  intro index
  rw [addAbbrev, getElem?_map, getElem?_map, getElem?_modify]
  cases records[index]? with
  | none => rfl
  | some info =>
      simp only [Option.map_some]
      split
      · rfl
      · rfl

theorem find_getOrCreate (blockID : Nat) (records : List BlockInfo) :
    find blockID (getOrCreateBlockInfo blockID records).1 = some (getOrCreateBlockInfo blockID records).2 := by
  unfold getOrCreateBlockInfo
  cases found : find blockID records with
  | some place => exact found
  | none =>
      unfold find
      simp only [getLast?_concat, if_true, length_append, length_singleton, Nat.add_sub_cancel]

end BlockInfo

namespace Bitstream

open BitLists BitstreamCursor

variable {writer next last : BitstreamWriter} {cursor middle : BitstreamCursor}
    {state later latest : BlockInfoState}

def LoopLeads (state : BlockInfoState) (cursor : BitstreamCursor) (later : BlockInfoState)
    (next : BitstreamCursor) : Prop :=
  Turns.Leads (fun turns place => readBlockInfoLoop turns place.1 place.2) (·.2.stream.bitsLeft)
    (state, cursor) (later, next)

theorem advanceSkippingSubblocks_of {entry : Entry} (notBlock : ∀ blockID, entry ≠ .subBlock blockID)
    (ends : Turns.Ends (advanceLoop false true) (·.stream.bitsLeft) cursor (.ok (entry, middle))) :
    advanceSkippingSubblocks false true cursor = .ok (entry, middle) := by
  unfold advanceSkippingSubblocks
  rw [advanceSkippingLoop, advance, ends _ (Nat.lt_succ_self _)]
  cases entry with
  | subBlock blockID => exact absurd rfl (notBlock blockID)
  | error | endBlock | record => rfl

section Turns

variable {stream done : SimpleBitstreamCursor} {val : Nat}

theorem record_next (more : cursor.stream.atEndOfStream = false)
    (read : cursor.readCode = .ok (val, { cursor with stream := stream })) (isRecord : Bitc.defineAbbrev ≤ val) :
    advanceSkippingSubblocks false true cursor = .ok (.record val, { cursor with stream := stream }) := by
  unfold Bitc.defineAbbrev at isRecord
  refine advanceSkippingSubblocks_of (fun blockID same => by cases same) (Turns.ends_of_turn fun turns => ?_)
  exact advanceLoop_record more read (by unfold Bitc.endBlock; omega)
    (by unfold Bitc.enterSubblock; omega) fun _ => rfl

theorem loop_set {blockID fuel : Nat} (small : blockID < 2 ^ 32)
    (next : advanceSkippingSubblocks false true cursor =
      .ok (.record Bitc.unabbrevRecord, { cursor with stream := stream }))
    (read : readUnabbreviated stream = .ok (⟨Bitc.blockInfoCodeSetBID, [blockID], none⟩, done)) :
    readBlockInfoLoop (fuel + 1) state cursor = readBlockInfoLoop fuel
      ⟨(BlockInfo.getOrCreateBlockInfo blockID state.records).1,
        some (BlockInfo.getOrCreateBlockInfo blockID state.records).2⟩
      { cursor with stream := done } := by
  rw [readBlockInfoLoop, next]
  simp only [bind, Except.bind]
  rw [if_neg (by decide), readRecord_unabbreviated]
  unfold onStream
  simp only [read, Except.map, if_true, Nat.mod_eq_of_lt small]

theorem loop_define {place fuel : Nat} {abbv : BitCodeAbbrev} (current : state.current = some place)
    (next : advanceSkippingSubblocks false true cursor =
      .ok (.record Bitc.defineAbbrev, { cursor with stream := stream }))
    (read : readAbbrev stream = .ok (abbv, done)) :
    readBlockInfoLoop (fuel + 1) state cursor = readBlockInfoLoop fuel
      { state with records := BlockInfo.addAbbrev place abbv state.records } { cursor with stream := done } := by
  rw [readBlockInfoLoop, next]
  simp only [bind, Except.bind, if_true, current, read]

end Turns

/-! ### Definitions -/

/-- The reader has the infos of the writer and, once blocks have been named, the place for
those named last. -/
structure Informed (named : Prop) (writer : BitstreamWriter) (state : BlockInfoState) : Prop where
  records : state.records = writer.blockInfoRecords
  current : named → ∃ place, state.current = some place ∧
    BlockInfo.find writer.blockInfoCurBID writer.blockInfoRecords = some place

/-- The loop comes from where the one writer was to where the next one is, with the infos
that meet the condition. -/
def Guides (named : Prop) (writer next : BitstreamWriter) (reached : BlockInfoState → Prop) : Prop :=
  written writer <+: written next ∧ ∀ bits (cursor : BitstreamCursor) state, Covers bits writer next →
    At cursor.stream bits (written writer).length → cursor.curCodeSize = writer.curCodeSize →
      Informed named writer state →
      ∃ stream later, At stream bits (written next).length ∧ reached later ∧
        LoopLeads state cursor later { cursor with stream := stream }

variable {reached reachedNext : BlockInfoState → Prop} {between : BitstreamWriter} {named : Prop}

theorem switchToBlockID_read {blockID : Nat} (small : blockID < 2 ^ 32)
    (known : named ∨ blockID ≠ writer.blockInfoCurBID) (good : Good writer)
    (switched : writer.switchToBlockID blockID = some next) :
    Good next ∧ next = { writer with
      out := next.out, curBit := next.curBit, curValue := next.curValue, blockInfoCurBID := blockID } ∧
      Guides named writer next (· = ⟨(BlockInfo.getOrCreateBlockInfo blockID writer.blockInfoRecords).1,
        some (BlockInfo.getOrCreateBlockInfo blockID writer.blockInfoRecords).2⟩) := by
  unfold BitstreamWriter.switchToBlockID at switched
  split at switched
  · rename_i same
    cases switched
    refine ⟨good, by rw [← same], prefix_refl _, ?_⟩
    intro bits cursor state _ here _ informed
    obtain ⟨place, current, found⟩ := informed.current (known.resolve_right fun other => other same.symm)
    rw [same] at found
    have pair : BlockInfo.getOrCreateBlockInfo blockID writer.blockInfoRecords =
        (writer.blockInfoRecords, place) := by
      unfold BlockInfo.getOrCreateBlockInfo
      rw [found]
    refine ⟨cursor.stream, state, here, ?_, Turns.Leads.refl _⟩
    rw [pair, ← informed.records, ← current]
  · obtain ⟨set, emitted, done⟩ := Option.bind_eq_some_iff.mp switched
    cases done
    have values : ProperVals [blockID] := by
      refine ⟨by rw [length_singleton]; decide, fun val member => ?_⟩
      rw [mem_singleton.mp member]
      omega
    obtain ⟨coded, numbered, carries⟩ := carries_unabbreviated (by decide) values good emitted
    obtain ⟨_, same, _, _, come⟩ := emitCode_read good numbered
    have first := (carries_emit good numbered).grows
    refine ⟨⟨carries.good.curBit, carries.good.curValue, carries.good.words⟩, by rw [same.trans carries.same],
      first.trans carries.grows, ?_⟩
    intro bits cursor state covers here codeSize informed
    have covers : Covers bits writer set := covers
    obtain ⟨more, stream, there, read⟩ := come bits cursor (covers.left first carries.grows) here codeSize
    obtain ⟨done, decoded, arrived⟩ := carries.decoded (covers.right first carries.grows) there
    refine ⟨done, _, arrived, rfl, Turns.leads_of_turn ?_ fun turns => ?_⟩
    · exact here.closer arrived (emitCode_longer good numbered carries.grows)
    · rw [loop_set small (record_next more read (by decide)) decoded, informed.records]

theorem emitBlockInfoAbbrev_read {blockID : Nat} {abbv : BitCodeAbbrev} (small : blockID < 2 ^ 32)
    (known : named ∨ blockID ≠ writer.blockInfoCurBID) (proper : ProperAbbrev abbv) (good : Good writer)
    (emitted : writer.emitBlockInfoAbbrev blockID abbv = some next) :
    Good next ∧ next = { writer with
      out := next.out, curBit := next.curBit, curValue := next.curValue, blockInfoCurBID := blockID
      blockInfoRecords := Scope.addInfo writer.blockInfoRecords (blockID, abbv) } ∧
      Guides named writer next (Informed True next) := by
  obtain ⟨switched, first, rest⟩ := Option.bind_eq_some_iff.mp emitted
  obtain ⟨encoded, second, done⟩ := Option.bind_eq_some_iff.mp rest
  obtain ⟨goodSwitched, state, grows, come⟩ := switchToBlockID_read small known good first
  obtain ⟨coded, numbered, carries⟩ := carries_abbrev proper goodSwitched second
  obtain ⟨_, same, _, _, comeCode⟩ := emitCode_read goodSwitched numbered
  have code := (carries_emit goodSwitched numbered).grows
  have behind := code.trans carries.grows
  have kept : encoded = { writer with
      out := encoded.out, curBit := encoded.curBit, curValue := encoded.curValue,
      blockInfoCurBID := blockID } := by
    rw [same.trans carries.same, state]
  obtain ⟨created, place, made⟩ : ∃ created place, (created, place) =
      BlockInfo.getOrCreateBlockInfo blockID writer.blockInfoRecords := ⟨_, _, rfl⟩
  have there : BlockInfo.find blockID created = some place := by
    have found := BlockInfo.find_getOrCreate blockID writer.blockInfoRecords
    rwa [← made] at found
  have made' : BlockInfo.getOrCreateBlockInfo blockID encoded.blockInfoRecords = (created, place) := by
    rw [kept]
    exact made.symm
  have added : Scope.addInfo writer.blockInfoRecords (blockID, abbv) =
      BlockInfo.addAbbrev place abbv created := by
    unfold Scope.addInfo
    rw [← made]
  rw [made'] at done
  cases done
  rw [added]
  refine ⟨⟨carries.good.curBit, carries.good.curValue, carries.good.words⟩, by rw [kept], grows.trans behind, ?_⟩
  intro bits cursor state' covers here codeSize informed
  have covers : Covers bits writer encoded := covers
  obtain ⟨stream, _, hereSwitched, rfl, leads⟩ :=
    come bits cursor state' (covers.left grows behind) here codeSize informed
  rw [← made] at leads
  have covers := covers.right grows behind
  obtain ⟨notEnd, atAbbrev, hereAbbrev, read⟩ := comeCode bits { cursor with stream := stream }
    (covers.left code carries.grows) hereSwitched (by rw [state]; exact codeSize)
  obtain ⟨done, decoded, arrived⟩ := carries.decoded (covers.right code carries.grows) hereAbbrev
  refine ⟨done, ⟨BlockInfo.addAbbrev place abbv created, some place⟩, arrived, ⟨rfl, fun _ => ⟨place, rfl, ?_⟩⟩,
    Turns.Leads.trans leads (Turns.leads_of_turn ?_ fun turns => ?_)⟩
  · rw [BlockInfo.find_addAbbrev, kept]
    exact there
  · exact hereSwitched.closer arrived (emitCode_longer goodSwitched numbered carries.grows)
  · exact loop_define rfl (record_next notEnd read (Nat.le_refl _)) decoded

theorem definitions_read :
    ∀ {definitions : List (Nat × BitCodeAbbrev)} {named : Prop} {writer next : BitstreamWriter},
    (∀ definition ∈ definitions, definition.1 < 2 ^ 32 ∧ ProperAbbrev definition.2) →
      (∀ definition ∈ definitions.head?, named ∨ definition.1 ≠ writer.blockInfoCurBID) → Good writer →
      Runs.run BitstreamWriter.apply (definitions.map fun (blockID, abbv) =>
        BitstreamWriter.Operation.emitBlockInfoAbbrev blockID abbv) writer = some next →
      Good next ∧ next = { writer with
        out := next.out, curBit := next.curBit, curValue := next.curValue, blockInfoCurBID := next.blockInfoCurBID
        blockInfoRecords := definitions.foldl Scope.addInfo writer.blockInfoRecords } ∧
        Guides named writer next fun later => later.records = next.blockInfoRecords
  | [], named, writer, next, _, _, good, ran => by
      cases ran
      refine ⟨good, rfl, prefix_refl _, ?_⟩
      intro bits cursor state _ here _ informed
      exact ⟨cursor.stream, state, here, informed.records, Turns.Leads.refl _⟩
  | definition :: definitions, named, writer, next, proper, known, good, ran => by
      obtain ⟨middle, first, rest⟩ := Runs.run_cons_eq_some _ ran
      have own := proper definition mem_cons_self
      obtain ⟨goodMiddle, state, grows, come⟩ :=
        emitBlockInfoAbbrev_read own.1 (known definition rfl) own.2 good first
      obtain ⟨goodNext, stateNext, growsMore, comeMore⟩ := definitions_read
        (fun other member => proper other (mem_cons_of_mem _ member)) (fun _ _ => .inl trivial)
          goodMiddle rest
      refine ⟨goodNext, ?_, grows.trans growsMore, ?_⟩
      · rw [state] at stateNext
        exact stateNext
      · intro bits cursor first covers here codeSize informed
        obtain ⟨stream, second, there, informedMiddle, leads⟩ :=
          come bits cursor first (covers.left grows growsMore) here codeSize informed
        obtain ⟨done, third, arrived, informedNext, leadsMore⟩ :=
          comeMore bits { cursor with stream := stream } second
          (covers.right grows growsMore) there (by rw [state]; exact codeSize) informedMiddle
        exact ⟨done, third, arrived, informedNext, Turns.Leads.trans leads leadsMore⟩

theorem loop_end {fuel : Nat}
    (ends : Turns.Ends (advanceLoop false true) (·.stream.bitsLeft) cursor (.ok (.endBlock, middle))) :
    readBlockInfoLoop (fuel + 1) state cursor = .ok (some state.records, middle) := by
  rw [readBlockInfoLoop, advanceSkippingSubblocks_of (fun blockID same => by cases same) ends]
  rfl

/-- The cursors are at the same bit, in the same blocks with the same abbreviations. -/
structure SamePlace (one two : BitstreamCursor) : Prop where
  bitNo : one.stream.getCurrentBitNo = two.stream.getCurrentBitNo
  codeSize : one.curCodeSize = two.curCodeSize
  abbrevs : one.curAbbrevs = two.curAbbrevs
  scope : one.blockScope = two.blockScope

theorem blockInfo_read {definitions : List (Nat × BitCodeAbbrev)}
    (proper : ∀ definition ∈ definitions, definition.1 < 2 ^ 32 ∧ ProperAbbrev definition.2)
    (known : ∀ definition ∈ definitions.head?, definition.1 ≠ 2 ^ 32 - 1) (good : Good writer)
    (ran : Runs.run BitstreamWriter.apply (Item.blockInfo definitions).operations writer = some next) :
    Good next ∧ writer.out.length ≤ next.out.length ∧ next = { writer with
      out := next.out, curBit := next.curBit, curValue := next.curValue, blockInfoCurBID := next.blockInfoCurBID
      blockInfoRecords := definitions.foldl Scope.addInfo [] } ∧
    (next.out.length < 2 ^ 32 → written writer <+: written next ∧ ∀ bits cursor, Covers bits writer next →
      Follows writer bits cursor → ∃ size middle entered done,
        Advances cursor (.subBlock Bitc.blockInfoBlockID) middle ∧
        middle.enterSubBlock Bitc.blockInfoBlockID = .ok (size, entered) ∧
        middle.readBlockInfoBlock = .ok (some next.blockInfoRecords, done) ∧
        done.stream.getCurrentBitNo = entered.stream.getCurrentBitNo + 32 * size ∧
        Follows next bits (done.setBlockInfo next.blockInfoRecords) ∧ done.blockScope = cursor.blockScope ∧
        ∃ skipped, middle.skipBlock = .ok skipped ∧ SamePlace skipped done) := by
  obtain ⟨inner, first, rest⟩ := Runs.run_cons_eq_some _ ran
  rw [Runs.run_append] at rest
  obtain ⟨filled, second, rest⟩ := Option.bind_eq_some_iff.mp rest
  obtain ⟨_, exit, done⟩ := Runs.run_cons_eq_some _ rest
  cases done
  obtain ⟨opened, entering, set⟩ := Option.bind_eq_some_iff.mp first
  cases set
  obtain ⟨headed, open_⟩ := enterSubblock_opened (by decide) (by decide) good entering
  have cleared : Good { opened with blockInfoCurBID := 2 ^ 32 - 1, blockInfoRecords := [] } :=
    ⟨open_.good.curBit, open_.good.curValue, open_.good.words⟩
  obtain ⟨goodFilled, state, grows, come⟩ := definitions_read proper
    (fun definition first => .inr (known definition first)) cleared second
  have grows : written opened <+: written filled := grows
  have scope : filled.blockScope = opened.blockScope := by rw [state]
  have codeSize : filled.curCodeSize = 2 := by
    rw [state]
    exact congrArg BitstreamWriter.curCodeSize open_.state
  obtain ⟨goodNext, longer, _, stateNext⟩ :=
    open_.kept good goodFilled (out_of_grown open_.good goodFilled grows) scope exit
  have records : next.blockInfoRecords = filled.blockInfoRecords := by rw [stateNext]
  have stateNext : next = { writer with
      out := next.out, curBit := next.curBit, curValue := next.curValue, blockInfoCurBID := next.blockInfoCurBID
      blockInfoRecords := definitions.foldl Scope.addInfo [] } := by
    rw [stateNext, state, open_.state]
  refine ⟨goodNext, longer, stateNext, fun short => ?_⟩
  obtain ⟨size, around⟩ := open_.around goodFilled grows scope codeSize exit short
  refine ⟨around.grows, ?_⟩
  intro bits cursor covers follows
  obtain ⟨stream, inside, skipped, advances, enters, entered, here, items, skips, skippedHere, ends⟩ :=
    around.come bits cursor covers follows
  obtain ⟨stop, later, there, informed, leads⟩ := come bits inside ⟨[], none⟩ items here
    (entered.codeSize.trans (congrArg BitstreamWriter.curCodeSize open_.state).symm) ⟨rfl, False.elim⟩
  obtain ⟨doneStream, arrived, ends⟩ := ends { inside with stream := stop } there entered.codeSize rfl
  refine ⟨size, { cursor with stream := stream }, inside, { inside with
    stream := doneStream, curCodeSize := cursor.curCodeSize,
    curAbbrevs := cursor.curAbbrevs, blockScope := cursor.blockScope },
    advances, enters, ?_, ?_, ⟨arrived, ?_, ?_, rfl⟩, rfl, { cursor with stream := skipped }, skips,
      ⟨?_, rfl, rfl, rfl⟩⟩
  · unfold readBlockInfoBlock
    rw [enters]
    simp only [bind, Except.bind]
    obtain ⟨less, still, same⟩ := leads _ (Nat.lt_succ_self _)
    obtain ⟨less, rfl⟩ : ∃ fewer, less = fewer + 1 := ⟨less - 1, by omega⟩
    rw [records, ← informed]
    exact same.trans (loop_end (ends true))
  · change doneStream.getCurrentBitNo = inside.stream.getCurrentBitNo + 32 * size
    rw [arrived.bitNo, here.bitNo, around.finish]
  · rw [stateNext]
    exact follows.codeSize
  · rw [stateNext]
    exact follows.abbrevs
  · change skipped.getCurrentBitNo = doneStream.getCurrentBitNo
    rw [skippedHere.bitNo, arrived.bitNo]

end Bitstream

end EvmBackend
