/-
Blocks on the stream. The header leaves a word for the length, the end of the block
writes it there; a client enters the block by the header, or goes past the block by
its length.
-/

import EvmBackend.Bitstream.Entries

namespace EvmBackend.Bitstream

open BitLists BitstreamCursor List

variable {writer next inner last : BitstreamWriter} {cursor : BitstreamCursor} {blockID codeLen : Nat}

/-! ### Headers -/

/-- What follows the code and the number in the header of a block. -/
structure Headed (blockID codeLen size : Nat) (bits : List Bool) (place : Nat)
    (cursor : BitstreamCursor) : Prop where
  header : ∃ sized stream, cursor.stream.readVBR Bitc.codeLenWidth = .ok (codeLen, sized) ∧
    sized.skipToFourByteBoundary.read Bitc.blockSizeWidth = .ok (size, stream) ∧ At stream bits place

structure Entered (blockID codeLen : Nat) (outside entered : BitstreamCursor) : Prop where
  codeSize : entered.curCodeSize = codeLen
  abbrevs : entered.curAbbrevs =
    (BlockInfo.getBlockInfo blockID (outside.blockInfo.getD [])).elim [] BlockInfo.abbrevs
  scope : entered.blockScope = ⟨outside.curCodeSize, outside.curAbbrevs⟩ :: outside.blockScope
  infos : entered.blockInfo = outside.blockInfo

theorem Headed.enters {size place : Nat} {bits : List Bool}
    (headed : Headed blockID codeLen size bits place cursor)
    (positive : 0 < codeLen) (bounded : codeLen ≤ 32) (more : place < bits.length) :
    ∃ entered, At entered.stream bits place ∧ cursor.enterSubBlock blockID = .ok (size, entered) ∧
      Entered blockID codeLen cursor entered := by
  obtain ⟨sized, stream, lengthRead, sizeRead, here⟩ := headed.header
  have notEnd : stream.atEndOfStream = false := by
    rw [here.atEnd, decide_eq_false_iff_not]
    omega
  have inherited : (cursor.blockInfo.bind (BlockInfo.getBlockInfo blockID)).elim [] BlockInfo.abbrevs =
      (BlockInfo.getBlockInfo blockID (cursor.blockInfo.getD [])).elim [] BlockInfo.abbrevs := by
    cases cursor.blockInfo with
    | none | some => rfl
  refine ⟨⟨stream, codeLen, _, _, _⟩, here, ?_, ⟨rfl, inherited, rfl, rfl⟩⟩
  unfold enterSubBlock
  rw [lengthRead]
  simp only [bind, Except.bind]
  rw [if_neg (by unfold maxChunkSize; omega), sizeRead]
  simp only [notEnd]
  rw [if_neg (by omega)]
  rfl

theorem Headed.skips {size place : Nat} {bits : List Bool}
    (headed : Headed blockID codeLen size bits place cursor)
    (some_ : 0 < size) (within : place + 32 * size ≤ bits.length) :
    ∃ stream, At stream bits (place + 32 * size) ∧ cursor.skipBlock = .ok { cursor with stream := stream } := by
  obtain ⟨sized, stream, lengthRead, sizeRead, here⟩ := headed.header
  have total := here.length
  have goal : stream.getCurrentBitNo + size * 4 * 8 = place + 32 * size := by
    rw [here.bitNo]
    omega
  obtain ⟨skipped, jumped, there⟩ := jump_at here within
  refine ⟨skipped, there, ?_⟩
  have notEnd : stream.atEndOfStream = false := by
    rw [here.atEnd, decide_eq_false_iff_not]
    omega
  have reachable : stream.canSkipToPos ((place + 32 * size) / 8) = true := by
    rw [SimpleBitstreamCursor.canSkipToPos, decide_eq_true_iff]
    omega
  unfold skipBlock
  rw [lengthRead]
  simp only [bind, Except.bind]
  rw [sizeRead]
  simp only [notEnd, goal, reachable, jumped]
  rfl

/-- The header of a block up to the word for its length, and that word with zeros. The
client finds there the length that the word has in the end. -/
structure Opened (blockID codeLen : Nat) (writer headed inner : BitstreamWriter) : Prop where
  good : Good inner
  state : inner = { writer with
    out := inner.out, curBit := inner.curBit, curValue := inner.curValue
    curCodeSize := codeLen
    blockScope := ⟨writer.curCodeSize, (written headed).length / 32, writer.curAbbrevs⟩ :: writer.blockScope
    curAbbrevs := (BlockInfo.getBlockInfo blockID writer.blockInfoRecords).elim [] BlockInfo.abbrevs }
  aligned : (written headed).length % 32 = 0
  grows : written writer <+: written headed
  grown : written inner = written headed ++ bitsOf 32 0
  come : ∀ size bits cursor, size < 2 ^ 32 → Covers bits writer headed →
    Holds bits (written headed).length (bitsOf 32 size) → Follows writer bits cursor →
      ∃ stream, Advances cursor (.subBlock blockID) { cursor with stream := stream } ∧
        Headed blockID codeLen size bits (written inner).length { cursor with stream := stream }

theorem enterSubblock_opened (small : blockID < 2 ^ 32) (short : codeLen < 2 ^ 32) (good : Good writer)
    (entered : writer.enterSubblock blockID codeLen = some inner) :
      ∃ headed, Opened blockID codeLen writer headed inner := by
  obtain ⟨coded, first, rest⟩ := Option.bind_eq_some_iff.mp entered
  obtain ⟨numbered, second, rest⟩ := Option.bind_eq_some_iff.mp rest
  obtain ⟨sized, third, rest⟩ := Option.bind_eq_some_iff.mp rest
  obtain ⟨index, indexed, rest⟩ := Option.bind_eq_some_iff.mp rest
  obtain ⟨opened, fourth, done⟩ := Option.bind_eq_some_iff.mp rest
  obtain ⟨goodCoded, sameCoded, _, _, come⟩ := emitCode_read good first
  have code := (carries_emit good first).grows
  have number := carries_emitVBR (by decide) small goodCoded second
  have length := carries_emitVBR (by decide) short number.good third
  have flushed := carries_flush length.good
  obtain ⟨_, goodOpened, sameOpened, grownOpened⟩ := emit_written flushed.good fourth
  have zero := (flushToWord_written length.good).2.2.1
  have same := ((sameCoded.trans number.same).trans (length.same.trans flushed.same)).trans sameOpened
  have aligned := length_written_mod flushed.good
  rw [zero] at aligned
  have place : index = (written sized.flushToWord).length / 32 := by
    unfold BitstreamWriter.getWordIndex at indexed
    split at indexed
    · cases indexed
      rw [length_written, zero]
      omega
    · cases indexed
  have behindNumber := length.grows.trans flushed.grows
  have behindCode := number.grows.trans behindNumber
  cases done
  refine ⟨sized.flushToWord,
    ⟨⟨goodOpened.curBit, goodOpened.curValue, goodOpened.words⟩, ?_, aligned, code.trans behindCode,
    grownOpened, ?_⟩⟩
  · rw [same, place]
  · intro size bits cursor fits covers holds follows
    obtain ⟨more, stream, there, read⟩ :=
      come bits cursor (covers.left code behindCode) follows.here follows.codeSize
    have behind := covers.right code behindCode
    obtain ⟨atLength, numberRead, hereLength⟩ := number.decoded (behind.left number.grows behindNumber) there
    have behind := behind.right number.grows behindNumber
    obtain ⟨atFill, lengthRead, hereFill⟩ := length.decoded (behind.left length.grows flushed.grows) hereLength
    obtain ⟨atSize, skipped, hereSize⟩ := flushed.decoded (behind.right length.grows flushed.grows) hereFill
    have moved : atFill.skipToFourByteBoundary = atSize := congrArg Prod.snd (Except.ok.inj skipped)
    obtain ⟨front, back, rfl, before⟩ := holds
    obtain ⟨done, sizeRead, arrived⟩ :=
      decodes_read _ (by decide) (by decide) fits atSize front back before hereSize
    refine ⟨atLength, Turns.ends_of_turn fun turns => advanceLoop_block more read ?_,
      ⟨⟨atFill, done, lengthRead, ?_, ?_⟩⟩⟩
    · unfold readSubBlockID onStream
      rw [numberRead]
      rfl
    · rw [moved]
      exact sizeRead
    · change At done _ (written opened).length
      rwa [grownOpened, length_append, length_bitsOf, ← length_bitsOf 32 size]

/-! ### Ends -/

theorem bytesBits_patch {bytes word : List UInt8} {front middle back : List Bool} {start count : Nat}
    (bits : bytesBits bytes = front ++ (middle ++ back)) (before : front.length = 8 * start)
    (length : middle.length = 8 * count) :
    bytesBits (bytes.take start ++ word ++ bytes.drop (start + count)) = front ++ (bytesBits word ++ back) := by
  have behind : 8 * (start + count) = (front ++ middle).length := by
    rw [length_append]
    omega
  rw [bytesBits_append, bytesBits_append, bytesBits_take, bytesBits_drop, bits, ← before, take_left, behind,
    ← List.append_assoc front middle back, drop_left, List.append_assoc]

variable {block : BitstreamWriter.Block} {outer : List BitstreamWriter.Block} {front inside : List Bool}

/-- The end of a block: its code, zeros up to the next word, and the length in the word
left for it. -/
structure Ended (writer last : BitstreamWriter) (block : BitstreamWriter.Block)
    (outer : List BitstreamWriter.Block)
    (front inside ending : List Bool) (size : Nat) : Prop where
  positive : 0 < writer.curCodeSize
  bounded : writer.curCodeSize ≤ 32
  small : size < 2 ^ 32
  sized : 32 * size = (inside ++ ending).length
  some : 0 < ending.length
  grown : written last = front ++ (bitsOf 32 size ++ (inside ++ ending))
  come : ∀ bits (cursor : BitstreamCursor) saved scopes, Holds bits (written writer).length ending →
    At cursor.stream bits (written writer).length → cursor.curCodeSize = writer.curCodeSize →
      cursor.blockScope = saved :: scopes → ∃ stream, At stream bits (written last).length ∧
        ∀ dontProcess, Turns.Ends (advanceLoop false dontProcess) (·.stream.bitsLeft) cursor
          (.ok (.endBlock, { cursor with
          stream := stream, curCodeSize := saved.prevCodeSize,
          curAbbrevs := saved.prevAbbrevs, blockScope := scopes }))

theorem exitBlock_cases (nested : writer.blockScope = block :: outer) (ended : writer.exitBlock = some last) :
    ∃ coded, writer.emitCode Bitc.endBlock = some coded ∧ last = { coded.flushToWord with
      out := coded.flushToWord.out.take (block.startSizeWord * 32 / 8 % 2 ^ 32) ++
        littleEndian 4 ((coded.flushToWord.out.length / 4 - block.startSizeWord - 1) % 2 ^ 32) ++
        coded.flushToWord.out.drop (block.startSizeWord * 32 / 8 % 2 ^ 32 + 4)
      curCodeSize := block.prevCodeSize, curAbbrevs := block.prevAbbrevs, blockScope := outer } := by
  unfold BitstreamWriter.exitBlock at ended
  rw [nested] at ended
  obtain ⟨coded, first, rest⟩ := Option.bind_eq_some_iff.mp ended
  obtain ⟨index, indexed, rest⟩ := Option.bind_eq_some_iff.mp rest
  obtain ⟨patched, second, done⟩ := Option.bind_eq_some_iff.mp rest
  have wordIndex : index = coded.flushToWord.out.length / 4 := by
    unfold BitstreamWriter.getWordIndex at indexed
    split at indexed
    · exact (Option.some.inj indexed).symm
    · cases indexed
  unfold BitstreamWriter.backpatchWord at second
  simp only [wordIndex] at second
  split at second
  · cases second
    cases done
    exact ⟨coded, first, rfl⟩
  · cases second

theorem exitBlock_kept (good : Good writer) (nested : writer.blockScope = block :: outer)
    (place : 32 * block.startSizeWord + 32 ≤ (written writer).length) (ended : writer.exitBlock = some last) :
    Good last ∧ writer.out.length ≤ last.out.length ∧ last = { writer with
      out := last.out, curBit := last.curBit, curValue := last.curValue
      curCodeSize := block.prevCodeSize, blockScope := outer, curAbbrevs := block.prevAbbrevs } := by
  obtain ⟨coded, first, rfl⟩ := exitBlock_cases nested ended
  obtain ⟨goodCoded, sameCoded, _⟩ := emitCode_read good first
  have flushed := carries_flush goodCoded
  have grows := (carries_emit good first).grows.trans flushed.grows
  have zero := (flushToWord_written goodCoded).2.2.1
  have words := flushed.good.words
  have patched : (coded.flushToWord.out.take (block.startSizeWord * 32 / 8 % 2 ^ 32) ++
      littleEndian 4 ((coded.flushToWord.out.length / 4 - block.startSizeWord - 1) % 2 ^ 32) ++
      coded.flushToWord.out.drop (block.startSizeWord * 32 / 8 % 2 ^ 32 + 4)).length =
        coded.flushToWord.out.length := by
    simp only [length_append, length_take, length_drop, length_littleEndian]
    have whole := grows.length_le
    rw [length_written coded.flushToWord, zero] at whole
    omega
  refine ⟨⟨by rw [zero]; decide, flushed.good.curValue, patched.symm ▸ words⟩,
    patched.symm ▸ out_of_grown good flushed.good grows, ?_⟩
  rw [sameCoded.trans flushed.same]

theorem exitBlock_ended (good : Good writer) (nested : writer.blockScope = block :: outer)
    (split : written writer = front ++ (bitsOf 32 0 ++ inside)) (aligned : front.length % 32 = 0)
    (place : block.startSizeWord = front.length / 32) (ended : writer.exitBlock = some last)
    (short : last.out.length < 2 ^ 32) :
      ∃ ending size, Ended writer last block outer front inside ending size := by
  obtain ⟨coded, first, rfl⟩ := exitBlock_cases nested ended
  obtain ⟨goodCoded, _, grownCoded, ⟨positive, bounded, _⟩, come⟩ := emitCode_read good first
  have flushed := carries_flush goodCoded
  obtain ⟨fill, grownFill, readFill⟩ := flushed.decodes
  have zero := (flushToWord_written goodCoded).2.2.1
  have empty : bitsOf 0 coded.flushToWord.curValue = [] := rfl
  have bits : bytesBits coded.flushToWord.out =
      front ++ (bitsOf 32 0 ++ (inside ++ (bitsOf writer.curCodeSize Bitc.endBlock ++ fill))) := by
    have whole : written coded.flushToWord = bytesBits coded.flushToWord.out := by
      rw [written, zero, empty, append_nil]
    rw [← whole, grownFill, grownCoded, split]
    simp only [List.append_assoc]
  have words := flushed.good.words
  have length := congrArg List.length bits
  simp only [length_bytesBits, length_append, length_bitsOf] at length
  simp only [length_append, length_take, length_drop, length_littleEndian] at short
  have byteNo : block.startSizeWord * 32 / 8 % 2 ^ 32 = front.length / 8 := by omega
  obtain ⟨size, sized⟩ : ∃ size, size = coded.flushToWord.out.length / 4 - block.startSizeWord - 1 := ⟨_, rfl⟩
  have kept : size % 2 ^ 32 = size := Nat.mod_eq_of_lt (by omega)
  have patch := @bytesBits_patch _ (littleEndian 4 size) _ _ _ (front.length / 8) 4 bits (by omega)
    (length_bitsOf 32 0)
  rw [bytesBits_littleEndian] at patch
  rw [byteNo, ← sized, kept]
  obtain ⟨last, ends⟩ : ∃ last, last = { coded.flushToWord with
      out := coded.flushToWord.out.take (front.length / 8) ++ littleEndian 4 size ++
        coded.flushToWord.out.drop (front.length / 8 + 4)
      curCodeSize := block.prevCodeSize, curAbbrevs := block.prevAbbrevs, blockScope := outer } := ⟨_, rfl⟩
  have grown : written last =
      front ++ (bitsOf 32 size ++ (inside ++ (bitsOf writer.curCodeSize Bitc.endBlock ++ fill))) := by
    rw [ends, written, zero]
    exact (congrArg (· ++ bitsOf 0 coded.flushToWord.curValue) patch).trans (by rw [empty, append_nil])
  have total : (written coded.flushToWord).length = (written last).length := by
    rw [grown, length_written, zero]
    simp only [length_append, length_bitsOf]
    omega
  rw [← ends]
  refine ⟨bitsOf writer.curCodeSize Bitc.endBlock ++ fill, size, positive, bounded, by omega, ?_, ?_, grown, ?_⟩
  · simp only [length_append, length_bitsOf]
    omega
  · simp only [length_append, length_bitsOf]
    omega
  · intro bits cursor saved scopes holds here codeSize around
    have behind : written coded.flushToWord =
        written writer ++ (bitsOf writer.curCodeSize Bitc.endBlock ++ fill) := by
      rw [grownFill, grownCoded, List.append_assoc]
    have covers : Covers bits writer coded.flushToWord := ⟨_, behind, holds⟩
    have code := (carries_emit good first).grows
    obtain ⟨more, atFill, there, read⟩ := come bits cursor (covers.left code flushed.grows) here codeSize
    obtain ⟨done, skipped, arrived⟩ := flushed.decoded (covers.right code flushed.grows) there
    have moved : atFill.skipToFourByteBoundary = done := congrArg Prod.snd (Except.ok.inj skipped)
    rw [total] at arrived
    refine ⟨done, arrived, fun dontProcess => Turns.ends_of_turn fun turns => advanceLoop_end more read ?_⟩
    unfold readBlockEnd
    rw [around]
    simp only [moved]

/-- A block that is written from one writer to the next, with items inside. A client enters
it and comes to its items; behind them it comes to the end, and it can go there at once. -/
structure Around (blockID codeLen size : Nat) (writer inner filled next : BitstreamWriter) : Prop where
  grows : written writer <+: written next
  finish : (written next).length = (written inner).length + 32 * size
  come : ∀ bits cursor, Covers bits writer next → Follows writer bits cursor → ∃ stream inside skipped,
    Advances cursor (.subBlock blockID) { cursor with stream := stream } ∧
    BitstreamCursor.enterSubBlock blockID { cursor with stream := stream } = .ok (size, inside) ∧
    Entered blockID codeLen cursor inside ∧ At inside.stream bits (written inner).length ∧
      Covers bits inner filled ∧
    BitstreamCursor.skipBlock { cursor with stream := stream } = .ok { cursor with stream := skipped } ∧
    At skipped bits (written next).length ∧
    ∀ arrived : BitstreamCursor, At arrived.stream bits (written filled).length → arrived.curCodeSize = codeLen →
      arrived.blockScope = inside.blockScope → ∃ done, At done bits (written next).length ∧ ∀ dontProcess,
        Turns.Ends (advanceLoop false dontProcess) (·.stream.bitsLeft) arrived (.ok (.endBlock, { arrived with
          stream := done, curCodeSize := cursor.curCodeSize,
          curAbbrevs := cursor.curAbbrevs, blockScope := cursor.blockScope }))

variable {headed filled : BitstreamWriter}

theorem Opened.kept (opened : Opened blockID codeLen writer headed inner) (good : Good writer)
    (goodFilled : Good filled)
    (longer : inner.out.length ≤ filled.out.length) (scope : filled.blockScope = inner.blockScope)
    (exit : filled.exitBlock = some next) :
    Good next ∧ writer.out.length ≤ next.out.length ∧ filled.out.length ≤ next.out.length ∧ next = { filled with
      out := next.out, curBit := next.curBit, curValue := next.curValue
      curCodeSize := writer.curCodeSize, blockScope := writer.blockScope, curAbbrevs := writer.curAbbrevs } := by
  have nested := scope.trans (congrArg BitstreamWriter.blockScope opened.state)
  have grows : written headed <+: written inner := ⟨_, opened.grown.symm⟩
  have length := congrArg List.length opened.grown
  rw [length_append, length_bitsOf] at length
  have onWord := length_written_mod opened.good
  have aligned := opened.aligned
  have innerLength := length_written inner
  have filledLength := length_written filled
  obtain ⟨goodNext, more, state⟩ := exitBlock_kept goodFilled nested (by simp only; omega) exit
  have first := out_of_grown good opened.good (opened.grows.trans grows)
  exact ⟨goodNext, Nat.le_trans first (Nat.le_trans longer more), more, state⟩

theorem Opened.around (opened : Opened blockID codeLen writer headed inner) (goodFilled : Good filled)
    (grows : written inner <+: written filled) (scope : filled.blockScope = inner.blockScope)
    (codeSize : filled.curCodeSize = codeLen) (exit : filled.exitBlock = some next)
    (short : next.out.length < 2 ^ 32) :
    ∃ size, Around blockID codeLen size writer inner filled next := by
  obtain ⟨code, behind⟩ := grows
  have nested := scope.trans (congrArg BitstreamWriter.blockScope opened.state)
  have split : written filled = written headed ++ (bitsOf 32 0 ++ code) := by
    rw [← behind, opened.grown, List.append_assoc]
  obtain ⟨ending, size, ended⟩ := exitBlock_ended goodFilled nested split opened.aligned rfl exit short
  have finish : (written next).length = (written inner).length + 32 * size := by
    rw [ended.grown, ended.sized, opened.grown]
    simp only [length_append, length_bitsOf]
    omega
  have header : written headed <+: written next := ⟨_, ended.grown.symm⟩
  refine ⟨size, opened.grows.trans header, finish, ?_⟩
  intro bits cursor covers follows
  have within := covers.within
  obtain ⟨rest, same, holds⟩ := covers.right opened.grows header
  rw [append_cancel_left (same.symm.trans ended.grown)] at holds
  obtain ⟨stream, advances, headed_⟩ :=
    opened.come size bits cursor ended.small (covers.left opened.grows header) holds.left
    follows
  have items := holds.right
  rw [length_bitsOf, ← length_bitsOf 32 0, ← length_append, ← opened.grown] at items
  have last := items.right
  rw [← length_append, behind] at last
  have some_ : 0 < size := by
    have positive := ended.some
    have total := ended.sized
    rw [length_append] at total
    omega
  rw [finish] at within
  obtain ⟨inside, here, enters, entered⟩ :=
    headed_.enters (codeSize ▸ ended.positive) (codeSize ▸ ended.bounded) (by omega)
  obtain ⟨skipped, skippedHere, skips⟩ := headed_.skips some_ within
  refine ⟨stream, inside, skipped, advances, enters,
    ⟨entered.codeSize, entered.abbrevs, entered.scope, entered.infos⟩, here,
    ⟨code, behind.symm, items.left⟩, skips, finish.symm ▸ skippedHere, ?_⟩
  intro arrived there sized around
  exact ended.come bits arrived _ _ last there (sized.trans codeSize.symm) (around.trans entered.scope)

end EvmBackend.Bitstream
