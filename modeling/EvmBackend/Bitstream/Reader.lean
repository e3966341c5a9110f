/-
The bitstream reader: a cursor that pulls words of 64 bits out of the bytes, and
on top of it the blocks, abbreviations and records.

Errors of the source are results of their own kind; so is an abort. A loop of
the source that only stops when it has read the right bits gets as many turns
as there are bits left.
-/

import EvmBackend.Bitstream
import EvmBackend.Library.BitLists

namespace EvmBackend

open BitLists

/-- The errors, with the numbers in their messages, and the aborts. -/
inductive BitstreamError
  | unexpectedEndOfBytes (read size : Nat)
  | unexpectedEndOfBits (read left : Nat)
  | codeSizeTooLarge (codeSize : Nat)
  | codeSizeZero
  | enterAtEndOfStream
  | skipAtEndOfStream
  | skipTooFar (skipTo bitNo : Nat)
  | invalidAbbrevNumber
  | abbrevStartsWithArrayOrBlob
  | arrayNotSecondToLast
  | arrayElementNotEncoding
  | arrayElementArrayOrBlob
  | invalidEncoding
  | abbrevSizeTooLarge
  | abbrevWithoutOperands
  | assertionFailed
  | outOfTurns
  deriving DecidableEq, Repr

/-! ### Words and bits -/

structure SimpleBitstreamCursor where
  bitcodeBytes : List UInt8
  nextChar : Nat
  curWord : Nat
  bitsInCurWord : Nat
  deriving DecidableEq, Repr

namespace SimpleBitstreamCursor

def create (bitcodeBytes : List UInt8) : SimpleBitstreamCursor := ⟨bitcodeBytes, 0, 0, 0⟩

def canSkipToPos (pos : Nat) (cursor : SimpleBitstreamCursor) : Bool :=
  pos ≤ cursor.bitcodeBytes.length

def atEndOfStream (cursor : SimpleBitstreamCursor) : Bool :=
  cursor.bitsInCurWord == 0 && cursor.bitcodeBytes.length ≤ cursor.nextChar

def getCurrentBitNo (cursor : SimpleBitstreamCursor) : Nat :=
  cursor.nextChar * 8 - cursor.bitsInCurWord

def bitsLeft (cursor : SimpleBitstreamCursor) : Nat :=
  8 * cursor.bitcodeBytes.length - cursor.getCurrentBitNo

def fillCurWord (cursor : SimpleBitstreamCursor) : Except BitstreamError SimpleBitstreamCursor :=
  if cursor.bitcodeBytes.length ≤ cursor.nextChar then
    .error (.unexpectedEndOfBytes cursor.nextChar cursor.bitcodeBytes.length)
  else
    let bytes := (cursor.bitcodeBytes.drop cursor.nextChar).take 8
    .ok { cursor with
      curWord := ofLittleEndian bytes
      nextChar := cursor.nextChar + bytes.length
      bitsInCurWord := bytes.length * 8 }

def read (numBits : Nat) (cursor : SimpleBitstreamCursor) :
    Except BitstreamError (Nat × SimpleBitstreamCursor) :=
  if numBits = 0 ∨ 64 < numBits then .error .assertionFailed
  else if numBits ≤ cursor.bitsInCurWord then
    .ok (cursor.curWord % 2 ^ numBits,
      { cursor with
        curWord := cursor.curWord >>> (numBits % 64)
        bitsInCurWord := cursor.bitsInCurWord - numBits })
  else do
    let low := if cursor.bitsInCurWord ≠ 0 then cursor.curWord else 0
    let bitsLeft := numBits - cursor.bitsInCurWord
    let filled ← fillCurWord cursor
    if filled.bitsInCurWord < bitsLeft then
      .error (.unexpectedEndOfBits filled.bitsInCurWord bitsLeft)
    else
      .ok (low ||| ((filled.curWord % 2 ^ bitsLeft) <<< (numBits - bitsLeft)) % 2 ^ 64,
        { filled with
          curWord := filled.curWord >>> (bitsLeft % 64)
          bitsInCurWord := filled.bitsInCurWord - bitsLeft })

/-- The chunks of a number up to one without the highest bit; the number is kept
to the bits of its type. -/
def readVBRLoop (width numBits : Nat) : Nat → Nat → Nat → Nat → SimpleBitstreamCursor →
    Except BitstreamError (Nat × SimpleBitstreamCursor)
  | 0, _, _, _, _ => .error .outOfTurns
  | fuel + 1, result, nextBit, piece, cursor =>
      let next := result ||| ((piece % 2 ^ (numBits - 1)) <<< nextBit) % 2 ^ width
      if piece / 2 ^ (numBits - 1) % 2 = 0 then .ok (next, cursor)
      else do
        let (piece, cursor) ← read numBits cursor
        readVBRLoop width numBits fuel next (nextBit + (numBits - 1)) (piece % 2 ^ 32) cursor

def readVBRWith (width numBits : Nat) (cursor : SimpleBitstreamCursor) :
    Except BitstreamError (Nat × SimpleBitstreamCursor) := do
  let (word, started) ← read numBits cursor
  let piece := word % 2 ^ 32
  if piece / 2 ^ (numBits - 1) % 2 = 0 then .ok (piece, started)
  else readVBRLoop width numBits (started.bitsLeft + 1) 0 0 piece started

def readVBR (numBits : Nat) := readVBRWith 32 numBits

def readVBR64 (numBits : Nat) := readVBRWith 64 numBits

def skipToFourByteBoundary (cursor : SimpleBitstreamCursor) : SimpleBitstreamCursor :=
  if 32 ≤ cursor.bitsInCurWord then
    { cursor with curWord := cursor.curWord >>> (cursor.bitsInCurWord - 32), bitsInCurWord := 32 }
  else { cursor with bitsInCurWord := 0 }

def skipToEnd (cursor : SimpleBitstreamCursor) : SimpleBitstreamCursor :=
  { cursor with nextChar := cursor.bitcodeBytes.length }

def jumpToBit (bitNo : Nat) (cursor : SimpleBitstreamCursor) :
    Except BitstreamError SimpleBitstreamCursor :=
  let byteNo := bitNo / 8 / 8 * 8
  let wordBitNo := bitNo % 64
  let moved := { cursor with nextChar := byteNo, bitsInCurWord := 0 }
  if cursor.canSkipToPos byteNo then
    if wordBitNo ≠ 0 then (read wordBitNo moved).map Prod.snd else .ok moved
  else .error .assertionFailed

end SimpleBitstreamCursor

namespace BitstreamCursor

structure Block where
  prevCodeSize : Nat
  prevAbbrevs : List BitCodeAbbrev
  deriving DecidableEq, Repr

end BitstreamCursor

structure BitstreamCursor where
  stream : SimpleBitstreamCursor
  curCodeSize : Nat
  curAbbrevs : List BitCodeAbbrev
  blockScope : List BitstreamCursor.Block
  blockInfo : Option (List BlockInfo)
  deriving DecidableEq, Repr

namespace BitstreamCursor

def create (bitcodeBytes : List UInt8) : BitstreamCursor :=
  ⟨.create bitcodeBytes, 2, [], [], none⟩

def maxChunkSize : Nat := 64

def setBlockInfo (info : List BlockInfo) (cursor : BitstreamCursor) : BitstreamCursor :=
  { cursor with blockInfo := some info }

def onStream {Result : Type}
    (reads : SimpleBitstreamCursor → Except BitstreamError (Result × SimpleBitstreamCursor))
    (cursor : BitstreamCursor) : Except BitstreamError (Result × BitstreamCursor) :=
  (reads cursor.stream).map fun (result, stream) => (result, { cursor with stream := stream })

def readCode (cursor : BitstreamCursor) : Except BitstreamError (Nat × BitstreamCursor) := do
  let (code, next) ← onStream (SimpleBitstreamCursor.read cursor.curCodeSize) cursor
  .ok (code % 2 ^ 32, next)

def readSubBlockID : BitstreamCursor → Except BitstreamError (Nat × BitstreamCursor) :=
  onStream (SimpleBitstreamCursor.readVBR Bitc.blockIDWidth)

/-- The block is entered; the result is the number of words its header gives. -/
def enterSubBlock (blockID : Nat) (cursor : BitstreamCursor) :
    Except BitstreamError (Nat × BitstreamCursor) := do
  let inherited := ((cursor.blockInfo.bind (BlockInfo.getBlockInfo blockID)).elim [] BlockInfo.abbrevs)
  let (codeSize, sized) ← cursor.stream.readVBR Bitc.codeLenWidth
  if maxChunkSize < codeSize then .error (.codeSizeTooLarge codeSize)
  else do
    let (numWords, stream) ← sized.skipToFourByteBoundary.read Bitc.blockSizeWidth
    if codeSize = 0 then .error .codeSizeZero
    else if stream.atEndOfStream then .error .enterAtEndOfStream
    else .ok (numWords, ⟨stream, codeSize, inherited,
      ⟨cursor.curCodeSize, cursor.curAbbrevs⟩ :: cursor.blockScope, cursor.blockInfo⟩)

def readBlockEnd (cursor : BitstreamCursor) : Option BitstreamCursor :=
  match cursor.blockScope with
  | [] => none
  | block :: outer => some
      { cursor with
        stream := cursor.stream.skipToFourByteBoundary
        curCodeSize := block.prevCodeSize
        curAbbrevs := block.prevAbbrevs
        blockScope := outer }

def skipBlock (cursor : BitstreamCursor) : Except BitstreamError BitstreamCursor := do
  let (_, sized) ← cursor.stream.readVBR Bitc.codeLenWidth
  let (numFourBytes, stream) ← sized.skipToFourByteBoundary.read Bitc.blockSizeWidth
  let skipTo := stream.getCurrentBitNo + numFourBytes * 4 * 8
  if stream.atEndOfStream then .error .skipAtEndOfStream
  else if stream.canSkipToPos (skipTo / 8) then do
    let skipped ← stream.jumpToBit skipTo
    .ok { cursor with stream := skipped }
  else .error (.skipTooFar skipTo stream.getCurrentBitNo)

def readOperand (stream : SimpleBitstreamCursor) :
    Except BitstreamError (BitCodeAbbrevOp × SimpleBitstreamCursor) := do
  let (isLiteral, kind) ← stream.read 1
  if isLiteral ≠ 0 then do
    let (value, next) ← kind.readVBR64 8
    .ok (.literal value, next)
  else do
    let (encoding, encoded) ← kind.read 3
    if encoding = 1 ∨ encoding = 2 then do
      let (data, next) ← encoded.readVBR64 5
      if data = 0 then .ok (.literal 0, next)
      else if maxChunkSize < data then .error .abbrevSizeTooLarge
      else .ok (if encoding = 1 then .fixed data else .vbr data, next)
    else if encoding = 3 then .ok (.array, encoded)
    else if encoding = 4 then .ok (.char6, encoded)
    else if encoding = 5 then .ok (.blob, encoded)
    else .error .invalidEncoding

def readOperandInfos : Nat → SimpleBitstreamCursor →
    Except BitstreamError (List BitCodeAbbrevOp × SimpleBitstreamCursor)
  | 0, stream => .ok ([], stream)
  | count + 1, stream => do
      let (op, next) ← readOperand stream
      let (ops, done) ← readOperandInfos count next
      .ok (op :: ops, done)

def readAbbrev (stream : SimpleBitstreamCursor) :
    Except BitstreamError (BitCodeAbbrev × SimpleBitstreamCursor) := do
  let (numOpInfo, counted) ← stream.readVBR 5
  let (abbv, done) ← readOperandInfos numOpInfo counted
  if abbv = [] then .error .abbrevWithoutOperands else .ok (abbv, done)

def readAbbrevRecord (cursor : BitstreamCursor) : Except BitstreamError BitstreamCursor := do
  let (abbv, stream) ← readAbbrev cursor.stream
  .ok { cursor with stream := stream, curAbbrevs := cursor.curAbbrevs ++ [abbv] }

inductive Entry
  | error
  | endBlock
  | subBlock (id : Nat)
  | record (abbrevID : Nat)
  deriving DecidableEq, Repr

/-- The next entry. Definitions of abbreviations are read on the way, unless they
are to be given as records. -/
def advanceLoop (dontPopBlockAtEnd dontAutoprocessAbbrevs : Bool) : Nat → BitstreamCursor →
    Except BitstreamError (Entry × BitstreamCursor)
  | 0, _ => .error .outOfTurns
  | fuel + 1, cursor =>
      if cursor.stream.atEndOfStream then .ok (.error, cursor)
      else do
        let (code, coded) ← readCode cursor
        if code = Bitc.endBlock then
          if dontPopBlockAtEnd then .ok (.endBlock, coded)
          else match readBlockEnd coded with
            | none => .ok (.error, coded)
            | some outer => .ok (.endBlock, outer)
        else if code = Bitc.enterSubblock then do
          let (id, next) ← readSubBlockID coded
          .ok (.subBlock id, next)
        else if code = Bitc.defineAbbrev ∧ dontAutoprocessAbbrevs = false then do
          let next ← readAbbrevRecord coded
          advanceLoop dontPopBlockAtEnd dontAutoprocessAbbrevs fuel next
        else .ok (.record code, coded)

def advance (dontPopBlockAtEnd dontAutoprocessAbbrevs : Bool) (cursor : BitstreamCursor) :
    Except BitstreamError (Entry × BitstreamCursor) :=
  advanceLoop dontPopBlockAtEnd dontAutoprocessAbbrevs (cursor.stream.bitsLeft + 1) cursor

def advanceSkippingLoop (dontPopBlockAtEnd dontAutoprocessAbbrevs : Bool) :
    Nat → BitstreamCursor → Except BitstreamError (Entry × BitstreamCursor)
  | 0, _ => .error .outOfTurns
  | fuel + 1, cursor => do
      let (entry, next) ← advance dontPopBlockAtEnd dontAutoprocessAbbrevs cursor
      match entry with
      | .subBlock _ => do
          let skipped ← skipBlock next
          advanceSkippingLoop dontPopBlockAtEnd dontAutoprocessAbbrevs fuel skipped
      | _ => .ok (entry, next)

def advanceSkippingSubblocks (dontPopBlockAtEnd dontAutoprocessAbbrevs : Bool)
    (cursor : BitstreamCursor) : Except BitstreamError (Entry × BitstreamCursor) :=
  advanceSkippingLoop dontPopBlockAtEnd dontAutoprocessAbbrevs (cursor.stream.bitsLeft + 1) cursor

/-! ### Records -/

/-- The content of a record. Without a place for it, a blob goes to the values. -/
structure Record where
  code : Nat
  vals : List Nat
  blob : Option (List UInt8)
  deriving DecidableEq, Repr

def readAbbreviatedField (op : BitCodeAbbrevOp) (stream : SimpleBitstreamCursor) :
    Except BitstreamError (Nat × SimpleBitstreamCursor) :=
  match op with
  | .fixed width => stream.read width
  | .vbr width => stream.readVBR64 width
  | .char6 => do
      let (bits, next) ← stream.read 6
      .ok (BitCodeAbbrevOp.decodeChar6 bits, next)
  | .literal _ | .array | .blob => .error .assertionFailed

def readAbbreviatedFields (op : BitCodeAbbrevOp) : Nat → SimpleBitstreamCursor →
    Except BitstreamError (List Nat × SimpleBitstreamCursor)
  | 0, stream => .ok ([], stream)
  | count + 1, stream => do
      let (val, next) ← readAbbreviatedField op stream
      let (vals, done) ← readAbbreviatedFields op count next
      .ok (val :: vals, done)

def readArrayElements (eltEnc : BitCodeAbbrevOp) (numElts : Nat) (stream : SimpleBitstreamCursor) :
    Except BitstreamError (List Nat × SimpleBitstreamCursor) :=
  match eltEnc with
  | .literal _ => .error .arrayElementNotEncoding
  | .array | .blob => .error .arrayElementArrayOrBlob
  | _ => readAbbreviatedFields eltEnc numElts stream

/-- The bytes of a blob, or none if they would go beyond the end. The length of
the blob in bits is an unsigned number of 32 bits. -/
def readBlob (stream : SimpleBitstreamCursor) :
    Except BitstreamError (Nat × Option (List UInt8) × SimpleBitstreamCursor) := do
  let (numElts, sized) ← stream.readVBR 6
  let aligned := sized.skipToFourByteBoundary
  let curBitPos := aligned.getCurrentBitNo
  let newEnd := curBitPos + (numElts + 3) % 2 ^ 32 / 4 * 4 * 8 % 2 ^ 32
  if aligned.canSkipToPos (newEnd / 8) then do
    let next ← aligned.jumpToBit newEnd
    .ok (numElts, some ((aligned.bitcodeBytes.drop (curBitPos / 8)).take numElts), next)
  else .ok (numElts, none, aligned.skipToEnd)

def addBlob (wantsBlob : Bool) (bytes : List UInt8) (record : Record) : Record :=
  if wantsBlob then { record with blob := some bytes }
  else { record with vals := record.vals ++ bytes.map UInt8.toNat }

def readOperands (wantsBlob : Bool) : List BitCodeAbbrevOp → Record → SimpleBitstreamCursor →
    Except BitstreamError (Record × SimpleBitstreamCursor)
  | [], record, stream => .ok (record, stream)
  | .literal value :: ops, record, stream =>
      readOperands wantsBlob ops { record with vals := record.vals ++ [value] } stream
  | .array :: ops, record, stream => do
      let (numElts, sized) ← stream.readVBR 6
      match ops with
      | [eltEnc] => do
          let (vals, done) ← readArrayElements eltEnc numElts sized
          .ok ({ record with vals := record.vals ++ vals }, done)
      | _ => .error .arrayNotSecondToLast
  | .blob :: ops, record, stream => do
      let (numElts, bytes, next) ← readBlob stream
      match bytes with
      | none => .ok ({ record with vals := record.vals ++ List.replicate numElts 0 }, next)
      | some bytes => readOperands wantsBlob ops (addBlob wantsBlob bytes record) next
  | op :: ops, record, stream => do
      let (val, next) ← readAbbreviatedField op stream
      readOperands wantsBlob ops { record with vals := record.vals ++ [val] } next

def readRecordCode (op : BitCodeAbbrevOp) (stream : SimpleBitstreamCursor) :
    Except BitstreamError (Nat × SimpleBitstreamCursor) :=
  match op with
  | .literal value => .ok (value % 2 ^ 32, stream)
  | .array | .blob => .error .abbrevStartsWithArrayOrBlob
  | _ => do
      let (code, next) ← readAbbreviatedField op stream
      .ok (code % 2 ^ 32, next)

def readUnabbreviated (stream : SimpleBitstreamCursor) :
    Except BitstreamError (Record × SimpleBitstreamCursor) := do
  let (code, coded) ← stream.readVBR 6
  let (numElts, counted) ← coded.readVBR 6
  let (vals, done) ← readAbbreviatedFields (.vbr 6) numElts counted
  .ok (⟨code, vals, none⟩, done)

def readAbbreviated (wantsBlob : Bool) (abbv : BitCodeAbbrev) (stream : SimpleBitstreamCursor) :
    Except BitstreamError (Record × SimpleBitstreamCursor) :=
  match abbv with
  | [] => .error .assertionFailed
  | op :: ops => do
      let (code, coded) ← readRecordCode op stream
      readOperands wantsBlob ops ⟨code, [], none⟩ coded

def getAbbrev (abbrevID : Nat) (cursor : BitstreamCursor) : Except BitstreamError BitCodeAbbrev :=
  if abbrevID < Bitc.firstApplicationAbbrev then .error .invalidAbbrevNumber
  else match cursor.curAbbrevs[abbrevID - Bitc.firstApplicationAbbrev]? with
    | none => .error .invalidAbbrevNumber
    | some abbv => .ok abbv

def readRecord (abbrevID : Nat) (wantsBlob : Bool) (cursor : BitstreamCursor) :
    Except BitstreamError (Record × BitstreamCursor) :=
  if abbrevID = Bitc.unabbrevRecord then onStream readUnabbreviated cursor
  else do
    let abbv ← getAbbrev abbrevID cursor
    onStream (readAbbreviated wantsBlob abbv) cursor

/-- The records of the block info read so far, and the place of the one the
definitions are for. -/
structure BlockInfoState where
  records : List BlockInfo
  current : Option Nat
  deriving DecidableEq, Repr

/-- There is no result where the source gives none. Names are not read. -/
def readBlockInfoLoop : Nat → BlockInfoState → BitstreamCursor →
    Except BitstreamError (Option (List BlockInfo) × BitstreamCursor)
  | 0, _, _ => .error .outOfTurns
  | fuel + 1, state, cursor => do
      let (entry, next) ← advanceSkippingSubblocks false true cursor
      match entry with
      | .subBlock _ | .error => .ok (none, next)
      | .endBlock => .ok (some state.records, next)
      | .record id =>
          if id = Bitc.defineAbbrev then
            match state.current with
            | none => .ok (none, next)
            | some place => do
                let (abbv, stream) ← readAbbrev next.stream
                readBlockInfoLoop fuel
                  { state with records := BlockInfo.addAbbrev place abbv state.records }
                  { next with stream := stream }
          else do
            let (record, done) ← readRecord id false next
            if record.code = Bitc.blockInfoCodeSetBID then
              match record.vals with
              | [] => .ok (none, done)
              | blockID :: _ =>
                  let (records, place) :=
                    BlockInfo.getOrCreateBlockInfo (blockID % 2 ^ 32) state.records
                  readBlockInfoLoop fuel ⟨records, some place⟩ done
            else if record.code = Bitc.blockInfoCodeBlockName ∨
                record.code = Bitc.blockInfoCodeSetRecordName then
              match state.current with
              | none => .ok (none, done)
              | some _ => readBlockInfoLoop fuel state done
            else readBlockInfoLoop fuel state done

def readBlockInfoBlock (cursor : BitstreamCursor) :
    Except BitstreamError (Option (List BlockInfo) × BitstreamCursor) := do
  let (_, entered) ← enterSubBlock Bitc.blockInfoBlockID cursor
  readBlockInfoLoop (entered.stream.bitsLeft + 1) ⟨[], none⟩ entered

end BitstreamCursor

end EvmBackend
