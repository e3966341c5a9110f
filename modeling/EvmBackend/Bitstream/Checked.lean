/-
The reader again, with everything in the open that the source leaves to its
callers and to the bytes: the amounts it shifts by, the bytes it touches, its
assertions, and the cursor it leaves behind when it gives an error.

What C++ does not define ends a program with a fault, and so does an assertion
that does not hold. An abort of the source is an ending of its own. The steps
where a length, a width or an end of the data matters are noted, each with the
stream it finds.
-/

import EvmBackend.Bitstream.Reader
import EvmBackend.Library.CheckedPrograms

namespace EvmBackend.CheckedReader

open BitLists CheckedPrograms CheckedPrograms.Program BitstreamCursor

inductive Fault
  | shiftTooFar (amount width : Nat)
  | bytesOutside (start count : Nat)
  | assertionFailed
  | operandMissing
  | valueMissing
  | errorAsValue
  | outOfTurns
  deriving DecidableEq, Repr

inductive Step
  | read (numBits : Nat) (stream : SimpleBitstreamCursor)
  | readVBR (width numBits : Nat) (stream : SimpleBitstreamCursor)
  | readCode (codeSize : Nat)
  | skipLength (stream : SimpleBitstreamCursor)
  | skipArray (elements : List BitCodeAbbrevOp)
  | skipFixed (numElts width : Nat) (stream : SimpleBitstreamCursor)
  | skipChar6 (numElts : Nat) (stream : SimpleBitstreamCursor)
  | blob (numElts : Nat) (stream : SimpleBitstreamCursor)
  | skipBlock (numFourBytes : Nat) (stream : SimpleBitstreamCursor)
  | recordName (vals : List Nat)
  deriving DecidableEq, Repr

abbrev Reader : Type → Type := Program BitstreamCursor BitstreamError BitstreamError Fault Step

def assert (condition : Prop) [Decidable condition] : Reader Unit := require condition .assertionFailed

def shift (amount width : Nat) : Reader Unit := require (amount < width) (.shiftTooFar amount width)

def setStream (stream : SimpleBitstreamCursor) : Reader Unit :=
  change fun cursor => { cursor with stream := stream }

def touch (start count : Nat) : Reader Unit := do
  let cursor ← current
  require (start + count ≤ cursor.stream.bitcodeBytes.length) (.bytesOutside start count)

def fillCurWord : Reader Unit := do
  let cursor ← current
  let size := cursor.stream.bitcodeBytes.length
  let nextChar := cursor.stream.nextChar
  if size ≤ nextChar then throw (.unexpectedEndOfBytes nextChar size)
  else do
    let bytesRead := if nextChar + 8 ≤ size then 8 else size - nextChar
    touch nextChar bytesRead
    -- The last byte of a short read is shifted the furthest.
    shift ((bytesRead - 1) * 8) 64
    setStream { cursor.stream with
      curWord := ofLittleEndian ((cursor.stream.bitcodeBytes.drop nextChar).take bytesRead)
      nextChar := nextChar + bytesRead
      bitsInCurWord := bytesRead * 8 }

def read (numBits : Nat) : Reader Nat := do
  note fun cursor => .read numBits cursor.stream
  assert (numBits ≠ 0 ∧ numBits ≤ 64)
  let cursor ← current
  let stream := cursor.stream
  if numBits ≤ stream.bitsInCurWord then do
    shift (64 - numBits) 64
    shift (numBits % 64) 64
    setStream { stream with
      curWord := stream.curWord >>> (numBits % 64)
      bitsInCurWord := stream.bitsInCurWord - numBits }
    pure (stream.curWord % 2 ^ numBits)
  else do
    let low := if stream.bitsInCurWord ≠ 0 then stream.curWord else 0
    let bitsLeft := numBits - stream.bitsInCurWord
    fillCurWord
    let cursor ← current
    let filled := cursor.stream
    if filled.bitsInCurWord < bitsLeft then throw (.unexpectedEndOfBits filled.bitsInCurWord bitsLeft)
    else do
      shift (64 - bitsLeft) 64
      shift (bitsLeft % 64) 64
      shift (numBits - bitsLeft) 64
      setStream { filled with
        curWord := filled.curWord >>> (bitsLeft % 64)
        bitsInCurWord := filled.bitsInCurWord - bitsLeft }
      pure (low ||| ((filled.curWord % 2 ^ bitsLeft) <<< (numBits - bitsLeft)) % 2 ^ 64)

/-- The chunks of a number are 32 bits wide at most: a wider one is cut off, and
its highest bit is found by a shift of a number of 32 bits. -/
def readVBRLoop (width numBits : Nat) : Nat → Nat → Nat → Nat → Reader Nat
  | 0, _, _, _ => fault .outOfTurns
  | fuel + 1, result, nextBit, piece => do
      shift (numBits - 1) 32
      shift nextBit width
      let next := result ||| ((piece % 2 ^ (numBits - 1)) <<< nextBit) % 2 ^ width
      if piece / 2 ^ (numBits - 1) % 2 = 0 then pure next
      else do
        let word ← read numBits
        readVBRLoop width numBits fuel next (nextBit + (numBits - 1)) (word % 2 ^ 32)

def readVBRWith (width numBits : Nat) : Reader Nat := do
  note fun cursor => .readVBR width numBits cursor.stream
  let word ← read numBits
  let piece := word % 2 ^ 32
  shift (numBits - 1) 32
  if piece / 2 ^ (numBits - 1) % 2 = 0 then pure piece
  else do
    let cursor ← current
    readVBRLoop width numBits (cursor.stream.bitsLeft + 1) 0 0 piece

def readVBR (numBits : Nat) : Reader Nat := readVBRWith 32 numBits

def readVBR64 (numBits : Nat) : Reader Nat := readVBRWith 64 numBits

def skipToFourByteBoundary : Reader Unit := do
  let cursor ← current
  if 32 ≤ cursor.stream.bitsInCurWord then do
    shift (cursor.stream.bitsInCurWord - 32) 64
    setStream cursor.stream.skipToFourByteBoundary
  else setStream cursor.stream.skipToFourByteBoundary

def skipToEnd : Reader Unit := do
  let cursor ← current
  setStream cursor.stream.skipToEnd

def jumpToBit (bitNo : Nat) : Reader Unit := do
  let cursor ← current
  let byteNo := bitNo / 8 / 8 * 8
  let wordBitNo := bitNo % 64
  assert (cursor.stream.canSkipToPos byteNo = true)
  setStream { cursor.stream with nextChar := byteNo, bitsInCurWord := 0 }
  if wordBitNo ≠ 0 then do
    let _ ← read wordBitNo
    pure ()
  else pure ()

/-! ### Blocks -/

def readCode : Reader Nat := do
  note fun cursor => .readCode cursor.curCodeSize
  let cursor ← current
  let code ← read cursor.curCodeSize
  pure (code % 2 ^ 32)

def readSubBlockID : Reader Nat := readVBR Bitc.blockIDWidth

/-- The scope is entered before the header of the block is read, and stays so if
the header is not good. -/
def enterSubBlock (blockID : Nat) : Reader Nat := do
  change fun cursor => { cursor with
    curAbbrevs := (cursor.blockInfo.bind (BlockInfo.getBlockInfo blockID)).elim [] BlockInfo.abbrevs
    blockScope := ⟨cursor.curCodeSize, cursor.curAbbrevs⟩ :: cursor.blockScope }
  let codeSize ← readVBR Bitc.codeLenWidth
  change fun cursor => { cursor with curCodeSize := codeSize }
  if maxChunkSize < codeSize then throw (.codeSizeTooLarge codeSize)
  else do
    skipToFourByteBoundary
    let numWords ← read Bitc.blockSizeWidth
    if codeSize = 0 then throw .codeSizeZero
    else do
      let cursor ← current
      if cursor.stream.atEndOfStream then throw .enterAtEndOfStream
      else pure numWords

def readBlockEnd : Reader Bool := do
  let cursor ← current
  match cursor.blockScope with
  | [] => pure true
  | block :: outer => do
      skipToFourByteBoundary
      change fun cursor => { cursor with
        curCodeSize := block.prevCodeSize
        curAbbrevs := block.prevAbbrevs
        blockScope := outer }
      pure false

def skipBlock : Reader Unit := do
  let _ ← readVBR Bitc.codeLenWidth
  skipToFourByteBoundary
  let numFourBytes ← read Bitc.blockSizeWidth
  note fun cursor => .skipBlock numFourBytes cursor.stream
  let cursor ← current
  let skipTo := cursor.stream.getCurrentBitNo + numFourBytes * 4 * 8
  if cursor.stream.atEndOfStream then throw .skipAtEndOfStream
  else if cursor.stream.canSkipToPos (skipTo / 8) then jumpToBit skipTo
  else throw (.skipTooFar skipTo cursor.stream.getCurrentBitNo)

def readOperand : Reader BitCodeAbbrevOp := do
  let isLiteral ← read 1
  if isLiteral ≠ 0 then do
    let value ← readVBR64 8
    pure (.literal value)
  else do
    let encoding ← read 3
    if encoding = 1 ∨ encoding = 2 then do
      let data ← readVBR64 5
      if data = 0 then pure (.literal 0)
      else if maxChunkSize < data then abort .abbrevSizeTooLarge
      else pure (if encoding = 1 then .fixed data else .vbr data)
    else if encoding = 3 then pure .array
    else if encoding = 4 then pure .char6
    else if encoding = 5 then pure .blob
    else abort .invalidEncoding

def readOperandInfos : Nat → Reader BitCodeAbbrev
  | 0 => pure []
  | count + 1 => do
      let op ← readOperand
      let ops ← readOperandInfos count
      pure (op :: ops)

def readAbbrev : Reader BitCodeAbbrev := do
  let numOpInfo ← readVBR 5
  let abbv ← readOperandInfos numOpInfo
  if abbv = [] then abort .abbrevWithoutOperands else pure abbv

def readAbbrevRecord : Reader Unit := do
  let abbv ← readAbbrev
  change fun cursor => { cursor with curAbbrevs := cursor.curAbbrevs ++ [abbv] }

def advanceLoop (dontPopBlockAtEnd dontAutoprocessAbbrevs : Bool) : Nat → Reader Entry
  | 0 => fault .outOfTurns
  | fuel + 1 => do
      let cursor ← current
      if cursor.stream.atEndOfStream then pure .error
      else do
        let code ← readCode
        if code = Bitc.endBlock then
          if dontPopBlockAtEnd then pure .endBlock
          else do
            let failed ← readBlockEnd
            pure (if failed then .error else .endBlock)
        else if code = Bitc.enterSubblock then do
          let id ← readSubBlockID
          pure (.subBlock id)
        else if code = Bitc.defineAbbrev ∧ dontAutoprocessAbbrevs = false then do
          readAbbrevRecord
          advanceLoop dontPopBlockAtEnd dontAutoprocessAbbrevs fuel
        else pure (.record code)

def advance (dontPopBlockAtEnd dontAutoprocessAbbrevs : Bool) : Reader Entry := do
  let cursor ← current
  advanceLoop dontPopBlockAtEnd dontAutoprocessAbbrevs (cursor.stream.bitsLeft + 1)

def advanceSkippingLoop (dontPopBlockAtEnd dontAutoprocessAbbrevs : Bool) : Nat → Reader Entry
  | 0 => fault .outOfTurns
  | fuel + 1 => do
      let entry ← advance dontPopBlockAtEnd dontAutoprocessAbbrevs
      match entry with
      | .subBlock _ => do
          skipBlock
          advanceSkippingLoop dontPopBlockAtEnd dontAutoprocessAbbrevs fuel
      | _ => pure entry

def advanceSkippingSubblocks (dontPopBlockAtEnd dontAutoprocessAbbrevs : Bool) : Reader Entry := do
  let cursor ← current
  advanceSkippingLoop dontPopBlockAtEnd dontAutoprocessAbbrevs (cursor.stream.bitsLeft + 1)

/-! ### Records -/

/-- The content of a record. A blob is a range of the array: its start and its
length. -/
structure Record where
  code : Nat
  vals : List Nat
  blob : Option (Nat × Nat)
  deriving DecidableEq, Repr

def getAbbrev (abbrevID : Nat) : Reader BitCodeAbbrev := do
  let cursor ← current
  if abbrevID < Bitc.firstApplicationAbbrev then abort .invalidAbbrevNumber
  else match cursor.curAbbrevs[abbrevID - Bitc.firstApplicationAbbrev]? with
    | none => abort .invalidAbbrevNumber
    | some abbv => pure abbv

def readAbbreviatedField (op : BitCodeAbbrevOp) : Reader Nat :=
  match op with
  | .fixed width => read width
  | .vbr width => readVBR64 width
  | .char6 => do
      let bits ← read 6
      assert (bits < 64)
      pure (BitCodeAbbrevOp.decodeChar6 bits)
  | .literal _ | .array | .blob => fault .assertionFailed

def readAbbreviatedFields (op : BitCodeAbbrevOp) : Nat → Reader (List Nat)
  | 0 => pure []
  | count + 1 => do
      let val ← readAbbreviatedField op
      let vals ← readAbbreviatedFields op count
      pure (val :: vals)

def readArrayElements (eltEnc : BitCodeAbbrevOp) (numElts : Nat) : Reader (List Nat) :=
  match eltEnc with
  | .literal _ => abort .arrayElementNotEncoding
  | .array | .blob => abort .arrayElementArrayOrBlob
  | _ => readAbbreviatedFields eltEnc numElts

/-- The end of a blob with its padding; its length in bits is an unsigned number
of 32 bits. -/
def blobEnd (curBitPos numElts : Nat) : Nat := curBitPos + (numElts + 3) % 2 ^ 32 / 4 * 4 * 8 % 2 ^ 32

/-- The length of a blob, and its start unless it would go beyond the end. -/
def readBlob : Reader (Nat × Option Nat) := do
  let numElts ← readVBR 6
  skipToFourByteBoundary
  note fun cursor => .blob numElts cursor.stream
  let cursor ← current
  let curBitPos := cursor.stream.getCurrentBitNo
  let newEnd := blobEnd curBitPos numElts
  if cursor.stream.canSkipToPos (newEnd / 8) then do
    jumpToBit newEnd
    assert (curBitPos % 8 = 0)
    pure (numElts, some (curBitPos / 8))
  else do
    skipToEnd
    pure (numElts, none)

/-- The blob is handed out as it lies in the array, or its bytes are copied. -/
def addBlob (wantsBlob : Bool) (start numElts : Nat) (record : Record) : Reader Record :=
  if wantsBlob then pure { record with blob := some (start, numElts) }
  else do
    touch start numElts
    let cursor ← current
    let bytes := (cursor.stream.bitcodeBytes.drop start).take numElts
    pure { record with vals := record.vals ++ bytes.map UInt8.toNat }

def readOperands (wantsBlob : Bool) : List BitCodeAbbrevOp → Record → Reader Record
  | [], record => pure record
  | .literal value :: ops, record =>
      readOperands wantsBlob ops { record with vals := record.vals ++ [value] }
  | .array :: ops, record => do
      let numElts ← readVBR 6
      match ops with
      | [eltEnc] => do
          let vals ← readArrayElements eltEnc numElts
          pure { record with vals := record.vals ++ vals }
      | _ => abort .arrayNotSecondToLast
  | .blob :: ops, record => do
      let (numElts, start) ← readBlob
      match start with
      | none => pure { record with vals := record.vals ++ List.replicate numElts 0 }
      | some start => do
          let record ← addBlob wantsBlob start numElts record
          readOperands wantsBlob ops record
  | op :: ops, record => do
      let val ← readAbbreviatedField op
      readOperands wantsBlob ops { record with vals := record.vals ++ [val] }

def readRecordCode (op : BitCodeAbbrevOp) : Reader Nat :=
  match op with
  | .literal value => pure (value % 2 ^ 32)
  | .array | .blob => abort .abbrevStartsWithArrayOrBlob
  | _ => do
      let code ← readAbbreviatedField op
      pure (code % 2 ^ 32)

def readRecord (abbrevID : Nat) (wantsBlob : Bool) : Reader Record :=
  if abbrevID = Bitc.unabbrevRecord then do
    let code ← readVBR 6
    let numElts ← readVBR 6
    let vals ← readAbbreviatedFields (.vbr 6) numElts
    pure ⟨code, vals, none⟩
  else do
    let abbv ← getAbbrev abbrevID
    match abbv with
    | [] => fault .assertionFailed
    | op :: ops => do
        let code ← readRecordCode op
        readOperands wantsBlob ops ⟨code, [], none⟩

def skipVBRs (width : Nat) : Nat → Reader Unit
  | 0 => pure ()
  | count + 1 => do
      let _ ← readVBR64 width
      skipVBRs width count

/-- The numbers of bits of the elements are added up, those of characters in 32
bits. -/
def skipElements (numElts : Nat) (eltEnc : BitCodeAbbrevOp) : Reader Unit :=
  match eltEnc with
  | .literal _ => fault .assertionFailed
  | .array | .blob => abort .arrayElementArrayOrBlob
  | .fixed width => do
      note fun cursor => .skipFixed numElts width cursor.stream
      let cursor ← current
      jumpToBit (cursor.stream.getCurrentBitNo + numElts * width)
  | .vbr width => skipVBRs width numElts
  | .char6 => do
      note fun cursor => .skipChar6 numElts cursor.stream
      let cursor ← current
      jumpToBit (cursor.stream.getCurrentBitNo + numElts * 6 % 2 ^ 32)

def skipBlob : Reader Bool := do
  let numElts ← readVBR 6
  skipToFourByteBoundary
  note fun cursor => .blob numElts cursor.stream
  let cursor ← current
  let newEnd := blobEnd cursor.stream.getCurrentBitNo numElts
  if cursor.stream.canSkipToPos (newEnd / 8) then do
    jumpToBit newEnd
    pure true
  else do
    skipToEnd
    pure false

/-- Where an array stands in its abbreviation is only asserted here. -/
def skipOperands : List BitCodeAbbrevOp → Reader Unit
  | [] => pure ()
  | .literal _ :: ops => skipOperands ops
  | .array :: ops => do
      let numElts ← readVBR 6
      note fun _ => .skipArray ops
      match ops with
      | [eltEnc] => skipElements numElts eltEnc
      | _ => fault .assertionFailed
  | .blob :: ops => do
      let within ← skipBlob
      if within then skipOperands ops else pure ()
  | op :: ops => do
      let _ ← readAbbreviatedField op
      skipOperands ops

def skipRecordCode (op : BitCodeAbbrevOp) : Reader Nat :=
  match op with
  | .literal value => pure (value % 2 ^ 32)
  | .array | .blob => throw .abbrevStartsWithArrayOrBlob
  | _ => do
      let code ← readAbbreviatedField op
      pure (code % 2 ^ 32)

/-- The length of a record without an abbreviation is taken as it comes, an error
or not. -/
def skipRecord (abbrevID : Nat) : Reader Nat :=
  if abbrevID = Bitc.unabbrevRecord then do
    let code ← readVBR 6
    note fun cursor => .skipLength cursor.stream
    let numElts ← valueOrFault .errorAsValue (readVBR 6)
    skipVBRs 6 numElts
    pure code
  else do
    let abbv ← getAbbrev abbrevID
    match abbv with
    | [] => fault .operandMissing
    | op :: ops => do
        let code ← skipRecordCode op
        skipOperands ops
        pure code

structure NamedBlockInfo extends BlockInfo where
  name : List Nat
  recordNames : List (Nat × List Nat)
  deriving DecidableEq, Repr

structure BlockInfoState where
  records : List NamedBlockInfo
  current : Option Nat
  deriving DecidableEq, Repr

namespace BlockInfoState

def setBlockID (blockID : Nat) (state : BlockInfoState) : BlockInfoState :=
  match BlockInfo.find blockID (state.records.map NamedBlockInfo.toBlockInfo) with
  | some place => { state with current := some place }
  | none => ⟨state.records ++ [⟨⟨blockID, []⟩, [], []⟩], some state.records.length⟩

def update (place : Nat) (updated : NamedBlockInfo → NamedBlockInfo) (state : BlockInfoState) :
    BlockInfoState :=
  { state with records := state.records.modify place updated }

end BlockInfoState

def nameOf (vals : List Nat) : List Nat := vals.map (· % 2 ^ 8)

def readBlockInfoLoop (readBlockInfoNames : Bool) : Nat → BlockInfoState →
    Reader (Option (List NamedBlockInfo))
  | 0, _ => fault .outOfTurns
  | fuel + 1, state => do
      let entry ← advanceSkippingSubblocks false true
      match entry with
      | .subBlock _ | .error => pure none
      | .endBlock => pure (some state.records)
      | .record id =>
          if id = Bitc.defineAbbrev then
            match state.current with
            | none => pure none
            | some place => do
                let abbv ← readAbbrev
                readBlockInfoLoop readBlockInfoNames fuel
                  (state.update place fun info => { info with abbrevs := info.abbrevs ++ [abbv] })
          else do
            let record ← readRecord id false
            if record.code = Bitc.blockInfoCodeSetBID then
              match record.vals with
              | [] => pure none
              | blockID :: _ =>
                  readBlockInfoLoop readBlockInfoNames fuel (state.setBlockID (blockID % 2 ^ 32))
            else if record.code = Bitc.blockInfoCodeBlockName then
              match state.current with
              | none => pure none
              | some place =>
                  if readBlockInfoNames then
                    readBlockInfoLoop readBlockInfoNames fuel
                      (state.update place fun info => { info with name := nameOf record.vals })
                  else readBlockInfoLoop readBlockInfoNames fuel state
            else if record.code = Bitc.blockInfoCodeSetRecordName then
              match state.current with
              | none => pure none
              | some place =>
                  if readBlockInfoNames then do
                    note fun _ => .recordName record.vals
                    match record.vals with
                    | [] => fault .valueMissing
                    | recordID :: name =>
                        readBlockInfoLoop readBlockInfoNames fuel
                          (state.update place fun info => { info with
                            recordNames := info.recordNames ++ [(recordID % 2 ^ 32, nameOf name)] })
                  else readBlockInfoLoop readBlockInfoNames fuel state
            else readBlockInfoLoop readBlockInfoNames fuel state

def readBlockInfoBlock (readBlockInfoNames : Bool) : Reader (Option (List NamedBlockInfo)) := do
  let _ ← enterSubBlock Bitc.blockInfoBlockID
  let cursor ← current
  readBlockInfoLoop readBlockInfoNames (cursor.stream.bitsLeft + 1) ⟨[], none⟩

end EvmBackend.CheckedReader
