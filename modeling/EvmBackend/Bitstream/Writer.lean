/-
The bitstream writer. Bits collect in a word of 32 that goes to the output when
it is full; a block's length is written over a word left for it once the block
ends.

Assertions are checked: an operation that fails one has no result. Numbers are
below the bounds of their types in the source, and lists have fewer than 2^32
elements, as the counters over them are unsigned.
-/

import EvmBackend.Bitstream
import EvmBackend.Library.BitLists
import EvmBackend.Library.Runs

namespace EvmBackend

open BitLists

namespace BitstreamWriter

structure Block where
  prevCodeSize : Nat
  startSizeWord : Nat
  prevAbbrevs : List BitCodeAbbrev
  deriving DecidableEq, Repr

end BitstreamWriter

structure BitstreamWriter where
  out : List UInt8
  curBit : Nat
  curValue : Nat
  curCodeSize : Nat
  blockInfoCurBID : Nat
  curAbbrevs : List BitCodeAbbrev
  blockScope : List BitstreamWriter.Block
  blockInfoRecords : List BlockInfo
  deriving DecidableEq, Repr

namespace BitstreamWriter

def create : BitstreamWriter := ⟨[], 0, 0, 2, 0, [], [], []⟩

def isClosed (writer : BitstreamWriter) : Bool :=
  writer.curBit == 0 && writer.blockScope.isEmpty && writer.curAbbrevs.isEmpty

def writeWord (value : Nat) (writer : BitstreamWriter) : BitstreamWriter :=
  { writer with out := writer.out ++ littleEndian 4 value }

def getWordIndex (writer : BitstreamWriter) : Option Nat :=
  if writer.out.length % 4 = 0 then some (writer.out.length / 4) else none

def backpatchWord (bitNo newWord : Nat) (writer : BitstreamWriter) : Option BitstreamWriter :=
  let byteNo := bitNo / 8 % 2 ^ 32
  if ofLittleEndian ((writer.out.drop byteNo).take 4) = 0 then
    some { writer with
      out := writer.out.take byteNo ++ littleEndian 4 newWord ++ writer.out.drop (byteNo + 4) }
  else none

def emit (val numBits : Nat) (writer : BitstreamWriter) : Option BitstreamWriter :=
  if numBits ≠ 0 ∧ numBits ≤ 32 ∧ val < 2 ^ numBits then
    let curValue := writer.curValue ||| (val <<< writer.curBit) % 2 ^ 32
    if writer.curBit + numBits < 32 then
      some { writer with curValue := curValue, curBit := writer.curBit + numBits }
    else
      some { writeWord curValue writer with
        curValue := if writer.curBit ≠ 0 then val >>> (32 - writer.curBit) else 0
        curBit := (writer.curBit + numBits) % 32 }
  else none

def flushToWord (writer : BitstreamWriter) : BitstreamWriter :=
  if writer.curBit ≠ 0 then { writeWord writer.curValue writer with curBit := 0, curValue := 0 }
  else writer

/-- The chunks of a number, each but the last with its highest bit set. A chunk
of one bit holds none of the number, so the loop does not come to an end. -/
def emitVBRLoop (numBits : Nat) : Nat → Nat → BitstreamWriter → Option BitstreamWriter
  | 0, _, _ => none
  | fuel + 1, val, writer =>
      if 2 ^ (numBits - 1) ≤ val then do
        let next ← emit (val % 2 ^ (numBits - 1) + 2 ^ (numBits - 1)) numBits writer
        emitVBRLoop numBits fuel (val / 2 ^ (numBits - 1)) next
      else emit val numBits writer

def emitVBR (val numBits : Nat) (writer : BitstreamWriter) : Option BitstreamWriter :=
  if numBits ≤ 32 then emitVBRLoop numBits 64 val writer else none

def emitVBR64 (val numBits : Nat) (writer : BitstreamWriter) : Option BitstreamWriter :=
  if val % 2 ^ 32 = val then emitVBR val numBits writer
  else if numBits ≤ 32 then emitVBRLoop numBits 64 val writer else none

def emitCode (val : Nat) (writer : BitstreamWriter) : Option BitstreamWriter :=
  emit val writer.curCodeSize writer

def enterSubblock (blockID codeLen : Nat) (writer : BitstreamWriter) : Option BitstreamWriter := do
  let coded ← emitCode Bitc.enterSubblock writer
  let numbered ← emitVBR blockID Bitc.blockIDWidth coded
  let sized ← emitVBR codeLen Bitc.codeLenWidth numbered
  let flushed := flushToWord sized
  let blockSizeWordIndex ← getWordIndex flushed
  let entered ← emit 0 Bitc.blockSizeWidth flushed
  let inherited := (BlockInfo.getBlockInfo blockID entered.blockInfoRecords).elim [] BlockInfo.abbrevs
  some { entered with
    curCodeSize := codeLen
    blockScope := ⟨entered.curCodeSize, blockSizeWordIndex, entered.curAbbrevs⟩ :: entered.blockScope
    curAbbrevs := inherited }

def exitBlock (writer : BitstreamWriter) : Option BitstreamWriter :=
  match writer.blockScope with
  | [] => none
  | block :: outer => do
      let ended ← emitCode Bitc.endBlock writer
      let flushed := flushToWord ended
      let wordIndex ← getWordIndex flushed
      let sizeInWords := wordIndex - block.startSizeWord - 1
      let patched ← backpatchWord (block.startSizeWord * 32) (sizeInWords % 2 ^ 32) flushed
      some { patched with
        curCodeSize := block.prevCodeSize
        curAbbrevs := block.prevAbbrevs
        blockScope := outer }

/-! ### Records -/

def emitAbbreviatedField (op : BitCodeAbbrevOp) (val : Nat) (writer : BitstreamWriter) :
    Option BitstreamWriter :=
  match op with
  | .fixed width => if width ≠ 0 then emit (val % 2 ^ 32) width writer else some writer
  | .vbr width => if width ≠ 0 then emitVBR64 val width writer else some writer
  | .char6 => do
      let bits ← BitCodeAbbrevOp.encodeChar6 (val % 2 ^ 8)
      emit bits 6 writer
  | .literal _ | .array | .blob => none

def emitAbbreviatedFields (op : BitCodeAbbrevOp) :
    List Nat → BitstreamWriter → Option BitstreamWriter
  | [], writer => some writer
  | val :: vals, writer => do
      let next ← emitAbbreviatedField op val writer
      emitAbbreviatedFields op vals next

def padding (length : Nat) : List UInt8 := List.replicate ((4 - length % 4) % 4) 0

def emitBlob (bytes : List UInt8) (writer : BitstreamWriter) : Option BitstreamWriter := do
  let sized ← emitVBR (bytes.length % 2 ^ 32) 6 writer
  let flushed := flushToWord sized
  let written := flushed.out ++ bytes
  some { flushed with out := written ++ padding written.length }

def bytesOfVals (vals : List Nat) : Option (List UInt8) :=
  if vals.all (· < 256) then some (vals.map UInt8.ofNat) else none

/-- The operands of an abbreviation, with the values from the current one on and
the blob if it is still to be written. Values taken for a blob are not passed. -/
def emitOperands : List BitCodeAbbrevOp → List Nat → Option (List UInt8) → BitstreamWriter →
    Option (BitstreamWriter × List Nat × Option (List UInt8))
  | [], vals, blob, writer => some (writer, vals, blob)
  | .literal value :: ops, vals, blob, writer =>
      match vals with
      | [] => none
      | val :: rest => if val = value then emitOperands ops rest blob writer else none
  | .array :: ops, vals, blob, writer =>
      match ops with
      | [eltEnc] =>
          match blob with
          | some bytes =>
              if vals = [] then do
                let sized ← emitVBR (bytes.length % 2 ^ 32) 6 writer
                let next ← emitAbbreviatedFields eltEnc (bytes.map UInt8.toNat) sized
                some (next, vals, none)
              else none
          | none => do
              let sized ← emitVBR (vals.length % 2 ^ 32) 6 writer
              let next ← emitAbbreviatedFields eltEnc vals sized
              some (next, [], none)
      | _ => none
  | .blob :: ops, vals, blob, writer =>
      match blob with
      | some bytes =>
          if vals = [] then do
            let next ← emitBlob bytes writer
            emitOperands ops vals none next
          else none
      | none => do
          let bytes ← bytesOfVals vals
          let next ← emitBlob bytes writer
          emitOperands ops vals none next
  | op :: ops, vals, blob, writer =>
      match vals with
      | [] => none
      | val :: rest => do
          let next ← emitAbbreviatedField op val writer
          emitOperands ops rest blob next

def emitRecordCode (op : BitCodeAbbrevOp) (code : Nat) (writer : BitstreamWriter) :
    Option BitstreamWriter :=
  match op with
  | .literal value => if code = value then some writer else none
  | _ => emitAbbreviatedField op code writer

def emitRecordWithAbbrevImpl (abbrevID : Nat) (vals : List Nat) (blob : Option (List UInt8))
    (code : Option Nat) (writer : BitstreamWriter) : Option BitstreamWriter := do
  let abbv ← if abbrevID < Bitc.firstApplicationAbbrev then none
    else writer.curAbbrevs[abbrevID - Bitc.firstApplicationAbbrev]?
  let coded ← emitCode abbrevID writer
  let (started, ops) ← match code with
    | none => some (coded, abbv)
    | some code => match abbv with
        | [] => none
        | op :: ops => (emitRecordCode op code coded).map (·, ops)
  let (done, rest, left) ← emitOperands ops vals blob started
  if rest = [] ∧ left = none then some done else none

def emitVBRs : List Nat → BitstreamWriter → Option BitstreamWriter
  | [], writer => some writer
  | val :: vals, writer => do
      let next ← emitVBR64 val 6 writer
      emitVBRs vals next

def emitRecord (code : Nat) (vals : List Nat) (abbrevID : Nat) (writer : BitstreamWriter) :
    Option BitstreamWriter :=
  if abbrevID = 0 then do
    let started ← emitCode Bitc.unabbrevRecord writer
    let coded ← emitVBR code 6 started
    let counted ← emitVBR (vals.length % 2 ^ 32) 6 coded
    emitVBRs vals counted
  else emitRecordWithAbbrevImpl abbrevID vals none (some code) writer

def emitRecordWithBlob (abbrevID : Nat) (vals : List Nat) (blob : List UInt8)
    (writer : BitstreamWriter) : Option BitstreamWriter :=
  emitRecordWithAbbrevImpl abbrevID vals (some blob) none writer

def emitRecordWithArray (abbrevID : Nat) (vals : List Nat) (array : List UInt8)
    (writer : BitstreamWriter) : Option BitstreamWriter :=
  emitRecordWithAbbrevImpl abbrevID vals (some array) none writer

def encodeOperand (op : BitCodeAbbrevOp) (writer : BitstreamWriter) : Option BitstreamWriter := do
  let kind ← emit (if op.isLiteral then 1 else 0) 1 writer
  match op with
  | .literal value => emitVBR64 value 8 kind
  | .fixed width | .vbr width => do
      let encoded ← emit op.getEncoding 3 kind
      emitVBR64 width 5 encoded
  | .array | .char6 | .blob => emit op.getEncoding 3 kind

def encodeOperands : List BitCodeAbbrevOp → BitstreamWriter → Option BitstreamWriter
  | [], writer => some writer
  | op :: ops, writer => do
      let next ← encodeOperand op writer
      encodeOperands ops next

def encodeAbbrev (abbv : BitCodeAbbrev) (writer : BitstreamWriter) : Option BitstreamWriter := do
  let started ← emitCode Bitc.defineAbbrev writer
  let counted ← emitVBR (abbv.length % 2 ^ 32) 5 started
  encodeOperands abbv counted

def emitAbbrev (abbv : BitCodeAbbrev) (writer : BitstreamWriter) : Option BitstreamWriter := do
  let encoded ← encodeAbbrev abbv writer
  some { encoded with curAbbrevs := encoded.curAbbrevs ++ [abbv] }

def enterBlockInfoBlock (writer : BitstreamWriter) : Option BitstreamWriter := do
  let entered ← enterSubblock Bitc.blockInfoBlockID 2 writer
  some { entered with blockInfoCurBID := 2 ^ 32 - 1, blockInfoRecords := [] }

def switchToBlockID (blockID : Nat) (writer : BitstreamWriter) : Option BitstreamWriter :=
  if writer.blockInfoCurBID = blockID then some writer
  else do
    let set ← emitRecord Bitc.blockInfoCodeSetBID [blockID] 0 writer
    some { set with blockInfoCurBID := blockID }

def emitBlockInfoAbbrev (blockID : Nat) (abbv : BitCodeAbbrev) (writer : BitstreamWriter) :
    Option BitstreamWriter := do
  let switched ← switchToBlockID blockID writer
  let encoded ← encodeAbbrev abbv switched
  let (records, place) := BlockInfo.getOrCreateBlockInfo blockID encoded.blockInfoRecords
  some { encoded with blockInfoRecords := BlockInfo.addAbbrev place abbv records }

inductive Operation
  | enterSubblock (blockID codeLen : Nat)
  | exitBlock
  | emitAbbrev (abbv : BitCodeAbbrev)
  | enterBlockInfoBlock
  | emitBlockInfoAbbrev (blockID : Nat) (abbv : BitCodeAbbrev)
  | emitRecord (code : Nat) (vals : List Nat) (abbrevID : Nat)
  | emitRecordWithBlob (abbrevID : Nat) (vals : List Nat) (blob : List UInt8)
  | emitRecordWithArray (abbrevID : Nat) (vals : List Nat) (array : List UInt8)
  deriving DecidableEq, Repr

def apply : Operation → BitstreamWriter → Option BitstreamWriter
  | .enterSubblock blockID codeLen => enterSubblock blockID codeLen
  | .exitBlock => exitBlock
  | .emitAbbrev abbv => emitAbbrev abbv
  | .enterBlockInfoBlock => enterBlockInfoBlock
  | .emitBlockInfoAbbrev blockID abbv => emitBlockInfoAbbrev blockID abbv
  | .emitRecord code vals abbrevID => emitRecord code vals abbrevID
  | .emitRecordWithBlob abbrevID vals blob => emitRecordWithBlob abbrevID vals blob
  | .emitRecordWithArray abbrevID vals array => emitRecordWithArray abbrevID vals array

end BitstreamWriter

end EvmBackend
