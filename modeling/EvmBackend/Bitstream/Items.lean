/-
Bitstreams as their writers and readers see them: the items a client writes, in
blocks within blocks, and the entries another client reads.

A reading client goes on from entry to entry; it enters the blocks it comes to,
reads the block info block as such and uses what it says from then on. It keeps
the positions where the contents of a block start and end beside the number of
words the header of the block gives.
-/

import EvmBackend.Bitstream.Writer
import EvmBackend.Bitstream.Reader

namespace EvmBackend.Bitstream

open BitstreamWriter (Operation)
open BitstreamCursor (Entry)

/-- What a client writes. Within a block info block there are the definitions for
the blocks of a number only. -/
inductive Item
  | block (blockID codeLen : Nat) (items : List Item)
  | blockInfo (definitions : List (Nat × BitCodeAbbrev))
  | define (abbv : BitCodeAbbrev)
  | record (code : Nat) (vals : List Nat) (abbrevID : Nat)
  | recordWithBlob (abbrevID : Nat) (vals : List Nat) (blob : List UInt8)
  | recordWithArray (abbrevID : Nat) (vals : List Nat) (array : List UInt8)

mutual

def Item.operations : Item → List Operation
  | .block blockID codeLen items =>
      .enterSubblock blockID codeLen :: (operationsOf items ++ [.exitBlock])
  | .blockInfo definitions =>
      .enterBlockInfoBlock :: (definitions.map (fun (blockID, abbv) =>
        Operation.emitBlockInfoAbbrev blockID abbv) ++ [.exitBlock])
  | .define abbv => [.emitAbbrev abbv]
  | .record code vals abbrevID => [.emitRecord code vals abbrevID]
  | .recordWithBlob abbrevID vals blob => [.emitRecordWithBlob abbrevID vals blob]
  | .recordWithArray abbrevID vals array => [.emitRecordWithArray abbrevID vals array]

def operationsOf : List Item → List Operation
  | [] => []
  | item :: items => item.operations ++ operationsOf items

end

inductive Event
  | enterBlock (blockID numWords start : Nat)
  | record (record : BitstreamCursor.Record)
  | exitBlock (finish : Nat)
  | blockInfo (numWords start finish : Nat)
  deriving DecidableEq, Repr

def eventOf (entry : Entry) (next : BitstreamCursor) : Option (Event × BitstreamCursor) :=
  match entry with
  | .error => none
  | .endBlock => some (.exitBlock next.stream.getCurrentBitNo, next)
  | .record abbrevID =>
      match next.readRecord abbrevID true with
      | .error _ => none
      | .ok (record, done) => some (.record record, done)
  | .subBlock blockID =>
      match next.enterSubBlock blockID with
      | .error _ => none
      | .ok (numWords, entered) =>
          if blockID = Bitc.blockInfoBlockID then
            match next.readBlockInfoBlock with
            | .ok (some records, done) =>
                some (.blockInfo numWords entered.stream.getCurrentBitNo done.stream.getCurrentBitNo,
                  done.setBlockInfo records)
            | _ => none
          else some (.enterBlock blockID numWords entered.stream.getCurrentBitNo, entered)

def nextEvent (cursor : BitstreamCursor) : Option (Event × BitstreamCursor) :=
  match cursor.advance false false with
  | .error _ => none
  | .ok (entry, next) => eventOf entry next

def readEvents : Nat → BitstreamCursor → Option (List Event)
  | 0, _ => none
  | fuel + 1, cursor =>
      if cursor.stream.atEndOfStream then some []
      else do
        let (event, next) ← nextEvent cursor
        let events ← readEvents fuel next
        some (event :: events)

end EvmBackend.Bitstream
