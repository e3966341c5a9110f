/-
What the items of a stream say, apart from any bits: the records with the
abbreviations in scope applied to them, in blocks within blocks.

A field keeps as many bits of a value as its writer passes on. An abbreviation
is well formed where the format documentation asks for it: an array comes last
but for the encoding of its elements, a blob comes last, and the first operand is
neither.
-/

import EvmBackend.Bitstream.Items

namespace EvmBackend

namespace BitCodeAbbrevOp

/-- An encoding that takes one value, in a width that writer and reader share. -/
def Field : BitCodeAbbrevOp → Prop
  | fixed width => 1 ≤ width ∧ width ≤ 32
  | vbr width => 2 ≤ width ∧ width ≤ 32
  | char6 => True
  | literal _ | array | blob => False

def Single : BitCodeAbbrevOp → Prop
  | literal value => value < 2 ^ 64
  | op => op.Field

@[elab_as_elim]
theorem Field.cases {motive : BitCodeAbbrevOp → Prop} {op : BitCodeAbbrevOp} (field : op.Field)
    (fixed : ∀ width, motive (fixed width)) (vbr : ∀ width, motive (vbr width)) (char6 : motive char6) :
      motive op := by
  cases op with
  | fixed width => exact fixed width
  | vbr width => exact vbr width
  | char6 => exact char6
  | literal | array | blob => exact field.elim

instance : DecidablePred Field
  | fixed _ | vbr _ => inferInstanceAs (Decidable (_ ∧ _))
  | char6 => isTrue trivial
  | literal _ | array | blob => isFalse id

instance : DecidablePred Single
  | literal _ => Nat.decLt _ _
  | fixed width => inferInstanceAs (Decidable (fixed width).Field)
  | vbr width => inferInstanceAs (Decidable (vbr width).Field)
  | char6 => isTrue trivial
  | array | blob => isFalse id

def kept : BitCodeAbbrevOp → Nat → Nat
  | fixed _, val => val % 2 ^ 32
  | char6, val => val % 2 ^ 8
  | _, val => val

end BitCodeAbbrevOp

namespace Bitstream

def WellFormedOperands : List BitCodeAbbrevOp → Prop
  | [] => True
  | [.array, eltEnc] => eltEnc.Field
  | [.blob] => True
  | op :: ops => op.Single ∧ WellFormedOperands ops

def WellFormed : BitCodeAbbrev → Prop
  | [] => False
  | op :: ops => op.Single ∧ WellFormedOperands ops

instance decidableWellFormedOperands : DecidablePred WellFormedOperands
  | [] => isTrue trivial
  | [.array, eltEnc] => inferInstanceAs (Decidable eltEnc.Field)
  | [.blob] => isTrue trivial
  | .literal value :: ops =>
      haveI := decidableWellFormedOperands ops
      inferInstanceAs (Decidable ((BitCodeAbbrevOp.literal value).Single ∧ WellFormedOperands ops))
  | .fixed width :: ops =>
      haveI := decidableWellFormedOperands ops
      inferInstanceAs (Decidable ((BitCodeAbbrevOp.fixed width).Single ∧ WellFormedOperands ops))
  | .vbr width :: ops =>
      haveI := decidableWellFormedOperands ops
      inferInstanceAs (Decidable ((BitCodeAbbrevOp.vbr width).Single ∧ WellFormedOperands ops))
  | .char6 :: ops =>
      haveI := decidableWellFormedOperands ops
      inferInstanceAs (Decidable (BitCodeAbbrevOp.char6.Single ∧ WellFormedOperands ops))
  | [.array] | .array :: _ :: _ :: _ | .blob :: _ :: _ => isFalse And.left

instance : DecidablePred WellFormed
  | [] => isFalse id
  | op :: ops => inferInstanceAs (Decidable (op.Single ∧ WellFormedOperands ops))

def keptOperands : List BitCodeAbbrevOp → List Nat → Option (List UInt8) →
    List Nat × Option (List UInt8)
  | [.array, eltEnc], vals, bytes =>
      ((bytes.elim vals (·.map UInt8.toNat)).map eltEnc.kept, none)
  | [.blob], vals, bytes => ([], some (bytes.getD (vals.map UInt8.ofNat)))
  | op :: ops, val :: vals, bytes =>
      (op.kept val :: (keptOperands ops vals bytes).1, (keptOperands ops vals bytes).2)
  | _, _, _ => ([], none)

/-- The record that an abbreviation keeps. Without a code of its own the record has
it as its first value. -/
def keptRecord (abbv : BitCodeAbbrev) (code : Option Nat) (vals : List Nat) (bytes : Option (List UInt8)) :
    BitstreamCursor.Record :=
  match abbv, code, vals with
  | op :: ops, some code, vals =>
      ⟨op.kept code % 2 ^ 32, (keptOperands ops vals bytes).1, (keptOperands ops vals bytes).2⟩
  | op :: ops, none, val :: vals =>
      ⟨op.kept val % 2 ^ 32, (keptOperands ops vals bytes).1, (keptOperands ops vals bytes).2⟩
  | _, _, _ => ⟨0, [], none⟩

structure Scope where
  abbrevs : List BitCodeAbbrev
  infos : List BlockInfo
  deriving DecidableEq, Repr

inductive Content
  | block (blockID : Nat) (contents : List Content)
  | blockInfo
  | record (record : BitstreamCursor.Record)

namespace Scope

def inherited (blockID : Nat) (scope : Scope) : List BitCodeAbbrev :=
  (BlockInfo.getBlockInfo blockID scope.infos).elim [] BlockInfo.abbrevs

def addInfo (infos : List BlockInfo) (definition : Nat × BitCodeAbbrev) : List BlockInfo :=
  let (created, place) := BlockInfo.getOrCreateBlockInfo definition.1 infos
  BlockInfo.addAbbrev place definition.2 created

def recordWith (abbrevID : Nat) (code : Option Nat) (vals : List Nat) (bytes : Option (List UInt8))
    (scope : Scope) : BitstreamCursor.Record :=
  keptRecord ((scope.abbrevs[abbrevID - Bitc.firstApplicationAbbrev]?).getD []) code vals bytes

end Scope

mutual

def Item.content (scope : Scope) : Item → Option Content × Scope
  | .block blockID _ items =>
      let (contents, inner) := contentsOf ⟨scope.inherited blockID, scope.infos⟩ items
      (some (.block blockID contents), { scope with infos := inner.infos })
  | .blockInfo definitions => (some .blockInfo, { scope with infos := definitions.foldl Scope.addInfo [] })
  | .define abbv => (none, { scope with abbrevs := scope.abbrevs ++ [abbv] })
  | .record code vals abbrevID =>
      (some (.record (if abbrevID = 0 then ⟨code, vals, none⟩
        else scope.recordWith abbrevID (some code) vals none)), scope)
  | .recordWithBlob abbrevID vals blob =>
      (some (.record (scope.recordWith abbrevID none vals (some blob))), scope)
  | .recordWithArray abbrevID vals array =>
      (some (.record (scope.recordWith abbrevID none vals (some array))), scope)

def contentsOf (scope : Scope) : List Item → List Content × Scope
  | [] => ([], scope)
  | item :: items =>
      let (content, next) := item.content scope
      let (contents, last) := contentsOf next items
      (content.toList ++ contents, last)

end

/-- The events show the contents, and the header of each block its length. -/
inductive Shows : List Content → List Event → Prop
  | nil : Shows [] []
  | record {record : BitstreamCursor.Record} {contents : List Content} {events : List Event}
      (rest : Shows contents events) : Shows (.record record :: contents) (.record record :: events)
  | blockInfo {numWords start finish : Nat} {contents : List Content} {events : List Event}
      (sized : finish = start + 32 * numWords) (rest : Shows contents events) :
      Shows (.blockInfo :: contents) (.blockInfo numWords start finish :: events)
  | block {blockID numWords start finish : Nat} {inner contents : List Content} {within events : List Event}
      (sized : finish = start + 32 * numWords) (shown : Shows inner within) (rest : Shows contents events) :
      Shows (.block blockID inner :: contents)
        (.enterBlock blockID numWords start :: (within ++ .exitBlock finish :: events))

/-- The numbers of an item are below the bounds of their types, and its abbreviations
are well formed. -/
def ProperVals (vals : List Nat) : Prop := vals.length < 2 ^ 32 ∧ ∀ val ∈ vals, val < 2 ^ 64

def ProperBytes (bytes : List UInt8) : Prop := bytes.length < 2 ^ 32

def ProperAbbrev (abbv : BitCodeAbbrev) : Prop := abbv.length < 2 ^ 32 ∧ WellFormed abbv

instance (vals : List Nat) : Decidable (ProperVals vals) := inferInstanceAs (Decidable (_ ∧ _))

instance (bytes : List UInt8) : Decidable (ProperBytes bytes) := Nat.decLt _ _

instance (abbv : BitCodeAbbrev) : Decidable (ProperAbbrev abbv) :=
  inferInstanceAs (Decidable (_ ∧ WellFormed abbv))

mutual

def Item.Proper : Item → Prop
  | .block blockID codeLen items => blockID ≠ Bitc.blockInfoBlockID ∧ blockID < 2 ^ 32 ∧
    codeLen < 2 ^ 32 ∧ ProperItems items
  | .blockInfo definitions => ∀ definition ∈ definitions, definition.1 < 2 ^ 32 ∧ ProperAbbrev definition.2
  | .define abbv => ProperAbbrev abbv
  | .record code vals abbrevID => code < 2 ^ 32 ∧ ProperVals vals ∧ abbrevID < 2 ^ 32
  | .recordWithBlob abbrevID vals blob => ProperVals vals ∧ abbrevID < 2 ^ 32 ∧ ProperBytes blob
  | .recordWithArray abbrevID vals array => ProperVals vals ∧ abbrevID < 2 ^ 32 ∧ ProperBytes array

def ProperItems : List Item → Prop
  | [] => True
  | item :: items => item.Proper ∧ ProperItems items

end

def ShortBlob (record : BitstreamCursor.Record) : Prop := ∀ blob ∈ record.blob, blob.length + 3 < 2 ^ 29

instance (record : BitstreamCursor.Record) : Decidable (ShortBlob record) :=
  inferInstanceAs (Decidable (∀ blob ∈ record.blob, _))

mutual

/-- What is read gets where the item ends: its blob is short, and the first definition of a
block info block is not for the number that stands for no block. -/
def Item.Readable (scope : Scope) : Item → Prop
  | .block blockID _ items => ReadableIn ⟨scope.inherited blockID, scope.infos⟩ items
  | .blockInfo definitions => ∀ definition ∈ definitions.head?, definition.1 ≠ 2 ^ 32 - 1
  | .define _ | .record _ _ _ => True
  | .recordWithBlob abbrevID vals bytes | .recordWithArray abbrevID vals bytes =>
      ShortBlob (scope.recordWith abbrevID none vals (some bytes))

def ReadableIn (scope : Scope) : List Item → Prop
  | [] => True
  | item :: items => item.Readable scope ∧ ReadableIn (item.content scope).2 items

end

end Bitstream

end EvmBackend
