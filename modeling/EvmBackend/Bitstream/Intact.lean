/-
Records that come back as they were given. A field of fixed width is passed at most 32
bits of a value, and a character is passed as a byte; any other value is kept whole.
-/

import EvmBackend.Bitstream.RoundTrip

namespace EvmBackend

def BitCodeAbbrevOp.Keeps : BitCodeAbbrevOp → Nat → Prop
  | fixed _, val => val < 2 ^ 32
  | char6, val => val < 2 ^ 8
  | _, _ => True

namespace Bitstream

open BitCodeAbbrevOp BitstreamCursor List

variable {op : BitCodeAbbrevOp} {val : Nat}

theorem kept_of_keeps (keeps : op.Keeps val) : op.kept val = val := by
  cases op with
  | fixed | char6 => exact Nat.mod_eq_of_lt keeps
  | literal | vbr | array | blob => rfl

theorem kept_byte (op : BitCodeAbbrevOp) (byte : UInt8) : op.kept byte.toNat = byte.toNat := by
  have limit := byte.toNat_lt
  cases op with
  | fixed | char6 => exact Nat.mod_eq_of_lt (by omega)
  | literal | vbr | array | blob => rfl

/-- There are as many values as the operands take, which the writer asserts, and each is
kept by its operand. -/
def IntactOperands : List BitCodeAbbrevOp → List Nat → Option (List UInt8) → Prop
  | [], vals, bytes => vals = [] ∧ bytes = none
  | [.array, eltEnc], vals, bytes =>
      eltEnc.Field ∧ (bytes ≠ none → vals = []) ∧ ∀ val ∈ vals, eltEnc.Keeps val
  | [.blob], vals, _ => vals = []
  | op :: ops, val :: vals, bytes => op.Keeps val ∧ IntactOperands ops vals bytes
  | _ :: _, [], _ => False

/-- What the values and the bytes are to come back as: the bytes are the blob of an
abbreviation with one, and so many values more with any other abbreviation. -/
def givenOperands (ops : List BitCodeAbbrevOp) (vals : List Nat) (bytes : Option (List UInt8)) :
    List Nat × Option (List UInt8) :=
  if ops.getLast? = some .blob then (vals, some (bytes.getD []))
  else (vals ++ (bytes.getD []).map UInt8.toNat, none)

theorem keptOperands_intact {ops : List BitCodeAbbrevOp} {vals : List Nat} {bytes : Option (List UInt8)}
    (intact : IntactOperands ops vals bytes) : keptOperands ops vals bytes = givenOperands ops vals bytes := by
  fun_induction IntactOperands ops vals bytes with
  | case1 vals bytes =>
      obtain ⟨rfl, rfl⟩ := intact
      rfl
  | case2 eltEnc vals bytes =>
      obtain ⟨field, alone, keeps⟩ := intact
      have noBlob : [BitCodeAbbrevOp.array, eltEnc].getLast? ≠ some .blob := by
        intro last
        cases last
        exact field
      rw [givenOperands, if_neg noBlob]
      cases bytes with
      | none =>
          have kept : vals.map eltEnc.kept = vals := (map_congr_left fun val member =>
            kept_of_keeps (keeps val member)).trans (map_id vals)
          exact Prod.ext (kept.trans (append_nil vals).symm) rfl
      | some bytes =>
          rw [alone (Option.some_ne_none bytes)]
          have kept : (bytes.map UInt8.toNat).map eltEnc.kept = bytes.map UInt8.toNat := by
            rw [map_map]
            exact map_congr_left fun byte _ => kept_byte eltEnc byte
          exact Prod.ext kept rfl
  | case3 vals bytes =>
      cases intact
      rfl
  | case4 op ops val vals bytes noArray noBlob ih =>
      obtain ⟨keeps, intact⟩ := intact
      have last : (op :: ops).getLast? = some .blob ↔ ops.getLast? = some .blob := by
        cases ops with
        | nil => exact ⟨fun blob => (noBlob (Option.some.inj blob) rfl).elim, fun none => by cases none⟩
        | cons next rest => rw [getLast?_cons_cons]
      rw [keptOperands, ih intact, kept_of_keeps keeps]
      · simp only [givenOperands, last]
        split
        · rfl
        · rfl
      · exact noArray
      · exact noBlob
  | case5 => exact intact.elim

namespace Scope

/-- The first of the values is the code of the record. -/
def given (abbrevID : Nat) (all : List Nat) (bytes : Option (List UInt8)) (scope : Scope) : Record :=
  match scope.abbrevs[abbrevID - Bitc.firstApplicationAbbrev]?, all with
  | some (_ :: ops), code :: vals => ⟨code, (givenOperands ops vals bytes).1, (givenOperands ops vals bytes).2⟩
  | _, _ => ⟨0, [], none⟩

def Intact (abbrevID : Nat) (all : List Nat) (bytes : Option (List UInt8)) (scope : Scope) : Prop :=
  match scope.abbrevs[abbrevID - Bitc.firstApplicationAbbrev]?, all with
  | some (op :: ops), code :: vals => op.Keeps code ∧ code < 2 ^ 32 ∧ IntactOperands ops vals bytes
  | _, _ => False

theorem recordWith_intact {abbrevID : Nat} {code : Option Nat} {vals : List Nat} {bytes : Option (List UInt8)}
    {scope : Scope} (intact : scope.Intact abbrevID (code.toList ++ vals) bytes) :
    scope.recordWith abbrevID code vals bytes = scope.given abbrevID (code.toList ++ vals) bytes := by
  unfold Intact at intact
  unfold recordWith given
  split at intact
  · rename_i op ops value rest found all
    obtain ⟨keeps, small, operands⟩ := intact
    have kept : op.kept value % 2 ^ 32 = value := by rw [kept_of_keeps keeps, Nat.mod_eq_of_lt small]
    have same : (⟨op.kept value % 2 ^ 32, (keptOperands ops rest bytes).1,
        (keptOperands ops rest bytes).2⟩ : Record) =
        ⟨value, (givenOperands ops rest bytes).1, (givenOperands ops rest bytes).2⟩ := by
      rw [kept, keptOperands_intact operands]
    rw [found]
    cases code with
    | none | some =>
        cases all
        exact same
  · exact intact.elim

end Scope

mutual

/-- What the item is to be read as. -/
def Item.sent (scope : Scope) : Item → Option Content
  | .block blockID _ items => some (.block blockID (sentOf ⟨scope.inherited blockID, scope.infos⟩ items))
  | .blockInfo _ => some .blockInfo
  | .define _ => none
  | .record code vals abbrevID =>
      some (.record (if abbrevID = 0 then ⟨code, vals, none⟩ else scope.given abbrevID (code :: vals) none))
  | .recordWithBlob abbrevID vals bytes | .recordWithArray abbrevID vals bytes =>
      some (.record (scope.given abbrevID vals (some bytes)))

def sentOf (scope : Scope) : List Item → List Content
  | [] => []
  | item :: items => (item.sent scope).toList ++ sentOf (item.content scope).2 items

end

mutual

def Item.Intact (scope : Scope) : Item → Prop
  | .block blockID _ items => IntactIn ⟨scope.inherited blockID, scope.infos⟩ items
  | .blockInfo _ | .define _ => True
  | .record code vals abbrevID => abbrevID = 0 ∨ scope.Intact abbrevID (code :: vals) none
  | .recordWithBlob abbrevID vals bytes | .recordWithArray abbrevID vals bytes =>
      scope.Intact abbrevID vals (some bytes)

def IntactIn (scope : Scope) : List Item → Prop
  | [] => True
  | item :: items => item.Intact scope ∧ IntactIn (item.content scope).2 items

end

mutual

theorem content_intact {scope : Scope} : ∀ {item : Item}, item.Intact scope →
    (item.content scope).1 = item.sent scope
  | .block blockID _ _, intact => congrArg (fun contents => some (Content.block blockID contents))
      (contentsOf_intact intact)
  | .blockInfo _, _ | .define _, _ => rfl
  | .record code vals abbrevID, intact => by
      rw [Item.content, Item.sent]
      split
      · rfl
      · rename_i abbreviated
        have same : scope.recordWith abbrevID (some code) vals none = scope.given abbrevID (code :: vals) none :=
          Scope.recordWith_intact (intact.resolve_left abbreviated)
        exact congrArg (fun record => some (Content.record record)) same
  | .recordWithBlob abbrevID vals bytes, intact | .recordWithArray abbrevID vals bytes, intact => by
      have same : scope.recordWith abbrevID none vals (some bytes) = scope.given abbrevID vals (some bytes) :=
        Scope.recordWith_intact intact
      exact congrArg (fun record => some (Content.record record)) same

theorem contentsOf_intact {scope : Scope} : ∀ {items : List Item}, IntactIn scope items →
    (contentsOf scope items).1 = sentOf scope items
  | [], _ => rfl
  | item :: items, intact => by
      rw [contentsOf, sentOf, ← content_intact intact.1, ← contentsOf_intact intact.2]

end

variable {items : List Item} {writer : BitstreamWriter}

/-- Records come back as they were given, in the same blocks and the same order. -/
theorem given_read_back (proper : ProperItems items) (readable : ReadableIn ⟨[], []⟩ items)
    (intact : IntactIn ⟨[], []⟩ items)
    (ran : Runs.run BitstreamWriter.apply (operationsOf items) BitstreamWriter.create = some writer)
    (closed : writer.isClosed = true) (short : writer.out.length < 2 ^ 32) :
    ∃ events, (∀ fuel, events.length < fuel → readEvents fuel (BitstreamCursor.create writer.out) = some events) ∧
      Shows (sentOf ⟨[], []⟩ items) events := by
  obtain ⟨events, places, finish, reads, atEnd, shows_, _⟩ := stream_told proper readable ran closed short
  rw [contentsOf_intact intact] at shows_
  exact ⟨events, reads.readEvents atEnd, shows_⟩

theorem given_read_back_sample :
    ∃ events, (∀ fuel, events.length < fuel → readEvents fuel (BitstreamCursor.create sampleWriter.out) =
      some events) ∧ Shows (sentOf ⟨[], []⟩ sample) events := by
  have intact : IntactIn ⟨[], []⟩ sample := by
    have characters : ∀ val ∈ [97, 98, 46], val < 2 ^ 8 := by decide
    exact ⟨trivial, ⟨.inr ⟨(by decide : 2 < 2 ^ 32), by decide, trivial, nofun, characters⟩,
      ⟨⟨trivial, by decide, trivial, rfl⟩,
        .inr ⟨trivial, by decide, (by decide : 200 < 2 ^ 32), rfl, rfl⟩, trivial⟩,
      trivial, .inr ⟨trivial, by decide, ⟨by decide, by decide⟩, nofun, fun _ _ => trivial⟩, trivial⟩, trivial⟩
  exact given_read_back sample_proper sample_readable intact (by decide +kernel) (by decide +kernel)
    (by decide +kernel)

/-- A block with a record of one value, in a field of 32 bits. -/
def wideValue (val : Nat) : List Item := [.block 8 4 [.define [.literal 1, .fixed 32], .record 1 [val] 4]]

theorem shows_record {blockID : Nat} {record : Record} {events : List Event}
    (shown : Shows [.block blockID [.record record]] events) : Event.record record ∈ events := by
  cases shown with
  | block _ inner _ =>
      cases inner with
      | record _ => exact mem_cons_of_mem _ mem_cons_self

/-- The cast to 32 bits makes 0 of the value before the writer asserts that it fits. -/
theorem wideValue_not_read_back : ∃ writer,
    Runs.run BitstreamWriter.apply (operationsOf (wideValue (2 ^ 32))) BitstreamWriter.create = some writer ∧
      writer.isClosed = true ∧ writer.out.length < 2 ^ 32 ∧ ProperItems (wideValue (2 ^ 32)) ∧
      ReadableIn ⟨[], []⟩ (wideValue (2 ^ 32)) ∧
      ∃ events, readEvents 9 (BitstreamCursor.create writer.out) = some events ∧
        ¬ Shows (sentOf ⟨[], []⟩ (wideValue (2 ^ 32))) events := by
  refine ⟨{ BitstreamWriter.create with out := [33, 16, 0, 0, 3, 0, 0, 0, 34, 6, 8, 20, 4, 0, 0, 0, 0, 0, 0, 0] },
    by decide +kernel, rfl, by decide, ?_, ⟨⟨trivial, trivial, trivial⟩, trivial⟩,
    [.enterBlock 8 3 64, .record ⟨1, [0], none⟩, .exitBlock 160], by decide +kernel, fun shown => ?_⟩
  · simp only [wideValue, ProperItems, Item.Proper]
    decide +kernel
  · have read : Event.record ⟨1, [2 ^ 32], none⟩ ∈ _ := shows_record shown
    simp at read

end Bitstream

end EvmBackend
