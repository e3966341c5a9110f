/-
Records carried over from the writer to the reader: fields, arrays, blobs, and the
operands of an abbreviation one after the other.
-/

import EvmBackend.Bitstream.Bits
import EvmBackend.Bitstream.Contents

namespace EvmBackend.Bitstream

open BitLists BitstreamCursor BitCodeAbbrevOp List Option

variable {writer next last : BitstreamWriter} {op eltEnc : BitCodeAbbrevOp}

theorem Carries.map {Result Other : Type} {value : Result}
    {reads : Reading Result}
    (carries : Carries reads value writer next) (made : Result → Other) :
    Carries (Bitstream.andThen reads fun value cursor => .ok (made value, cursor)) (made value) writer next :=
  carries.andThen (carries_pure carries.good (made value))

theorem carries_field {val : Nat} (field : op.Field) (small : val < 2 ^ 64) (good : Good writer)
    (emitted : writer.emitAbbreviatedField op val = some next) :
    Carries (readAbbreviatedField op) (op.kept val) writer next := by
  cases op with
  | fixed width =>
      have positive : width ≠ 0 := Nat.ne_of_gt field.1
      rw [BitstreamWriter.emitAbbreviatedField, if_pos positive] at emitted
      exact carries_emit good emitted
  | vbr width =>
      have wide : 2 ≤ width := field.1
      rw [BitstreamWriter.emitAbbreviatedField, if_pos (by omega)] at emitted
      exact carries_emitVBR64 wide small good emitted
  | char6 =>
      obtain ⟨bits, encoded, sent⟩ := bind_eq_some_iff.mp emitted
      have read := (carries_emit good sent).map decodeChar6
      rw [(decodeChar6_encodeChar6 encoded).2] at read
      exact read.congr fun cursor => rfl
  | literal | array | blob => exact field.elim

theorem carries_fields (field : op.Field) : ∀ {vals : List Nat} {writer next : BitstreamWriter},
    (∀ val ∈ vals, val < 2 ^ 64) → Good writer → writer.emitAbbreviatedFields op vals = some next →
      Carries (readAbbreviatedFields op vals.length) (vals.map op.kept) writer next
  | [], writer, next, _, good, emitted => by
      cases emitted
      exact carries_pure good _
  | val :: vals, writer, next, small, good, emitted => by
      obtain ⟨middle, first, rest⟩ := bind_eq_some_iff.mp emitted
      have head := carries_field field (small val mem_cons_self) good first
      have tail := carries_fields field (fun val member => small val (mem_cons_of_mem _ member))
        head.good rest
      have joined : Carries (andThen (readAbbreviatedField op) fun val cursor =>
          andThen (readAbbreviatedFields op vals.length) (fun vals cursor => .ok (val :: vals, cursor)) cursor)
          (op.kept val :: vals.map op.kept) writer next :=
        head.andThen (tail.map (op.kept val :: ·))
      exact joined.congr fun cursor => rfl

theorem readArrayElements_of_field (field : eltEnc.Field) (count : Nat) (stream : SimpleBitstreamCursor) :
    readArrayElements eltEnc count stream = readAbbreviatedFields eltEnc count stream :=
  field.cases (fun _ => rfl) (fun _ => rfl) rfl

/-! ### Blobs -/

theorem carries_flush (good : Good writer) :
    Carries (fun cursor => .ok ((), cursor.skipToFourByteBoundary)) () writer writer.flushToWord := by
  obtain ⟨goodNext, same, _, grown⟩ := flushToWord_written good
  refine ⟨goodNext, same, _, grown, ?_⟩
  intro cursor front back length here
  refine ⟨_, rfl, ?_⟩
  have boundary : nextWord (written writer).length = (written writer).length +
      (List.replicate ((32 - (written writer).length % 32) % 32) false).length := by
    rw [length_replicate, nextWord]
    omega
  rw [← boundary]
  exact skip_at here

theorem length_padding (length : Nat) : (BitstreamWriter.padding length).length = (4 - length % 4) % 4 :=
  length_replicate

theorem blob_decodes {place : Nat} {bytes : List UInt8} (aligned : place % 32 = 0)
    (small : bytes.length + 3 < 2 ^ 29) {length : Nat}
    (whole : length % 4 = 0) {cursor : SimpleBitstreamCursor} {front back : List Bool}
    (at_ : front.length = place)
    (here : At cursor
    (front ++ (bytesBits (bytes ++ BitstreamWriter.padding (length + bytes.length)) ++ back)) place) :
    ∃ done, cursor.jumpToBit (place + (bytes.length + 3) % 2 ^ 32 / 4 * 4 * 8 % 2 ^ 32) = .ok done ∧
      cursor.canSkipToPos ((place + (bytes.length + 3) % 2 ^ 32 / 4 * 4 * 8 % 2 ^ 32) / 8) = true ∧
      (cursor.bitcodeBytes.drop (place / 8)).take bytes.length = bytes ∧
      At done (front ++ (bytesBits (bytes ++ BitstreamWriter.padding (length + bytes.length)) ++ back))
        (place + (bytesBits (bytes ++ BitstreamWriter.padding (length + bytes.length))).length) := by
  have total : (bytesBits (bytes ++ BitstreamWriter.padding (length + bytes.length))).length =
      (bytes.length + 3) % 2 ^ 32 / 4 * 4 * 8 % 2 ^ 32 := by
    rw [length_bytesBits, length_append, length_padding]
    omega
  have sized := here.length
  rw [length_append, length_append, at_, total] at sized
  rw [total]
  obtain ⟨done, jumped, there⟩ := jump_at here
    (show place + (bytes.length + 3) % 2 ^ 32 / 4 * 4 * 8 % 2 ^ 32 ≤ _ by
      rw [length_append, length_append, at_, total]
      omega)
  refine ⟨done, jumped, ?_, ?_, there⟩
  · rw [SimpleBitstreamCursor.canSkipToPos, decide_eq_true_iff]
    omega
  · apply bytesBits_injective
    rw [bytesBits_take, bytesBits_drop, here.contents, Nat.mul_div_cancel' (by omega), ← at_, drop_left,
      bytesBits_append, List.append_assoc, ← length_bytesBits, take_left]

def takeBlob (numElts : Nat) (aligned : SimpleBitstreamCursor) :
    Except BitstreamError ((Nat × Option (List UInt8)) × SimpleBitstreamCursor) :=
  let curBitPos := aligned.getCurrentBitNo
  let newEnd := curBitPos + (numElts + 3) % 2 ^ 32 / 4 * 4 * 8 % 2 ^ 32
  if aligned.canSkipToPos (newEnd / 8) then do
    let next ← aligned.jumpToBit newEnd
    .ok ((numElts, some ((aligned.bitcodeBytes.drop (curBitPos / 8)).take numElts)), next)
  else .ok ((numElts, none), aligned.skipToEnd)

def readBlobPair : Reading (Nat × Option (List UInt8)) :=
  andThen (SimpleBitstreamCursor.readVBR 6) fun numElts =>
    andThen (fun cursor => .ok ((), cursor.skipToFourByteBoundary)) fun _ => takeBlob numElts

theorem readBlob_eq (stream : SimpleBitstreamCursor) :
    readBlob stream = (readBlobPair stream).map fun pair => (pair.1.1, pair.1.2, pair.2) := by
  unfold readBlob readBlobPair andThen
  cases counted : stream.readVBR 6 with
  | error problem => rfl
  | ok sized =>
      simp only [bind, Except.bind, takeBlob]
      split
      · cases sized.2.skipToFourByteBoundary.jumpToBit _ with
        | error | ok => rfl
      · rfl

theorem carries_bytes {bytes : List UInt8} (small : bytes.length + 3 < 2 ^ 29) (good : Good writer)
    (flushed : writer.curBit = 0) :
    Carries (takeBlob bytes.length) (bytes.length, some bytes) writer
      { writer with out := writer.out ++ bytes ++ BitstreamWriter.padding (writer.out ++ bytes).length } := by
  have words := good.words
  have length := length_written writer
  have empty : bitsOf 0 writer.curValue = [] := rfl
  refine ⟨⟨good.curBit, good.curValue, ?_⟩, rfl,
    bytesBits (bytes ++ BitstreamWriter.padding (writer.out.length + bytes.length)), ?_, ?_⟩
  · rw [length_append, length_padding, length_append]
    omega
  · simp only [written, flushed, empty, bytesBits_append, length_append, List.append_assoc, append_nil]
  · intro cursor front back at_ here
    obtain ⟨done, jumped, reachable, contents, there⟩ := blob_decodes (by omega) small words at_ here
    refine ⟨done, ?_, there⟩
    unfold takeBlob
    simp only [here.bitNo, reachable, if_true, jumped, bind, Except.bind, contents]

theorem carries_blob {bytes : List UInt8} (small : bytes.length + 3 < 2 ^ 29) (good : Good writer)
    (emitted : writer.emitBlob bytes = some next) :
      Carries readBlobPair (bytes.length, some bytes) writer next := by
  obtain ⟨sized, first, rest⟩ := bind_eq_some_iff.mp emitted
  cases rest
  have length : bytes.length % 2 ^ 32 = bytes.length := Nat.mod_eq_of_lt (by omega)
  rw [length] at first
  have header := carries_emitVBR (by decide) (by omega) good first
  have flushed := carries_flush header.good
  have zero := (flushToWord_written header.good).2.2.1
  exact header.andThen (flushed.andThen (carries_bytes small flushed.good zero))

/-! ### Operands -/

def addKept (record : Record) (kept : List Nat × Option (List UInt8)) : Record :=
  { record with vals := record.vals ++ kept.1, blob := kept.2 }

section Operands

variable {ops : List BitCodeAbbrevOp} {vals : List Nat} {bytes : Option (List UInt8)} {record : Record}

inductive Shape : List BitCodeAbbrevOp → Prop
  | nil : Shape []
  | array {eltEnc : BitCodeAbbrevOp} (field : eltEnc.Field) : Shape [.array, eltEnc]
  | blob : Shape [.blob]
  | literal {value : Nat} {ops : List BitCodeAbbrevOp} (small : value < 2 ^ 64) (rest : Shape ops) :
      Shape (.literal value :: ops)
  | field {op : BitCodeAbbrevOp} {ops : List BitCodeAbbrevOp} (field : op.Field) (rest : Shape ops) :
      Shape (op :: ops)

theorem shape_of_wellFormed : ∀ {ops : List BitCodeAbbrevOp}, WellFormedOperands ops → Shape ops
  | [], _ => .nil
  | .literal _ :: _, formed => .literal formed.1 (shape_of_wellFormed formed.2)
  | .fixed _ :: _, formed => .field formed.1 (shape_of_wellFormed formed.2)
  | .vbr _ :: _, formed => .field formed.1 (shape_of_wellFormed formed.2)
  | .char6 :: _, formed => .field formed.1 (shape_of_wellFormed formed.2)
  | [.array, _], formed => .array formed
  | [.blob], _ => .blob
  | [.array], formed => formed.1.elim
  | .array :: _ :: _ :: _, formed => formed.1.elim
  | .blob :: _ :: _, formed => formed.1.elim

theorem keptOperands_field (field : op.Field) (val : Nat) : keptOperands (op :: ops) (val :: vals) bytes =
    (op.kept val :: (keptOperands ops vals bytes).1, (keptOperands ops vals bytes).2) :=
  field.cases (fun _ => rfl) (fun _ => rfl) rfl

theorem emitOperands_field (field : op.Field) : writer.emitOperands (op :: ops) vals bytes =
    (match vals with
      | [] => none
      | val :: rest => (writer.emitAbbreviatedField op val).bind (·.emitOperands ops rest bytes)) :=
  field.cases (fun _ => rfl) (fun _ => rfl) rfl

theorem readOperands_field (field : op.Field) (stream : SimpleBitstreamCursor) :
    readOperands true (op :: ops) record stream =
      andThen (readAbbreviatedField op)
        (fun val => readOperands true ops { record with vals := record.vals ++ [val] })
        stream :=
  field.cases (fun _ => rfl) (fun _ => rfl) rfl

theorem carries_array (field : eltEnc.Field) (short : vals.length < 2 ^ 32) (small : ∀ val ∈ vals, val < 2 ^ 64)
    (good : Good writer) {sized : BitstreamWriter}
    (counted : writer.emitVBR (vals.length % 2 ^ 32) 6 = some sized)
    (emitted : sized.emitAbbreviatedFields eltEnc vals = some next) :
    Carries (readOperands true [.array, eltEnc] record)
      { record with vals := record.vals ++ vals.map eltEnc.kept } writer next := by
  rw [Nat.mod_eq_of_lt short] at counted
  have header := carries_emitVBR (by decide) (by omega) good counted
  have elements := carries_fields field small header.good emitted
  have joined : Carries (andThen (SimpleBitstreamCursor.readVBR 6) fun numElts =>
      andThen (readAbbreviatedFields eltEnc numElts) fun vals cursor =>
        .ok ({ record with vals := record.vals ++ vals }, cursor))
      { record with vals := record.vals ++ vals.map eltEnc.kept } writer next :=
    header.andThen (elements.map fun vals => { record with vals := record.vals ++ vals })
  refine joined.congr fun cursor => ?_
  rw [readOperands]
  simp only [readArrayElements_of_field field]
  rfl

theorem carries_blobOperand {blob : List UInt8} (small : blob.length + 3 < 2 ^ 29) (good : Good writer)
    (emitted : writer.emitBlob blob = some next) :
    Carries (readOperands true [.blob] record) { record with blob := some blob } writer next := by
  have read := (carries_blob small good emitted).map fun pair =>
    pair.2.elim { record with vals := record.vals ++ List.replicate pair.1 0 } fun bytes =>
      { record with blob := some bytes }
  refine read.congr fun cursor => ?_
  rw [readOperands, readBlob_eq, andThen]
  cases readBlobPair cursor with
  | error problem => rfl
  | ok pair =>
      obtain ⟨⟨numElts, bytes⟩, stream⟩ := pair
      cases bytes with
      | none | some => rfl

theorem addKept_of_unset (unset : record.blob = none) (more : List Nat) :
    addKept record (more, none) = { record with vals := record.vals ++ more } := by
  rw [addKept, ← unset]

theorem carries_operands (shape : Shape ops) : ∀ {vals : List Nat} {bytes : Option (List UInt8)} {record : Record}
    {writer : BitstreamWriter}, vals.length < 2 ^ 32 → (∀ val ∈ vals, val < 2 ^ 64) →
      (∀ blob ∈ bytes, ProperBytes blob) →
      (bytes ≠ none → ∀ blob ∈ (keptOperands ops vals bytes).2, blob.length + 3 < 2 ^ 29) →
      Good writer → record.blob = none → writer.emitOperands ops vals bytes = some (next, [], none) →
        Carries (readOperands true ops record) (addKept record (keptOperands ops vals bytes)) writer next := by
  induction shape with
  | nil =>
      intro vals bytes record writer _ _ _ _ good unset emitted
      simp only [BitstreamWriter.emitOperands, Option.some.injEq, Prod.mk.injEq] at emitted
      obtain ⟨rfl, rfl, rfl⟩ := emitted
      have same : addKept record (keptOperands [] [] none) = record := by
        rw [show keptOperands [] [] none = ([], none) from rfl, addKept_of_unset unset, append_nil]
      rw [same]
      exact carries_pure good record
  | @array eltEnc field =>
      intro vals bytes record writer short small proper blobs good unset emitted
      cases bytes with
      | none =>
          obtain ⟨sized, counted, rest⟩ := bind_eq_some_iff.mp emitted
          obtain ⟨middle, elements, done⟩ := bind_eq_some_iff.mp rest
          simp only [Option.some.injEq, Prod.mk.injEq, and_true] at done
          rw [done] at elements
          rw [show keptOperands [.array, eltEnc] vals none = (vals.map eltEnc.kept, none) from rfl,
            addKept_of_unset unset]
          exact carries_array field short small good counted elements
      | some blob =>
          have bounded : blob.length < 2 ^ 32 := proper blob rfl
          simp only [BitstreamWriter.emitOperands] at emitted
          split at emitted
          · obtain ⟨sized, counted, rest⟩ := bind_eq_some_iff.mp emitted
            obtain ⟨middle, elements, done⟩ := bind_eq_some_iff.mp rest
            simp only [Option.some.injEq, Prod.mk.injEq, and_true] at done
            rw [done.1] at elements
            rw [← length_map UInt8.toNat] at counted
            rw [show keptOperands [.array, eltEnc] vals (some blob) =
              ((blob.map UInt8.toNat).map eltEnc.kept, none) from rfl,
              addKept_of_unset unset]
            refine carries_array field (by rw [length_map]; omega) (fun val member => ?_) good
              counted elements
            obtain ⟨byte, _, rfl⟩ := List.mem_map.mp member
            have limit := byte.toNat_lt
            omega
          · cases emitted
  | blob =>
      intro vals bytes record writer short small proper blobs good unset emitted
      cases bytes with
      | none =>
          obtain ⟨blob, packed, rest⟩ := bind_eq_some_iff.mp emitted
          obtain ⟨middle, sent, done⟩ := bind_eq_some_iff.mp rest
          simp only [BitstreamWriter.emitOperands, Option.some.injEq, Prod.mk.injEq, and_true] at done
          obtain ⟨rfl, rfl⟩ := done
          obtain rfl : blob = [] := by simpa [BitstreamWriter.bytesOfVals] using packed.symm
          have kept : addKept record (keptOperands [.blob] [] none) = { record with blob := some [] } := by
            change (⟨record.code, record.vals ++ [], some []⟩ : Record) = _
            rw [append_nil]
          rw [kept]
          exact carries_blobOperand (by decide) good sent
      | some blob =>
          simp only [BitstreamWriter.emitOperands] at emitted
          split at emitted
          · rename_i none
            obtain ⟨middle, sent, done⟩ := bind_eq_some_iff.mp emitted
            simp only [Option.some.injEq, Prod.mk.injEq, and_true] at done
            obtain ⟨rfl, rfl⟩ := done
            have kept : addKept record (keptOperands [.blob] [] (some blob)) =
                { record with blob := some blob } := by
              change (⟨record.code, record.vals ++ [], some blob⟩ : Record) = _
              rw [append_nil]
            rw [kept]
            exact carries_blobOperand (blobs (some_ne_none blob) blob rfl) good sent
          · cases emitted
  | @literal value ops _ rest ih =>
      intro vals bytes record writer short small proper blobs good unset emitted
      cases vals with
      | nil => cases emitted
      | cons val vals =>
          rw [BitstreamWriter.emitOperands] at emitted
          split at emitted
          · rename_i same
            subst same
            have shorter : vals.length < 2 ^ 32 := Nat.lt_of_succ_lt short
            have carried : Carries (readOperands true ops { record with vals := record.vals ++ [val] }) _
              writer next :=
              ih shorter (fun other member => small other (mem_cons_of_mem _ member)) proper blobs
                good unset emitted
            have joined : addKept record (keptOperands (.literal val :: ops) (val :: vals) bytes) =
                addKept { record with vals := record.vals ++ [val] } (keptOperands ops vals bytes) := by
              change (⟨record.code, record.vals ++ val :: _, _⟩ : Record) =
                ⟨record.code, record.vals ++ [val] ++ _, _⟩
              rw [List.append_assoc]
              rfl
            rw [joined]
            exact carried.congr fun cursor => rfl
          · cases emitted
  | @field op ops field rest ih =>
      intro vals bytes record writer short small proper blobs good unset emitted
      rw [emitOperands_field field] at emitted
      cases vals with
      | nil => cases emitted
      | cons val vals =>
          obtain ⟨middle, sent, done⟩ := bind_eq_some_iff.mp emitted
          have head := carries_field field (small val mem_cons_self) good sent
          have shorter : vals.length < 2 ^ 32 := Nat.lt_of_succ_lt short
          have shortRest : bytes ≠ none → ∀ blob ∈ (keptOperands ops vals bytes).2, blob.length + 3 < 2 ^ 29 := by
            rw [keptOperands_field field] at blobs
            exact blobs
          have tail : Carries (readOperands true ops { record with vals := record.vals ++ [op.kept val] })
            _ middle next :=
            ih shorter (fun other member => small other (mem_cons_of_mem _ member)) proper shortRest
              head.good unset done
          have joined : addKept record (keptOperands (op :: ops) (val :: vals) bytes) =
              addKept { record with vals := record.vals ++ [op.kept val] } (keptOperands ops vals bytes) := by
            rw [keptOperands_field field, addKept, addKept, List.append_assoc]
            rfl
          rw [joined]
          exact (Carries.andThen head tail).congr (readOperands_field field)

end Operands

section Records

variable {code abbrevID : Nat} {ops : List BitCodeAbbrevOp} {abbv : BitCodeAbbrev} {vals : List Nat}
  {bytes : Option (List UInt8)}

theorem carries_recordCode (single : op.Single) (small : code < 2 ^ 64) (good : Good writer)
    (emitted : writer.emitRecordCode op code = some next) :
    Carries (readRecordCode op) (op.kept code % 2 ^ 32) writer next := by
  have ofField (field : op.Field) (sent : writer.emitAbbreviatedField op code = some next)
      (same : ∀ cursor, readRecordCode op cursor =
        andThen (readAbbreviatedField op) (fun code cursor => .ok (code % 2 ^ 32, cursor)) cursor) :
      Carries (readRecordCode op) (op.kept code % 2 ^ 32) writer next :=
    ((carries_field field small good sent).map (· % 2 ^ 32)).congr same
  cases op with
  | literal value =>
      rw [BitstreamWriter.emitRecordCode] at emitted
      split at emitted
      · rename_i same
        cases emitted
        rw [same]
        exact carries_pure good _
      · cases emitted
  | fixed | vbr => exact ofField single emitted fun cursor => rfl
  | char6 => exact ofField trivial emitted fun cursor => rfl
  | array | blob => exact single.elim

theorem emitOperands_single (single : op.Single) : writer.emitOperands (op :: ops) vals bytes =
    (match vals with
      | [] => none
      | val :: rest => (writer.emitRecordCode op val).bind (·.emitOperands ops rest bytes)) := by
  cases op with
  | literal value =>
      cases vals with
      | nil => rfl
      | cons val rest =>
          rw [BitstreamWriter.emitOperands]
          simp only [BitstreamWriter.emitRecordCode]
          split
          · rfl
          · rfl
  | fixed | vbr => exact emitOperands_field single
  | char6 => exact emitOperands_field trivial
  | array | blob => exact single.elim

theorem emitRecordWithAbbrevImpl_cases {code : Option Nat}
    (emitted : writer.emitRecordWithAbbrevImpl abbrevID vals bytes code = some next) :
    ∃ abbv coded started ops, Bitc.firstApplicationAbbrev ≤ abbrevID ∧
      writer.curAbbrevs[abbrevID - Bitc.firstApplicationAbbrev]? = some abbv ∧
      writer.emitCode abbrevID = some coded ∧
      (code = none ∧ started = coded ∧ ops = abbv ∨
        ∃ given op, code = some given ∧ abbv = op :: ops ∧ coded.emitRecordCode op given = some started) ∧
      started.emitOperands ops vals bytes = some (next, [], none) := by
  unfold BitstreamWriter.emitRecordWithAbbrevImpl at emitted
  simp only at emitted
  split at emitted
  · cases emitted
  rename_i application
  obtain ⟨abbv, found, rest⟩ := bind_eq_some_iff.mp emitted
  obtain ⟨coded, numbered, body⟩ := bind_eq_some_iff.mp rest
  have finished {started : BitstreamWriter} {ops : BitCodeAbbrev}
      (sent : (started.emitOperands ops vals bytes).bind (fun sent =>
        if sent.2.1 = [] ∧ sent.2.2 = none then some sent.1 else none) = some next) :
      started.emitOperands ops vals bytes = some (next, [], none) := by
    obtain ⟨⟨done, left, unsent⟩, operands, finish⟩ := bind_eq_some_iff.mp sent
    simp only at finish
    split at finish
    · rename_i all
      rw [operands, all.1, all.2, Option.some.inj finish]
    · cases finish
  cases code with
  | none =>
      exact ⟨abbv, coded, coded, abbv, Nat.le_of_not_lt application, found, numbered, Or.inl ⟨rfl, rfl, rfl⟩,
        finished body⟩
  | some code =>
      cases abbv with
      | nil => cases body
      | cons op ops =>
          obtain ⟨⟨started, later⟩, begun, body⟩ := bind_eq_some_iff.mp body
          obtain ⟨_, coding, same⟩ := map_eq_some_iff.mp begun
          cases same
          exact ⟨op :: ops, coded, started, ops, Nat.le_of_not_lt application, found, numbered,
            Or.inr ⟨code, op, rfl, rfl, coding⟩, finished body⟩

theorem carries_abbreviated {code : Option Nat} (formed : ∀ abbv ∈ writer.curAbbrevs, WellFormed abbv)
    (proper : ProperVals vals) (codeSmall : ∀ given ∈ code, given < 2 ^ 32)
    (limited : ∀ blob ∈ bytes, ProperBytes blob)
    (good : Good writer) (emitted : writer.emitRecordWithAbbrevImpl abbrevID vals bytes code = some next) :
    ∃ abbv coded, Bitc.firstApplicationAbbrev ≤ abbrevID ∧
      writer.curAbbrevs[abbrevID - Bitc.firstApplicationAbbrev]? = some abbv ∧
      writer.emitCode abbrevID = some coded ∧
      ((bytes ≠ none → ShortBlob (keptRecord abbv code vals bytes)) →
        Carries (readAbbreviated true abbv) (keptRecord abbv code vals bytes) coded next) := by
  obtain ⟨abbv, coded, started, ops, application, found, numbered, begun, sent⟩ :=
    emitRecordWithAbbrevImpl_cases emitted
  refine ⟨abbv, coded, application, found, numbered, fun blobs => ?_⟩
  have goodCoded := (emit_written good numbered).2.1
  have wellFormed := formed abbv (mem_of_getElem? found)
  -- One code, and the operands after it.
  have joined {op : BitCodeAbbrevOp} {ops : List BitCodeAbbrevOp} {code : Nat} {vals : List Nat}
      (single : op.Single)
      (shape : Shape ops) (small : code < 2 ^ 64) (proper : ProperVals vals) {started : BitstreamWriter}
      (first : coded.emitRecordCode op code = some started)
      (second : started.emitOperands ops vals bytes = some (next, [], none))
      (blobs : bytes ≠ none → ∀ blob ∈ (keptOperands ops vals bytes).2, blob.length + 3 < 2 ^ 29) :
      Carries (readAbbreviated true (op :: ops))
        ⟨op.kept code % 2 ^ 32, (keptOperands ops vals bytes).1, (keptOperands ops vals bytes).2⟩ coded next := by
    have head := carries_recordCode single small goodCoded first
    have tail : Carries (readOperands true ops ⟨op.kept code % 2 ^ 32, [], none⟩)
        ⟨op.kept code % 2 ^ 32, (keptOperands ops vals bytes).1, (keptOperands ops vals bytes).2⟩ started next :=
      carries_operands shape proper.1 proper.2 limited blobs head.good rfl second
    have both : Carries (andThen (readRecordCode op) fun code => readOperands true ops ⟨code, [], none⟩) _
        coded next :=
      head.andThen tail
    exact both.congr fun cursor => rfl
  rcases begun with ⟨rfl, rfl, rfl⟩ | ⟨given, op, rfl, rfl, coding⟩
  · cases ops with
    | nil => exact wellFormed.elim
    | cons op rest =>
        rw [emitOperands_single wellFormed.1] at sent
        cases vals with
        | nil => cases sent
        | cons val vals =>
            obtain ⟨middle, first, second⟩ := bind_eq_some_iff.mp sent
            have rest : ProperVals vals :=
              ⟨Nat.lt_of_succ_lt proper.1, fun other member => proper.2 other (mem_cons_of_mem _ member)⟩
            exact joined wellFormed.1 (shape_of_wellFormed wellFormed.2) (proper.2 val mem_cons_self)
              rest first second blobs
  · have small := codeSmall given rfl
    exact joined wellFormed.1 (shape_of_wellFormed wellFormed.2) (by omega) proper coding sent blobs

theorem emitVBRs_eq : ∀ (vals : List Nat) (writer : BitstreamWriter),
    writer.emitVBRs vals = writer.emitAbbreviatedFields (.vbr 6) vals
  | [], _ => rfl
  | _ :: vals, _ => congrArg (Option.bind _) (funext (emitVBRs_eq vals))

theorem carries_unabbreviated (codeSmall : code < 2 ^ 32) (proper : ProperVals vals) (good : Good writer)
    (emitted : writer.emitRecord code vals 0 = some next) :
    ∃ coded, writer.emitCode Bitc.unabbrevRecord = some coded ∧
      Carries readUnabbreviated ⟨code, vals, none⟩ coded next := by
  obtain ⟨coded, numbered, rest⟩ := bind_eq_some_iff.mp emitted
  obtain ⟨started, first, rest⟩ := bind_eq_some_iff.mp rest
  obtain ⟨counted, second, rest⟩ := bind_eq_some_iff.mp rest
  have goodCoded := (emit_written good numbered).2.1
  rw [Nat.mod_eq_of_lt proper.1] at second
  have head := carries_emitVBR (by decide) codeSmall goodCoded first
  have count := carries_emitVBR (by decide) proper.1 head.good second
  rw [emitVBRs_eq] at rest
  have kept : vals.map (BitCodeAbbrevOp.vbr 6).kept = vals := List.map_id' vals
  have tail := carries_fields (show (BitCodeAbbrevOp.vbr 6).Field from ⟨by decide, by decide⟩) proper.2
    count.good rest
  rw [kept] at tail
  refine ⟨coded, numbered, ?_⟩
  have joined : Carries (andThen (SimpleBitstreamCursor.readVBR 6) fun code =>
      andThen (SimpleBitstreamCursor.readVBR 6) fun numElts =>
        andThen (readAbbreviatedFields (.vbr 6) numElts) fun vals cursor => .ok (⟨code, vals, none⟩, cursor))
      (⟨code, vals, none⟩ : Record) coded next :=
    head.andThen (count.andThen (tail.map fun vals => (⟨code, vals, none⟩ : Record)))
  exact joined.congr fun cursor => rfl

end Records

end EvmBackend.Bitstream
