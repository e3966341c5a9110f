/-
Definitions of abbreviations carried over: their operands one after the other, and
what they add on both sides, in a block or in the block info.
-/

import EvmBackend.Bitstream.Records

namespace EvmBackend.Bitstream

open BitLists BitstreamCursor BitCodeAbbrevOp

variable {writer next : BitstreamWriter} {op : BitCodeAbbrevOp}

def Encodable : BitCodeAbbrevOp → Prop
  | .literal value => value < 2 ^ 64
  | .fixed width => 1 ≤ width ∧ width ≤ 32
  | .vbr width => 2 ≤ width ∧ width ≤ 32
  | .array | .char6 | .blob => True

theorem encodable_of_field (field : op.Field) : Encodable op := by
  cases op with
  | fixed | vbr => exact field
  | char6 => trivial
  | literal | array | blob => exact field.elim

theorem encodable_of_single (single : op.Single) : Encodable op := by
  cases op with
  | literal | fixed | vbr => exact single
  | char6 => trivial
  | array | blob => exact single.elim

theorem encodable_of_shape {ops : List BitCodeAbbrevOp} (shape : Shape ops) : ∀ op ∈ ops, Encodable op := by
  induction shape with
  | nil => exact fun _ none => absurd none List.not_mem_nil
  | array field =>
      intro op member
      rcases List.mem_cons.mp member with rfl | last
      · trivial
      · obtain rfl := List.mem_singleton.mp last
        exact encodable_of_field field
  | blob =>
      intro op member
      obtain rfl := List.mem_singleton.mp member
      trivial
  | literal small _ ih => exact List.forall_mem_cons.mpr ⟨small, ih⟩
  | field field _ ih => exact List.forall_mem_cons.mpr ⟨encodable_of_field field, ih⟩

theorem encodable_of_wellFormed {abbv : BitCodeAbbrev} (formed : WellFormed abbv) :
    ∀ op ∈ abbv, Encodable op := by
  cases abbv with
  | nil => exact formed.elim
  | cons op ops =>
      exact List.forall_mem_cons.mpr
        ⟨encodable_of_single formed.1, encodable_of_shape (shape_of_wellFormed formed.2)⟩

/-! ### Operands -/

def readEncoded (encoding : Nat) (encoded : SimpleBitstreamCursor) :
    Except BitstreamError (BitCodeAbbrevOp × SimpleBitstreamCursor) :=
  if encoding = 1 ∨ encoding = 2 then do
    let (data, next) ← encoded.readVBR64 5
    if data = 0 then .ok (.literal 0, next)
    else if maxChunkSize < data then .error .abbrevSizeTooLarge
    else .ok (if encoding = 1 then .fixed data else .vbr data, next)
  else if encoding = 3 then .ok (.array, encoded)
  else if encoding = 4 then .ok (.char6, encoded)
  else if encoding = 5 then .ok (.blob, encoded)
  else .error .invalidEncoding

def readOperandRest (isLiteral : Nat) : Reading BitCodeAbbrevOp :=
  if isLiteral ≠ 0 then andThen (SimpleBitstreamCursor.readVBR64 8) fun value next => .ok (.literal value, next)
  else andThen (SimpleBitstreamCursor.read 3) readEncoded

theorem readOperand_eq (stream : SimpleBitstreamCursor) :
    readOperand stream = andThen (SimpleBitstreamCursor.read 1) readOperandRest stream := by
  unfold readOperand andThen
  cases stream.read 1 with
  | error problem => rfl
  | ok pair =>
      simp only [bind, Except.bind, readOperandRest]
      split
      · rfl
      · rfl

theorem carries_width {encoding width : Nat} (isWidth : encoding = 1 ∨ encoding = 2)
    (positive : 1 ≤ width) (bounded : width ≤ 32) (good : Good writer)
    (sent : writer.emitVBR64 width 5 = some next) :
    Carries (readEncoded encoding) (if encoding = 1 then fixed width else vbr width) writer next := by
  have read := carries_emitVBR64 (by decide) (by omega) good sent
  have checked : Carries (andThen (SimpleBitstreamCursor.readVBR64 5) fun data next =>
      if data = 0 then .ok (literal 0, next)
      else if maxChunkSize < data then .error .abbrevSizeTooLarge
      else .ok (if encoding = 1 then fixed data else vbr data, next))
      (if encoding = 1 then fixed width else vbr width) writer next := by
    refine read.andThen ((carries_pure read.good _).congr fun cursor => ?_)
    rw [if_neg (by omega), if_neg (by unfold maxChunkSize; omega)]
  refine checked.congr fun cursor => ?_
  rw [readEncoded, if_pos isWidth]
  rfl

theorem carries_operand (encodable : Encodable op) (good : Good writer)
    (emitted : writer.encodeOperand op = some next) : Carries readOperand op writer next := by
  obtain ⟨kind, first, rest⟩ := Option.bind_eq_some_iff.mp emitted
  have head := carries_emit good first
  have withEncoding {encoding : Nat} {encoded : BitstreamWriter} (bit : (if op.isLiteral then 1 else 0) = 0)
      (second : kind.emit encoding 3 = some encoded) (tail : Carries (readEncoded encoding) op encoded next) :
      Carries readOperand op writer next := by
    rw [bit] at head
    have numbered : Carries (andThen (SimpleBitstreamCursor.read 3) readEncoded) op kind next :=
      (carries_emit head.good second).andThen tail
    have whole : Carries (andThen (SimpleBitstreamCursor.read 1) readOperandRest) op writer next :=
      head.andThen (numbered.congr fun cursor => rfl)
    exact whole.congr readOperand_eq
  have withoutData {encoding : Nat} (bit : (if op.isLiteral then 1 else 0) = 0)
      (sent : kind.emit encoding 3 = some next)
      (known : ∀ cursor, readEncoded encoding cursor = .ok (op, cursor)) : Carries readOperand op writer next :=
    withEncoding bit sent ((carries_pure (carries_emit head.good sent).good op).congr known)
  cases op with
  | literal value =>
      have value := (carries_emitVBR64 (by decide) encodable head.good rest).map BitCodeAbbrevOp.literal
      have whole : Carries (andThen (SimpleBitstreamCursor.read 1) readOperandRest) _ writer next :=
        head.andThen (value.congr fun cursor => rfl)
      exact whole.congr readOperand_eq
  | fixed width =>
      obtain ⟨encoded, second, third⟩ := Option.bind_eq_some_iff.mp rest
      exact withEncoding rfl second (carries_width (Or.inl rfl) encodable.1 encodable.2
        (carries_emit head.good second).good third)
  | vbr width =>
      obtain ⟨encoded, second, third⟩ := Option.bind_eq_some_iff.mp rest
      have positive : 1 ≤ width := Nat.le_of_succ_le encodable.1
      exact withEncoding rfl second (carries_width (Or.inr rfl) positive encodable.2
        (carries_emit head.good second).good third)
  | array | char6 | blob => exact withoutData rfl rest fun cursor => rfl

theorem carries_operandInfos : ∀ {ops : List BitCodeAbbrevOp} {writer next : BitstreamWriter},
    (∀ op ∈ ops, Encodable op) → Good writer → writer.encodeOperands ops = some next →
      Carries (readOperandInfos ops.length) ops writer next
  | [], writer, next, _, good, emitted => by
      cases emitted
      exact carries_pure good _
  | op :: ops, writer, next, encodable, good, emitted => by
      obtain ⟨middle, first, rest⟩ := Option.bind_eq_some_iff.mp emitted
      have head := carries_operand (encodable op List.mem_cons_self) good first
      have tail := carries_operandInfos (fun op member => encodable op (List.mem_cons_of_mem _ member))
        head.good rest
      have joined : Carries (andThen readOperand fun op cursor =>
          andThen (readOperandInfos ops.length) (fun ops cursor => .ok (op :: ops, cursor)) cursor)
          (op :: ops) writer next :=
        head.andThen (tail.map (op :: ·))
      exact joined.congr fun cursor => rfl

theorem carries_abbrev {abbv : BitCodeAbbrev} (proper : ProperAbbrev abbv) (good : Good writer)
    (emitted : writer.encodeAbbrev abbv = some next) :
    ∃ coded, writer.emitCode Bitc.defineAbbrev = some coded ∧ Carries readAbbrev abbv coded next := by
  obtain ⟨coded, numbered, rest⟩ := Option.bind_eq_some_iff.mp emitted
  obtain ⟨counted, second, rest⟩ := Option.bind_eq_some_iff.mp rest
  have goodCoded := (emit_written good numbered).2.1
  rw [Nat.mod_eq_of_lt proper.1] at second
  have count := carries_emitVBR (by decide) proper.1 goodCoded second
  have operands := carries_operandInfos (encodable_of_wellFormed proper.2) count.good rest
  have some : abbv ≠ [] := by
    rintro rfl
    exact proper.2
  refine ⟨coded, numbered, ?_⟩
  have joined : Carries (andThen (SimpleBitstreamCursor.readVBR 5) fun numOpInfo =>
      andThen (readOperandInfos numOpInfo) fun abbv done =>
        if abbv = [] then .error .abbrevWithoutOperands else .ok (abbv, done)) abbv coded next := by
    refine count.andThen (operands.andThen ((carries_pure operands.good abbv).congr fun cursor => ?_))
    rw [if_neg some]
  exact joined.congr fun cursor => rfl

end EvmBackend.Bitstream
