/-
The operations of the checked reader, one after another: none ends with a fault
unless one of its steps is not harmless. The loops that go on until the data says
so take bits in every turn, so they end.
-/

import EvmBackend.Bitstream.Safety

namespace EvmBackend.CheckedReader

open BitLists CheckedPrograms CheckedPrograms.Program BitstreamCursor List

variable {cursor middle last : BitstreamCursor} {Result Other : Type}

section Rules

variable {program : Reader Result} {gives : Result → BitstreamCursor → Prop}

theorem safe_pure (good : Good cursor) {value : Result} (holds : gives value cursor) :
    Safe (pure value) gives cursor :=
  steady_pure good.later holds

theorem safe_throw (good : Good cursor) {error : BitstreamError} :
    Safe (throw error : Reader Result) gives cursor :=
  steady_throw good.kept

theorem safe_abort {reason : BitstreamError} : Safe (abort reason : Reader Result) gives cursor := steady_abort

theorem Safe.imp {weaker : Result → BitstreamCursor → Prop} (safe : Safe program gives cursor)
    (finished : ∀ value last, Later cursor last → gives value last → weaker value last) :
    Safe program weaker cursor :=
  Steady.imp safe finished

theorem Safe.current {next : BitstreamCursor → Reader Result} (goes : Safe (next cursor) gives cursor) :
    Safe (current >>= next) gives cursor :=
  meets_current_bind goes

theorem Safe.assert {condition : Prop} [Decidable condition] {rest : Unit → Reader Result} (met : condition)
    (goes : Safe (rest ()) gives cursor) : Safe (assert condition >>= rest) gives cursor :=
  meets_require_bind met goes

theorem change_safe {update : BitstreamCursor → BitstreamCursor} (later : Later cursor (update cursor)) :
    Safe (change update) (fun _ last => last = update cursor) cursor :=
  meets_change ⟨later, rfl⟩

theorem Safe.note {step : BitstreamCursor → Step} {rest : Unit → Reader Result}
    (goes : (step cursor).Harmless →
      Safe (rest ()) (fun value last => ¬(step cursor).RunsOut ∧ gives value last) cursor) :
    Safe (note step >>= rest) gives cursor := by
  refine meets_note fun harmless => Meets.imp (goes harmless) (fun value last holds => ?_) fun _ kept => kept
  exact ⟨fun _ => holds.2.1, holds.1, holds.2.2⟩

theorem Safe.noteFree {step : BitstreamCursor → Step} {rest : Unit → Reader Result}
    (free : (step cursor).isBlob = false → ¬(step cursor).RunsOut)
    (goes : (step cursor).Harmless → Safe (rest ()) gives cursor) :
    Safe (Program.note step >>= rest) gives cursor :=
  meets_note fun harmless => Meets.imp (goes harmless) (fun _ _ holds => ⟨free, holds⟩) fun _ kept => kept

end Rules

theorem readVBR_safe (good : Good cursor) {numBits : Nat} (positive : 0 < numBits) (bounded : numBits ≤ 64) :
    Safe (readVBR numBits) (fun _ last => last.stream.bitsLeft + numBits ≤ cursor.stream.bitsLeft) cursor :=
  readVBRWith_safe good 32 positive bounded

theorem readVBR64_safe (good : Good cursor) {numBits : Nat} (positive : 0 < numBits) (bounded : numBits ≤ 64) :
    Safe (readVBR64 numBits) (fun _ last => last.stream.bitsLeft + numBits ≤ cursor.stream.bitsLeft) cursor :=
  readVBRWith_safe good 64 positive bounded

theorem readCode_safe (good : Good cursor) :
    Safe readCode (fun _ last => last.stream.bitsLeft < cursor.stream.bitsLeft) cursor := by
  refine Safe.noteFree (fun _ none => none) fun harmless => Safe.current ?_
  refine Safe.bind (read_safe good harmless.1 harmless.2) fun code middle later holds => ?_
  have positive := harmless.1
  change 0 < cursor.curCodeSize at positive
  exact safe_pure later.good (by omega)

theorem mem_of_getBlockInfo {blockID : Nat} {infos : List BlockInfo} {info : BlockInfo}
    (found : BlockInfo.getBlockInfo blockID infos = some info) : info ∈ infos := by
  obtain ⟨place, -, there⟩ := Option.bind_eq_some_iff.mp found
  exact mem_of_getElem? there

theorem inherited_proper (good : Good cursor) (blockID : Nat) :
    ∀ abbv ∈ (cursor.blockInfo.bind (BlockInfo.getBlockInfo blockID)).elim [] BlockInfo.abbrevs, Proper abbv := by
  intro abbv here
  cases found : cursor.blockInfo.bind (BlockInfo.getBlockInfo blockID) with
  | none =>
      rw [found] at here
      exact absurd here not_mem_nil
  | some info =>
      rw [found] at here
      obtain ⟨infos, known, there⟩ := Option.bind_eq_some_iff.mp found
      exact good.info infos known info (mem_of_getBlockInfo there) abbv here

theorem enterSubBlock_safe (good : Good cursor) (blockID : Nat) :
    Safe (enterSubBlock blockID) (fun _ _ => True) cursor := by
  refine Safe.bind (change_safe ⟨⟨good.sound, inherited_proper good blockID, ?_, good.info⟩, rfl, Nat.le_refl _⟩)
    fun _ entered later same => ?_
  · intro block here
    rcases mem_cons.mp here with rfl | outer
    · exact good.abbrevs
    · exact good.scope block outer
  · clear same
    refine Safe.bind (readVBR_safe later.good (by decide) (by decide)) fun codeSize sized later _ => ?_
    refine Safe.bind (change_safe ⟨⟨later.good.sound, later.good.abbrevs, later.good.scope, later.good.info⟩,
      rfl, Nat.le_refl _⟩) fun _ coded later _ => ?_
    split
    · exact safe_throw later.good
    · refine Safe.bind (skipToFourByteBoundary_safe later.good) fun _ aligned later _ => ?_
      refine Safe.bind (read_safe later.good (by decide) (by decide)) fun numWords counted later _ => ?_
      split
      · exact safe_throw later.good
      · refine Safe.current ?_
        split
        · exact safe_throw later.good
        · exact safe_pure later.good trivial

theorem readBlockEnd_safe (good : Good cursor) : Safe readBlockEnd (fun _ _ => True) cursor := by
  refine Safe.current ?_
  cases scope : cursor.blockScope with
  | nil => exact safe_pure good trivial
  | cons block outer =>
      have inside : ∀ other ∈ block :: outer, ∀ abbv ∈ other.prevAbbrevs, Proper abbv := scope ▸ good.scope
      dsimp only
      refine Safe.bind (skipToFourByteBoundary_safe good) fun _ aligned later _ => ?_
      refine Safe.bind (change_safe ⟨⟨later.good.sound, inside block mem_cons_self,
        fun other here => inside other (mem_cons_of_mem _ here), later.good.info⟩, rfl, Nat.le_refl _⟩)
        fun _ popped later _ => ?_
      exact safe_pure later.good trivial

theorem jump_served {stream : SimpleBitstreamCursor} {size : Nat}
    (within : stream.getCurrentBitNo + size ≤ 8 * stream.bitcodeBytes.length) : ¬stream.bitsLeft < size := by
  unfold SimpleBitstreamCursor.bitsLeft
  omega

theorem skipBlock_safe (good : Good cursor) : Safe skipBlock (fun _ _ => True) cursor := by
  refine Safe.bind (readVBR_safe good (by decide) (by decide)) fun _ sized later _ => ?_
  refine Safe.bind (skipToFourByteBoundary_safe later.good) fun _ aligned later _ => ?_
  refine Safe.bind (read_safe later.good (by decide) (by decide)) fun numFourBytes counted later _ => ?_
  have good := later.good
  refine Safe.note fun _ => Safe.current ?_
  dsimp only
  split
  · exact safe_throw good
  · split
    · rename_i within
      have reach : (counted.stream.getCurrentBitNo + numFourBytes * 4 * 8) / 8 ≤
          counted.stream.bitcodeBytes.length := of_decide_eq_true within
      refine Safe.imp (jumpToBit_safe good (by omega) (Nat.le_add_right _ _)) fun _ last later target => ?_
      rw [later.bytes] at target
      exact ⟨jump_served target, trivial⟩
    · exact safe_throw good

theorem readOperand_safe (good : Good cursor) : Safe readOperand (fun op _ => ProperOp op) cursor := by
  refine Safe.bind (read_safe good (by decide) (by decide)) fun isLiteral kind later _ => ?_
  split
  · refine Safe.bind (readVBR64_safe later.good (by decide) (by decide)) fun value next later _ => ?_
    exact safe_pure later.good trivial
  · refine Safe.bind (read_safe later.good (by decide) (by decide)) fun encoding encoded later _ => ?_
    split
    · refine Safe.bind (readVBR64_safe later.good (by decide) (by decide)) fun data next later _ => ?_
      split
      · exact safe_pure later.good trivial
      · rename_i some_
        split
        · exact safe_abort
        · rename_i bounded
          have widths : 0 < data ∧ data ≤ maxChunkSize := ⟨Nat.pos_of_ne_zero some_, Nat.le_of_not_lt bounded⟩
          refine safe_pure later.good ?_
          split <;> exact widths
    · split
      · exact safe_pure later.good trivial
      · split
        · exact safe_pure later.good trivial
        · split
          · exact safe_pure later.good trivial
          · exact safe_abort

theorem readOperandInfos_safe (count : Nat) {cursor : BitstreamCursor} (good : Good cursor) :
    Safe (readOperandInfos count) (fun abbv _ => ∀ op ∈ abbv, ProperOp op) cursor := by
  induction count generalizing cursor with
  | zero => exact safe_pure good fun op none => absurd none not_mem_nil
  | succ count ih =>
      refine Safe.bind (readOperand_safe good) fun op next later proper => ?_
      refine Safe.bind (ih later.good) fun ops done later rest => ?_
      exact safe_pure later.good (forall_mem_cons.mpr ⟨proper, rest⟩)

theorem readAbbrev_safe (good : Good cursor) : Safe readAbbrev (fun abbv _ => Proper abbv) cursor := by
  refine Safe.bind (readVBR_safe good (by decide) (by decide)) fun numOpInfo counted later _ => ?_
  refine Safe.bind (readOperandInfos_safe numOpInfo later.good) fun abbv done later ops => ?_
  split
  · exact safe_abort
  · rename_i some_
    exact safe_pure later.good ⟨some_, ops⟩

theorem readAbbrevRecord_safe (good : Good cursor) : Safe readAbbrevRecord (fun _ _ => True) cursor := by
  refine Safe.bind (readAbbrev_safe good) fun abbv done later proper => ?_
  refine Safe.imp (change_safe ⟨⟨later.good.sound, fun other here => ?_, later.good.scope, later.good.info⟩,
    rfl, Nat.le_refl _⟩) fun _ _ _ _ => trivial
  rcases mem_append.mp here with before | new
  · exact later.good.abbrevs other before
  · rw [mem_singleton.mp new]
    exact proper

theorem advanceLoop_safe (dontPopBlockAtEnd dontAutoprocessAbbrevs : Bool) (fuel : Nat) {cursor : BitstreamCursor}
    (good : Good cursor) (turns : cursor.stream.bitsLeft < fuel) :
    Safe (advanceLoop dontPopBlockAtEnd dontAutoprocessAbbrevs fuel)
      (fun entry last => entry = .error ∨ last.stream.bitsLeft < cursor.stream.bitsLeft) cursor := by
  induction fuel generalizing cursor with
  | zero => exact absurd turns (Nat.not_lt_zero _)
  | succ fuel ih =>
      refine Safe.current ?_
      split
      · exact safe_pure good (.inl rfl)
      · refine Safe.bind (readCode_safe good) fun code coded later took => ?_
        have good := later.good
        split
        · split
          · exact safe_pure good (.inr took)
          · refine Safe.bind (readBlockEnd_safe good) fun failed outer later _ => ?_
            exact safe_pure later.good (.inr (Nat.lt_of_le_of_lt later.left took))
        · split
          · refine Safe.bind (readVBR_safe good (by decide) (by decide)) fun id next later _ => ?_
            exact safe_pure later.good (.inr (Nat.lt_of_le_of_lt later.left took))
          · split
            · refine Safe.bind (readAbbrevRecord_safe good) fun _ next later _ => ?_
              have left := later.left
              refine Safe.imp (ih later.good (by omega)) fun entry last _ holds => ?_
              exact holds.imp id fun less => by omega
            · exact safe_pure good (.inr took)

theorem advance_safe (dontPopBlockAtEnd dontAutoprocessAbbrevs : Bool) (good : Good cursor) :
    Safe (advance dontPopBlockAtEnd dontAutoprocessAbbrevs)
      (fun entry last => entry = .error ∨ last.stream.bitsLeft < cursor.stream.bitsLeft) cursor :=
  Safe.current (advanceLoop_safe _ _ _ good (Nat.lt_succ_self _))

theorem advanceSkippingLoop_safe (dontPopBlockAtEnd dontAutoprocessAbbrevs : Bool) (fuel : Nat)
    {cursor : BitstreamCursor} (good : Good cursor) (turns : cursor.stream.bitsLeft < fuel) :
    Safe (advanceSkippingLoop dontPopBlockAtEnd dontAutoprocessAbbrevs fuel)
      (fun entry last => entry = .error ∨ last.stream.bitsLeft < cursor.stream.bitsLeft) cursor := by
  induction fuel generalizing cursor with
  | zero => exact absurd turns (Nat.not_lt_zero _)
  | succ fuel ih =>
      refine Safe.bind (advance_safe _ _ good) fun entry next later took => ?_
      cases entry with
      | subBlock blockID =>
          have less := took.resolve_left Entry.noConfusion
          refine Safe.bind (skipBlock_safe later.good) fun _ skipped later _ => ?_
          have left := later.left
          refine Safe.imp (ih later.good (by omega)) fun entry last _ holds => ?_
          exact holds.imp id fun less => by omega
      | error | endBlock | record => exact safe_pure later.good took

theorem advanceSkippingSubblocks_safe (dontPopBlockAtEnd dontAutoprocessAbbrevs : Bool) (good : Good cursor) :
    Safe (advanceSkippingSubblocks dontPopBlockAtEnd dontAutoprocessAbbrevs)
      (fun entry last => entry = .error ∨ last.stream.bitsLeft < cursor.stream.bitsLeft) cursor :=
  Safe.current (advanceSkippingLoop_safe _ _ _ good (Nat.lt_succ_self _))

structure TakesValue (op : BitCodeAbbrevOp) : Prop where
  encoded : op.isLiteral = false
  notArray : op ≠ .array
  notBlob : op ≠ .blob

theorem takesValue_fixed (width : Nat) : TakesValue (.fixed width) :=
  ⟨rfl, BitCodeAbbrevOp.noConfusion, BitCodeAbbrevOp.noConfusion⟩

theorem takesValue_vbr (width : Nat) : TakesValue (.vbr width) :=
  ⟨rfl, BitCodeAbbrevOp.noConfusion, BitCodeAbbrevOp.noConfusion⟩

theorem takesValue_char6 : TakesValue .char6 :=
  ⟨rfl, BitCodeAbbrevOp.noConfusion, BitCodeAbbrevOp.noConfusion⟩

variable {op : BitCodeAbbrevOp} {state : BlockInfoState}

theorem readAbbreviatedField_safe (good : Good cursor) (proper : ProperOp op)
    (takes : TakesValue op) : Safe (readAbbreviatedField op) (fun _ _ => True) cursor := by
  cases op with
  | literal value => exact absurd takes.encoded Bool.noConfusion
  | fixed width => exact Safe.imp (read_safe good proper.1 proper.2) fun _ _ _ _ => trivial
  | vbr width => exact Safe.imp (readVBR64_safe good proper.1 proper.2) fun _ _ _ _ => trivial
  | array => exact absurd rfl takes.notArray
  | char6 =>
      refine Safe.bind (read_safe good (by decide) (by decide)) fun bits next later small => ?_
      exact Safe.assert small.1 (safe_pure later.good trivial)
  | blob => exact absurd rfl takes.notBlob

theorem readAbbreviatedFields_safe (proper : ProperOp op) (takes : TakesValue op) (count : Nat)
    {cursor : BitstreamCursor} (good : Good cursor) :
    Safe (readAbbreviatedFields op count) (fun _ _ => True) cursor := by
  induction count generalizing cursor with
  | zero => exact safe_pure good trivial
  | succ count ih =>
      refine Safe.bind (readAbbreviatedField_safe good proper takes) fun val next later _ => ?_
      refine Safe.bind (ih later.good) fun vals done later _ => ?_
      exact safe_pure later.good trivial

theorem properOp_vbr6 : ProperOp (.vbr 6) := ⟨by decide, by decide⟩

theorem readArrayElements_safe (good : Good cursor) {eltEnc : BitCodeAbbrevOp} (proper : ProperOp eltEnc)
    (numElts : Nat) : Safe (readArrayElements eltEnc numElts) (fun _ _ => True) cursor := by
  cases eltEnc with
  | literal value => exact safe_abort
  | fixed width => exact readAbbreviatedFields_safe proper (takesValue_fixed width) numElts good
  | vbr width => exact readAbbreviatedFields_safe proper (takesValue_vbr width) numElts good
  | array => exact safe_abort
  | char6 => exact readAbbreviatedFields_safe proper takesValue_char6 numElts good
  | blob => exact safe_abort

theorem blobEnd_eq (curBitPos : Nat) {numElts : Nat} (short : numElts + 3 < 2 ^ 29) :
    blobEnd curBitPos numElts = curBitPos + (numElts + 3) / 4 * 4 * 8 := by
  unfold blobEnd
  rw [Nat.mod_eq_of_lt (by omega), Nat.mod_eq_of_lt (by omega)]

def Record.Inside (size : Nat) (record : Record) : Prop :=
  ∀ start count, record.blob = some (start, count) → start + count ≤ size

theorem readBlob_safe (good : Good cursor) :
    Safe readBlob (fun pair last => ∀ start, pair.2 = some start →
      start + pair.1 ≤ last.stream.bitcodeBytes.length) cursor := by
  refine Safe.bind (readVBR_safe good (by decide) (by decide)) fun numElts sized later _ => ?_
  refine Safe.bind (skipToFourByteBoundary_safe later.good) fun _ aligned later whole => ?_
  have good := later.good
  refine Safe.noteFree nofun fun short => Safe.current ?_
  dsimp only
  have far := blobEnd_eq aligned.stream.getCurrentBitNo short
  split
  · rename_i within
    have reach : blobEnd aligned.stream.getCurrentBitNo numElts / 8 ≤
        aligned.stream.bitcodeBytes.length := of_decide_eq_true within
    refine Safe.bind (jumpToBit_safe good (by omega) (by omega)) fun _ jumped later _ => ?_
    refine Safe.assert whole (safe_pure later.good fun start same => ?_)
    cases same
    rw [later.bytes]
    omega
  · refine Safe.bind (skipToEnd_safe good) fun _ ended later _ => ?_
    exact safe_pure later.good nofun

theorem addBlob_safe (good : Good cursor) (wantsBlob : Bool) {start numElts : Nat} {record : Record}
    (within : start + numElts ≤ cursor.stream.bitcodeBytes.length)
    (inside : record.Inside cursor.stream.bitcodeBytes.length) :
    Safe (addBlob wantsBlob start numElts record)
      (fun record last => record.Inside last.stream.bitcodeBytes.length) cursor := by
  unfold addBlob
  split
  · refine safe_pure good fun other count same => ?_
    cases same
    exact within
  · refine Meets.bind (meets_current_bind (meets_require within ?_))
    exact Safe.current (safe_pure good inside)

theorem getAbbrev_safe (good : Good cursor) (abbrevID : Nat) :
    Safe (getAbbrev abbrevID) (fun abbv _ => Proper abbv) cursor := by
  refine Safe.current ?_
  split
  · exact safe_abort
  · cases found : cursor.curAbbrevs[abbrevID - Bitc.firstApplicationAbbrev]? with
    | none => exact safe_abort
    | some abbv => exact safe_pure good (good.abbrevs abbv (mem_of_getElem? found))

theorem readOperands_safe (wantsBlob : Bool) (ops : List BitCodeAbbrevOp) (proper : ∀ op ∈ ops, ProperOp op)
    {record : Record} {cursor : BitstreamCursor} (good : Good cursor)
    (inside : record.Inside cursor.stream.bitcodeBytes.length) :
    Safe (readOperands wantsBlob ops record)
      (fun record last => record.Inside last.stream.bitcodeBytes.length) cursor := by
  induction ops generalizing record cursor with
  | nil => exact safe_pure good inside
  | cons op ops ih =>
      obtain ⟨here, rest⟩ := forall_mem_cons.mp proper
      have field (takes : TakesValue op) :
          Safe (readAbbreviatedField op >>= fun val =>
              readOperands wantsBlob ops { record with vals := record.vals ++ [val] })
            (fun record last => record.Inside last.stream.bitcodeBytes.length) cursor := by
        refine Safe.bind (readAbbreviatedField_safe good here takes) fun val next later _ => ?_
        exact ih rest later.good (later.bytes ▸ inside)
      cases op with
      | literal value => exact ih rest good inside
      | fixed width => exact field (takesValue_fixed width)
      | vbr width => exact field (takesValue_vbr width)
      | char6 => exact field takesValue_char6
      | array =>
          refine Safe.bind (readVBR_safe good (by decide) (by decide)) fun numElts sized later _ => ?_
          have inside : record.Inside sized.stream.bitcodeBytes.length := later.bytes ▸ inside
          match ops with
          | [] => exact safe_abort
          | [eltEnc] =>
              refine Safe.bind (readArrayElements_safe later.good (rest eltEnc mem_cons_self) numElts)
                fun vals done later _ => ?_
              exact safe_pure later.good (later.bytes ▸ inside)
          | _ :: _ :: _ => exact safe_abort
      | blob =>
          refine Safe.bind (readBlob_safe good) fun pair next later within => ?_
          have inside : record.Inside next.stream.bitcodeBytes.length := later.bytes ▸ inside
          obtain ⟨numElts, start⟩ := pair
          cases start with
          | none => exact safe_pure later.good inside
          | some start =>
              refine Safe.bind (addBlob_safe later.good wantsBlob (within start rfl) inside)
                fun record added later inside => ?_
              exact ih rest later.good inside

theorem readRecordCode_safe (good : Good cursor) (proper : ProperOp op) :
    Safe (readRecordCode op) (fun _ _ => True) cursor := by
  have field (takes : TakesValue op) :
      Safe (readAbbreviatedField op >>= fun code => pure (code % 2 ^ 32)) (fun _ _ => True) cursor :=
    Safe.bind (readAbbreviatedField_safe good proper takes) fun _ _ later _ => safe_pure later.good trivial
  cases op with
  | literal value => exact safe_pure good trivial
  | fixed width => exact field (takesValue_fixed width)
  | vbr width => exact field (takesValue_vbr width)
  | array => exact safe_abort
  | char6 => exact field takesValue_char6
  | blob => exact safe_abort

theorem readRecord_safe (good : Good cursor) (abbrevID : Nat) (wantsBlob : Bool) :
    Safe (readRecord abbrevID wantsBlob)
      (fun record last => record.Inside last.stream.bitcodeBytes.length) cursor := by
  unfold readRecord
  split
  · refine Safe.bind (readVBR_safe good (by decide) (by decide)) fun code coded later _ => ?_
    refine Safe.bind (readVBR_safe later.good (by decide) (by decide)) fun numElts counted later _ => ?_
    refine Safe.bind (readAbbreviatedFields_safe properOp_vbr6 (takesValue_vbr 6) numElts later.good)
      fun vals done later _ => ?_
    exact safe_pure later.good nofun
  · refine Safe.bind (getAbbrev_safe good abbrevID) fun abbv next later proper => ?_
    cases abbv with
    | nil => exact absurd rfl proper.coded
    | cons op ops =>
        obtain ⟨here, rest⟩ := forall_mem_cons.mp proper.ops
        refine Safe.bind (readRecordCode_safe later.good here) fun code coded later _ => ?_
        exact readOperands_safe wantsBlob ops rest later.good nofun

/-! ### Records passed over -/

theorem skipVBRs_safe {width : Nat} (positive : 0 < width) (bounded : width ≤ 64) (count : Nat)
    {cursor : BitstreamCursor} (good : Good cursor) : Safe (skipVBRs width count) (fun _ _ => True) cursor := by
  induction count generalizing cursor with
  | zero => exact safe_pure good trivial
  | succ count ih =>
      exact Safe.bind (readVBR64_safe good positive bounded) fun _ next later _ => ih later.good

theorem skipElements_safe (good : Good cursor) {eltEnc : BitCodeAbbrevOp} (proper : ProperOp eltEnc)
    (encoded : eltEnc.isLiteral = false) (numElts : Nat) :
    Safe (skipElements numElts eltEnc) (fun _ _ => True) cursor := by
  cases eltEnc with
  | literal value => exact absurd encoded Bool.noConfusion
  | fixed width =>
      refine Safe.note fun reach => Safe.current ?_
      refine Safe.imp (jumpToBit_safe good reach (Nat.le_add_right _ _)) fun _ last later target => ?_
      rw [later.bytes] at target
      exact ⟨jump_served target, trivial⟩
  | vbr width => exact skipVBRs_safe proper.1 proper.2 numElts good
  | array => exact safe_abort
  | char6 =>
      refine Safe.note fun harmless => Safe.current ?_
      obtain ⟨reach, narrow⟩ : (cursor.stream.getCurrentBitNo + numElts * 6) / 64 * 8 ≤
        cursor.stream.bitcodeBytes.length ∧ numElts * 6 < 2 ^ 32 := harmless
      rw [Nat.mod_eq_of_lt narrow]
      refine Safe.imp (jumpToBit_safe good reach (Nat.le_add_right _ _)) fun _ last later target => ?_
      rw [later.bytes] at target
      exact ⟨jump_served target, trivial⟩
  | blob => exact safe_abort

theorem skipBlob_safe (good : Good cursor) : Safe skipBlob (fun _ _ => True) cursor := by
  refine Safe.bind (readVBR_safe good (by decide) (by decide)) fun numElts sized later _ => ?_
  refine Safe.bind (skipToFourByteBoundary_safe later.good) fun _ aligned later _ => ?_
  have good := later.good
  refine Safe.noteFree nofun fun short => Safe.current ?_
  dsimp only
  have far := blobEnd_eq aligned.stream.getCurrentBitNo short
  split
  · rename_i within
    have reach : blobEnd aligned.stream.getCurrentBitNo numElts / 8 ≤
        aligned.stream.bitcodeBytes.length := of_decide_eq_true within
    refine Safe.bind (jumpToBit_safe good (by omega) (by omega)) fun _ jumped later _ => ?_
    exact safe_pure later.good trivial
  · refine Safe.bind (skipToEnd_safe good) fun _ ended later _ => ?_
    exact safe_pure later.good trivial

theorem skipOperands_safe (ops : List BitCodeAbbrevOp) (proper : ∀ op ∈ ops, ProperOp op)
    {cursor : BitstreamCursor} (good : Good cursor) : Safe (skipOperands ops) (fun _ _ => True) cursor := by
  induction ops generalizing cursor with
  | nil => exact safe_pure good trivial
  | cons op ops ih =>
      obtain ⟨here, rest⟩ := forall_mem_cons.mp proper
      have field (takes : TakesValue op) :
          Safe (readAbbreviatedField op >>= fun _ => skipOperands ops) (fun _ _ => True) cursor :=
        Safe.bind (readAbbreviatedField_safe good here takes) fun _ _ later _ => ih rest later.good
      cases op with
      | literal value => exact ih rest good
      | fixed width => exact field (takesValue_fixed width)
      | vbr width => exact field (takesValue_vbr width)
      | char6 => exact field takesValue_char6
      | array =>
          refine Safe.bind (readVBR_safe good (by decide) (by decide)) fun numElts sized later _ => ?_
          refine Safe.noteFree (fun _ none => none) fun harmless => ?_
          obtain ⟨one, encoded⟩ : ops.length = 1 ∧ ∀ elt ∈ ops, elt.isLiteral = false := harmless
          obtain ⟨eltEnc, rfl⟩ := length_eq_one_iff.mp one
          exact skipElements_safe later.good (rest eltEnc mem_cons_self)
            (encoded eltEnc mem_cons_self) numElts
      | blob =>
          refine Safe.bind (skipBlob_safe good) fun within next later _ => ?_
          split
          · exact ih rest later.good
          · exact safe_pure later.good trivial

theorem skipRecordCode_safe (good : Good cursor) (proper : ProperOp op) :
    Safe (skipRecordCode op) (fun _ _ => True) cursor := by
  have field (takes : TakesValue op) :
      Safe (readAbbreviatedField op >>= fun code => pure (code % 2 ^ 32)) (fun _ _ => True) cursor :=
    Safe.bind (readAbbreviatedField_safe good proper takes) fun _ _ later _ => safe_pure later.good trivial
  cases op with
  | literal value => exact safe_pure good trivial
  | fixed width => exact field (takesValue_fixed width)
  | vbr width => exact field (takesValue_vbr width)
  | array => exact safe_throw good
  | char6 => exact field takesValue_char6
  | blob => exact safe_throw good

theorem readLength_safe (good : Good cursor)
    (ends : chainEnds 6 cursor.stream.bitsLeft (pendingBits cursor.stream) = true) :
    Safe (valueOrFault .errorAsValue (readVBR 6)) (fun _ _ => True) cursor := by
  refine meets_valueOrFault (Meets.imp (readVBRWith_meets good (by decide) (by decide))
    (fun _ _ holds => ⟨holds.1, trivial⟩) fun last stopped => ?_)
  rw [ends] at stopped
  exact Bool.noConfusion stopped.2

theorem skipRecord_safe (good : Good cursor) (abbrevID : Nat) :
    Safe (skipRecord abbrevID) (fun _ _ => True) cursor := by
  unfold skipRecord
  split
  · refine Safe.bind (readVBR_safe good (by decide) (by decide)) fun code coded later _ => ?_
    refine Safe.noteFree (fun _ none => none) fun ends => ?_
    refine Safe.bind (readLength_safe later.good ends) fun numElts counted later _ => ?_
    refine Safe.bind (skipVBRs_safe (by decide) (by decide) numElts later.good) fun _ done later _ => ?_
    exact safe_pure later.good trivial
  · refine Safe.bind (getAbbrev_safe good abbrevID) fun abbv next later proper => ?_
    cases abbv with
    | nil => exact absurd rfl proper.coded
    | cons op ops =>
        obtain ⟨here, rest⟩ := forall_mem_cons.mp proper.ops
        refine Safe.bind (skipRecordCode_safe later.good here) fun code coded later _ => ?_
        refine Safe.bind (skipOperands_safe ops rest later.good) fun _ done later _ => ?_
        exact safe_pure later.good trivial

/-! ### The block info block -/

def ProperInfos (infos : List BlockInfo) : Prop := ∀ info ∈ infos, ∀ abbv ∈ info.abbrevs, Proper abbv

instance : DecidablePred ProperInfos := fun infos =>
  inferInstanceAs (Decidable (∀ info ∈ infos, ∀ abbv ∈ info.abbrevs, Proper abbv))

def BlockInfoState.Fit (state : BlockInfoState) : Prop :=
  ProperInfos (state.records.map NamedBlockInfo.toBlockInfo)

theorem BlockInfoState.fit_setBlockID (fit : state.Fit) (blockID : Nat) :
    (state.setBlockID blockID).Fit := by
  unfold BlockInfoState.setBlockID
  split
  · exact fit
  · unfold BlockInfoState.Fit ProperInfos
    rw [map_append, forall_mem_append]
    refine ⟨fit, fun info new => ?_⟩
    rw [mem_singleton.mp new]
    exact fun abbv none => absurd none not_mem_nil

theorem BlockInfoState.fit_update (fit : state.Fit) (place : Nat)
    {updated : NamedBlockInfo → NamedBlockInfo}
    (keeps : ∀ info, (∀ abbv ∈ info.abbrevs, Proper abbv) → ∀ abbv ∈ (updated info).abbrevs, Proper abbv) :
    (state.update place updated).Fit := by
  have named : ∀ info ∈ state.records, ∀ abbv ∈ info.abbrevs, Proper abbv :=
    fun info here => fit info.toBlockInfo (List.mem_map_of_mem here)
  intro info here
  obtain ⟨other, among, rfl⟩ := List.mem_map.mp here
  obtain ⟨index, less, rfl⟩ := mem_iff_getElem.mp among
  change index < (state.records.modify place updated).length at less
  rw [length_modify] at less
  change ∀ abbv ∈ ((state.records.modify place updated)[index]).abbrevs, Proper abbv
  rw [getElem_modify]
  split
  · exact keeps _ (named _ (getElem_mem less))
  · exact named _ (getElem_mem less)

theorem readBlockInfoLoop_safe (readBlockInfoNames : Bool) (fuel : Nat) {cursor : BitstreamCursor}
    (fit : state.Fit) (good : Good cursor) (turns : cursor.stream.bitsLeft < fuel) :
    Safe (readBlockInfoLoop readBlockInfoNames fuel state)
      (fun infos _ => ∀ records, infos = some records → ProperInfos (records.map NamedBlockInfo.toBlockInfo))
      cursor := by
  induction fuel generalizing state cursor with
  | zero => exact absurd turns (Nat.not_lt_zero _)
  | succ fuel ih =>
      refine Safe.bind (advanceSkippingSubblocks_safe false true good) fun entry next later took => ?_
      cases entry with
      | subBlock | error => exact safe_pure later.good nofun
      | endBlock =>
          refine safe_pure later.good fun records same => ?_
          cases same
          exact fit
      | record abbrevID =>
          have less := took.resolve_left Entry.noConfusion
          dsimp only
          split
          · cases state.current with
            | none => exact safe_pure later.good nofun
            | some place =>
                refine Safe.bind (readAbbrev_safe later.good) fun abbv read later proper => ?_
                have left := later.left
                refine ih (state.fit_update fit place fun info rest => ?_) later.good (by omega)
                intro other here
                rcases mem_append.mp here with before | new
                · exact rest other before
                · rw [mem_singleton.mp new]
                  exact proper
          · refine Safe.bind (readRecord_safe later.good abbrevID false) fun record read later _ => ?_
            have left := later.left
            have turns : read.stream.bitsLeft < fuel := by omega
            split
            · cases record.vals with
              | nil => exact safe_pure later.good nofun
              | cons blockID rest => exact ih (state.fit_setBlockID fit _) later.good turns
            · split
              · cases state.current with
                | none => exact safe_pure later.good nofun
                | some place =>
                    dsimp only
                    split
                    · exact ih (state.fit_update fit place fun _ rest => rest) later.good turns
                    · exact ih fit later.good turns
              · split
                · cases state.current with
                  | none => exact safe_pure later.good nofun
                  | some place =>
                      dsimp only
                      split
                      · refine Safe.noteFree (fun _ none => none) fun some_ => ?_
                        cases vals : record.vals with
                        | nil => exact absurd vals some_
                        | cons recordID name =>
                            exact ih (state.fit_update fit place fun _ rest => rest) later.good turns
                      · exact ih fit later.good turns
                · exact ih fit later.good turns

theorem readBlockInfoBlock_safe (good : Good cursor) (readBlockInfoNames : Bool) :
    Safe (readBlockInfoBlock readBlockInfoNames)
      (fun infos _ => ∀ records, infos = some records → ProperInfos (records.map NamedBlockInfo.toBlockInfo))
      cursor := by
  refine Safe.bind (enterSubBlock_safe good _) fun _ entered later _ => Safe.current ?_
  exact readBlockInfoLoop_safe _ _ (fun _ none => absurd none not_mem_nil) later.good (Nat.lt_succ_self _)

end EvmBackend.CheckedReader
