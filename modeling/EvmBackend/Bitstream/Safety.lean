/-
What a checked read does to the bits that are still to come, and when the reads
built on it end without a fault.

The bits to come are those left in the current word and those of the bytes after
it; after an error the word may hold bits that were lost on the way, so they are
counted from the cursor and not from the start of the stream.
-/

import EvmBackend.Bitstream.Bits
import EvmBackend.Bitstream.Checked

namespace EvmBackend.CheckedReader

open BitLists CheckedPrograms CheckedPrograms.Program BitstreamCursor List

def pendingBits (stream : SimpleBitstreamCursor) : List Bool :=
  bitsOf stream.bitsInCurWord stream.curWord ++ bytesBits (stream.bitcodeBytes.drop stream.nextChar)

/-- The word holds no more than the bits it counts, and they were read before. -/
structure Sound (stream : SimpleBitstreamCursor) : Prop where
  inside : stream.nextChar ≤ stream.bitcodeBytes.length
  few : stream.bitsInCurWord < 64
  past : stream.bitsInCurWord ≤ 8 * stream.nextChar
  word : stream.bitsInCurWord ≠ 0 → stream.curWord < 2 ^ stream.bitsInCurWord

variable {stream : SimpleBitstreamCursor}

theorem Sound.bitsLeft (sound : Sound stream) :
    stream.bitsLeft = stream.bitsInCurWord + 8 * (stream.bitcodeBytes.length - stream.nextChar) := by
  have inside := sound.inside
  have past := sound.past
  unfold SimpleBitstreamCursor.bitsLeft SimpleBitstreamCursor.getCurrentBitNo
  omega

theorem Sound.length_pendingBits (sound : Sound stream) : (pendingBits stream).length = stream.bitsLeft := by
  rw [sound.bitsLeft, pendingBits, length_append, length_bitsOf, length_bytesBits, length_drop]

/-- The number of chunks up to the first without its highest bit, or up to the end
of the data. -/
def chainLength (numBits : Nat) : Nat → List Bool → Nat
  | 0, _ => 0
  | fuel + 1, bits =>
      if bits.length < numBits then 0
      else if bits.getD (numBits - 1) false then chainLength numBits fuel (bits.drop numBits) + 1
      else 1

def chainEnds (numBits : Nat) : Nat → List Bool → Bool
  | 0, _ => false
  | fuel + 1, bits =>
      if bits.length < numBits then false
      else if bits.getD (numBits - 1) false then chainEnds numBits fuel (bits.drop numBits)
      else true

/-- The lowest bits of the last chunk have their place in a number of the width. -/
def ChainFits (width numBits : Nat) (bits : List Bool) : Prop :=
  (chainLength numBits bits.length bits - 1) * (numBits - 1) < width

instance (width numBits : Nat) (bits : List Bool) : Decidable (ChainFits width numBits bits) :=
  inferInstanceAs (Decidable (_ < _))

/-- What the source relies on without a check of its own. -/
def Step.Harmless : Step → Prop
  | .read _ _ => True
  | .readVBR width numBits stream => numBits ≤ 32 ∧ ChainFits width numBits (pendingBits stream)
  | .readCode codeSize => 0 < codeSize ∧ codeSize ≤ maxChunkSize
  | .skipLength stream => chainEnds 6 stream.bitsLeft (pendingBits stream) = true
  | .skipArray elements => elements.length = 1 ∧ ∀ elt ∈ elements, elt.isLiteral = false
  | .skipFixed numElts width stream =>
      (stream.getCurrentBitNo + numElts * width) / 64 * 8 ≤ stream.bitcodeBytes.length
  | .skipChar6 numElts stream =>
      (stream.getCurrentBitNo + numElts * 6) / 64 * 8 ≤ stream.bitcodeBytes.length ∧ numElts * 6 < 2 ^ 32
  | .blob numElts _ => numElts + 3 < 2 ^ 29
  | .skipBlock _ _ => True
  | .recordName vals => vals ≠ []

def Step.RunsOut : Step → Prop
  | .read numBits stream => stream.bitsLeft < numBits
  | .skipFixed numElts width stream => stream.bitsLeft < numElts * width
  | .skipChar6 numElts stream => stream.bitsLeft < numElts * 6
  | .blob numElts stream => stream.bitsLeft < numElts * 8
  | .skipBlock numFourBytes stream => stream.bitsLeft < numFourBytes * 4 * 8
  | _ => False

def Step.isBlob : Step → Bool
  | .blob _ _ => true
  | _ => false

instance : DecidablePred Step.Harmless
  | .read _ _ => isTrue trivial
  | .readVBR width numBits stream =>
      inferInstanceAs (Decidable (numBits ≤ 32 ∧ ChainFits width numBits (pendingBits stream)))
  | .readCode codeSize => inferInstanceAs (Decidable (0 < codeSize ∧ codeSize ≤ maxChunkSize))
  | .skipLength stream => inferInstanceAs (Decidable (chainEnds 6 stream.bitsLeft (pendingBits stream) = true))
  | .skipArray elements =>
      inferInstanceAs (Decidable (elements.length = 1 ∧ ∀ elt ∈ elements, elt.isLiteral = false))
  | .skipFixed _ _ _ => Nat.decLe _ _
  | .skipChar6 _ _ => inferInstanceAs (Decidable (_ ≤ _ ∧ _ < _))
  | .blob _ _ => Nat.decLt _ _
  | .skipBlock _ _ => isTrue trivial
  | .recordName vals => inferInstanceAs (Decidable (vals ≠ []))

def terms : Terms Step where
  harmless := Step.Harmless
  served step := step.isBlob = false → ¬step.RunsOut

def ProperOp : BitCodeAbbrevOp → Prop
  | .fixed width => 0 < width ∧ width ≤ maxChunkSize
  | .vbr width => 0 < width ∧ width ≤ maxChunkSize
  | _ => True

structure Proper (abbv : BitCodeAbbrev) : Prop where
  coded : abbv ≠ []
  ops : ∀ op ∈ abbv, ProperOp op

instance : DecidablePred ProperOp
  | .fixed width => inferInstanceAs (Decidable (0 < width ∧ width ≤ maxChunkSize))
  | .vbr width => inferInstanceAs (Decidable (0 < width ∧ width ≤ maxChunkSize))
  | .literal _ | .array | .char6 | .blob => isTrue trivial

instance : DecidablePred Proper := fun abbv =>
  decidable_of_iff (abbv ≠ [] ∧ ∀ op ∈ abbv, ProperOp op)
    ⟨fun both => ⟨both.1, both.2⟩, fun proper => ⟨proper.coded, proper.ops⟩⟩

structure Good (cursor : BitstreamCursor) : Prop where
  sound : Sound cursor.stream
  abbrevs : ∀ abbv ∈ cursor.curAbbrevs, Proper abbv
  scope : ∀ block ∈ cursor.blockScope, ∀ abbv ∈ block.prevAbbrevs, Proper abbv
  info : ∀ infos, cursor.blockInfo = some infos → ∀ info ∈ infos, ∀ abbv ∈ info.abbrevs, Proper abbv

structure Later (cursor last : BitstreamCursor) : Prop where
  good : Good last
  bytes : last.stream.bitcodeBytes = cursor.stream.bitcodeBytes
  left : last.stream.bitsLeft ≤ cursor.stream.bitsLeft

/-- A good cursor on the same bytes, as an error leaves it. -/
structure Kept (cursor last : BitstreamCursor) : Prop where
  good : Good last
  bytes : last.stream.bitcodeBytes = cursor.stream.bitcodeBytes

variable {cursor middle last : BitstreamCursor}

theorem Good.later (good : Good cursor) : Later cursor cursor := ⟨good, rfl, Nat.le_refl _⟩

theorem Later.trans (one : Later cursor middle) (two : Later middle last) : Later cursor last :=
  ⟨two.good, two.bytes.trans one.bytes, Nat.le_trans two.left one.left⟩

theorem Good.kept (good : Good cursor) : Kept cursor cursor := ⟨good, rfl⟩

theorem Later.kept (later : Later cursor last) : Kept cursor last := ⟨later.good, later.bytes⟩

theorem Later.stopped (one : Later cursor middle) (two : Kept middle last) : Kept cursor last :=
  ⟨two.good, two.bytes.trans one.bytes⟩

theorem Good.withStream (good : Good cursor) (sound : Sound stream) : Good { cursor with stream := stream } :=
  ⟨sound, good.abbrevs, good.scope, good.info⟩

/-! ### Words and bits -/

theorem valueOf_topBit (bits : List Bool) {count : Nat} (positive : 0 < count) (within : count ≤ bits.length) :
    valueOf (bits.take count) / 2 ^ (count - 1) % 2 = (bits.getD (count - 1) false).toNat := by
  have sized : (bits.take count).length = count := length_take_of_le within
  have below : count - 1 < (bits.take count).length := by omega
  rw [← valueOf_drop _ _ (by omega), drop_eq_getElem_cons below, valueOf, Nat.add_mul_mod_self_left,
    getElem_take, getD_eq_getElem?_getD, List.getElem?_eq_getElem (by omega), Option.getD_some]
  exact Nat.mod_eq_of_lt (Nat.lt_succ_of_le (Bool.toNat_le _))

variable {numBits value : Nat}

theorem take_inWord (sound : Sound stream) (positive : 0 < numBits)
    (enough : numBits ≤ stream.bitsInCurWord) :
    stream.curWord % 2 ^ numBits = valueOf ((pendingBits stream).take numBits) ∧
      Sound { stream with
        curWord := stream.curWord >>> (numBits % 64), bitsInCurWord := stream.bitsInCurWord - numBits } ∧
      pendingBits { stream with
        curWord := stream.curWord >>> (numBits % 64), bitsInCurWord := stream.bitsInCurWord - numBits } =
          (pendingBits stream).drop numBits := by
  have few := sound.few
  have past := sound.past
  have word := sound.word (by omega)
  have narrow : numBits % 64 = numBits := Nat.mod_eq_of_lt (by omega)
  have split : bitsOf stream.bitsInCurWord stream.curWord = bitsOf numBits stream.curWord ++
      bitsOf (stream.bitsInCurWord - numBits) (stream.curWord / 2 ^ numBits) := by
    rw [← bitsOf_add, Nat.add_sub_cancel' enough]
  refine ⟨?_, ⟨sound.inside, ?_, ?_, fun some_ => ?_⟩, ?_⟩
  · rw [pendingBits, split, List.append_assoc, take_left' (length_bitsOf _ _), valueOf_bitsOf]
  · exact Nat.lt_of_le_of_lt (Nat.sub_le _ _) few
  · exact Nat.le_trans (Nat.sub_le _ _) past
  · change stream.curWord >>> (numBits % 64) < 2 ^ (stream.bitsInCurWord - numBits)
    rw [narrow, Nat.shiftRight_eq_div_pow, Nat.div_lt_iff_lt_mul (Nat.two_pow_pos _), ← Nat.pow_add,
      Nat.sub_add_cancel enough]
    exact word
  · rw [pendingBits, pendingBits, split, List.append_assoc, drop_left' (length_bitsOf _ _), narrow,
      Nat.shiftRight_eq_div_pow]

def filledWith (bytesRead : Nat) (stream : SimpleBitstreamCursor) : SimpleBitstreamCursor :=
  { stream with
    curWord := ofLittleEndian ((stream.bitcodeBytes.drop stream.nextChar).take bytesRead)
    nextChar := stream.nextChar + bytesRead
    bitsInCurWord := bytesRead * 8 }

theorem filledWith_bits {bytesRead : Nat} (within : stream.nextChar + bytesRead ≤ stream.bitcodeBytes.length) :
    (filledWith bytesRead stream).curWord =
        valueOf (bytesBits ((stream.bitcodeBytes.drop stream.nextChar).take bytesRead)) ∧
      (bytesBits ((stream.bitcodeBytes.drop stream.nextChar).take bytesRead)).length = bytesRead * 8 := by
  refine ⟨(valueOf_bytesBits _).symm, ?_⟩
  rw [length_bytesBits, length_take_of_le, Nat.mul_comm]
  rw [length_drop]
  omega

theorem take_across {bytesRead : Nat} (sound : Sound stream) (bounded : numBits ≤ 64)
    (short : stream.bitsInCurWord < numBits)
    (within : stream.nextChar + bytesRead ≤ stream.bitcodeBytes.length)
    (enough : numBits - stream.bitsInCurWord ≤ bytesRead * 8) (word : bytesRead ≤ 8) :
    (if stream.bitsInCurWord ≠ 0 then stream.curWord else 0) |||
        (((filledWith bytesRead stream).curWord % 2 ^ (numBits - stream.bitsInCurWord)) <<<
          (numBits - (numBits - stream.bitsInCurWord))) % 2 ^ 64 =
        valueOf ((pendingBits stream).take numBits) ∧
      Sound { filledWith bytesRead stream with
        curWord := (filledWith bytesRead stream).curWord >>> ((numBits - stream.bitsInCurWord) % 64)
        bitsInCurWord := bytesRead * 8 - (numBits - stream.bitsInCurWord) } ∧
      pendingBits { filledWith bytesRead stream with
        curWord := (filledWith bytesRead stream).curWord >>> ((numBits - stream.bitsInCurWord) % 64)
        bitsInCurWord := bytesRead * 8 - (numBits - stream.bitsInCurWord) } =
          (pendingBits stream).drop numBits := by
  obtain ⟨held, sized⟩ := filledWith_bits within
  generalize taken : bytesBits ((stream.bitcodeBytes.drop stream.nextChar).take bytesRead) = bits at held sized
  have rest : bytesBits (stream.bitcodeBytes.drop stream.nextChar) =
      bits ++ bytesBits (stream.bitcodeBytes.drop (stream.nextChar + bytesRead)) := by
    rw [← taken, ← bytesBits_append, ← drop_drop, take_append_drop]
  have lowLength : (bitsOf stream.bitsInCurWord stream.curWord).length = stream.bitsInCurWord := length_bitsOf _ _
  have low : (if stream.bitsInCurWord ≠ 0 then stream.curWord else 0) =
      valueOf (bitsOf stream.bitsInCurWord stream.curWord) := by
    split
    · rename_i some_
      exact (valueOf_bitsOf_lt (sound.word some_)).symm
    · rename_i none
      rw [not_not.mp none]
      rfl
  have high : (filledWith bytesRead stream).curWord % 2 ^ (numBits - stream.bitsInCurWord) =
      valueOf (bits.take (numBits - stream.bitsInCurWord)) := by
    rw [held, valueOf_take _ _ (by omega)]
  have lowBound := valueOf_lt (bitsOf stream.bitsInCurWord stream.curWord)
  have highBound := valueOf_lt (bits.take (numBits - stream.bitsInCurWord))
  rw [lowLength] at lowBound
  rw [length_take_of_le (by omega)] at highBound
  have wide : valueOf (bits.take (numBits - stream.bitsInCurWord)) <<< stream.bitsInCurWord < 2 ^ 64 := by
    rw [Nat.shiftLeft_eq]
    calc _ < 2 ^ (numBits - stream.bitsInCurWord) * 2 ^ stream.bitsInCurWord :=
          Nat.mul_lt_mul_of_pos_right highBound (Nat.two_pow_pos _)
      _ = 2 ^ numBits := by rw [← Nat.pow_add, Nat.sub_add_cancel (Nat.le_of_lt short)]
      _ ≤ 2 ^ 64 := Nat.pow_le_pow_right Nat.two_pos bounded
  have back : numBits - (numBits - stream.bitsInCurWord) = stream.bitsInCurWord :=
    Nat.sub_sub_self (Nat.le_of_lt short)
  have front : (pendingBits stream).take numBits =
      bitsOf stream.bitsInCurWord stream.curWord ++ bits.take (numBits - stream.bitsInCurWord) := by
    rw [pendingBits, rest, take_append, lowLength, take_of_length_le (by omega),
      take_append_of_le_length (by omega)]
  have behind : (pendingBits stream).drop numBits = bits.drop (numBits - stream.bitsInCurWord) ++
      bytesBits (stream.bitcodeBytes.drop (stream.nextChar + bytesRead)) := by
    rw [pendingBits, rest, drop_append, lowLength, drop_of_length_le (by omega), nil_append,
      drop_append_of_le_length (by omega)]
  -- A word that is used up whole is not shifted, but no bit of it counts.
  have left : bitsOf (bytesRead * 8 - (numBits - stream.bitsInCurWord))
      ((filledWith bytesRead stream).curWord >>> ((numBits - stream.bitsInCurWord) % 64)) =
        bits.drop (numBits - stream.bitsInCurWord) := by
    rcases Nat.lt_or_ge (numBits - stream.bitsInCurWord) 64 with narrow | whole
    · have dropped : (bits.drop (numBits - stream.bitsInCurWord)).length =
          bytesRead * 8 - (numBits - stream.bitsInCurWord) := by
        rw [length_drop, sized]
      rw [Nat.mod_eq_of_lt narrow, Nat.shiftRight_eq_div_pow, held, ← valueOf_drop _ _ (by omega), ← dropped,
        bitsOf_valueOf]
    · have none : bytesRead * 8 - (numBits - stream.bitsInCurWord) = 0 := by omega
      rw [none, drop_of_length_le (by omega)]
      rfl
  refine ⟨?_, ⟨within, ?_, ?_, fun some_ => ?_⟩, ?_⟩
  · rw [low, high, back, Nat.mod_eq_of_lt wide, front, valueOf_append, lowLength,
      Bitstream.or_shiftLeft _ lowBound, Nat.mul_comm]
  · change bytesRead * 8 - (numBits - stream.bitsInCurWord) < 64
    omega
  · change bytesRead * 8 - (numBits - stream.bitsInCurWord) ≤ 8 * (stream.nextChar + bytesRead)
    omega
  · change bytesRead * 8 - (numBits - stream.bitsInCurWord) ≠ 0 at some_
    change _ >>> _ < 2 ^ (bytesRead * 8 - (numBits - stream.bitsInCurWord))
    have narrow : numBits - stream.bitsInCurWord < 64 := by omega
    have bound := valueOf_lt bits
    rw [sized] at bound
    rw [Nat.mod_eq_of_lt narrow, Nat.shiftRight_eq_div_pow, held, Nat.div_lt_iff_lt_mul (Nat.two_pow_pos _),
      ← Nat.pow_add, Nat.sub_add_cancel enough]
    exact bound
  · rw [behind, ← left]
    rfl

/-! ### Reads -/

structure Took (numBits : Nat) (cursor : BitstreamCursor) (value : Nat) (last : BitstreamCursor) : Prop where
  later : Later cursor last
  enough : numBits ≤ cursor.stream.bitsLeft
  value : value = valueOf ((pendingBits cursor.stream).take numBits)
  rest : pendingBits last.stream = (pendingBits cursor.stream).drop numBits

theorem Took.left (good : Good cursor) (took : Took numBits cursor value last) :
    last.stream.bitsLeft + numBits = cursor.stream.bitsLeft := by
  have enough := took.enough
  have length := congrArg List.length took.rest
  rw [took.later.good.sound.length_pendingBits, length_drop, good.sound.length_pendingBits] at length
  omega

theorem Took.small (took : Took numBits cursor value last) : value < 2 ^ numBits := by
  have bound := valueOf_lt ((pendingBits cursor.stream).take numBits)
  have short : ((pendingBits cursor.stream).take numBits).length ≤ numBits := length_take_le _ _
  rw [took.value]
  exact Nat.lt_of_lt_of_le bound (Nat.pow_le_pow_right Nat.two_pos short)

theorem later_of_pending {bits : List Bool} {count : Nat} (good : Good cursor) (sound : Sound stream)
    (bytes : stream.bitcodeBytes = cursor.stream.bitcodeBytes) (same : pendingBits cursor.stream = bits)
    (rest : pendingBits stream = bits.drop count) : Later cursor { cursor with stream := stream } := by
  have length := congrArg List.length rest
  rw [sound.length_pendingBits, length_drop, ← same, good.sound.length_pendingBits] at length
  exact ⟨good.withStream sound, bytes, by change stream.bitsLeft ≤ _; omega⟩

theorem fillCurWord_meets {after : Unit → BitstreamCursor → Prop}
    {failed : BitstreamCursor → Prop}
    (ended : cursor.stream.bitcodeBytes.length ≤ cursor.stream.nextChar → failed cursor)
    (filled : ∀ bytesRead, bytesRead ≤ 8 → 0 < bytesRead →
      cursor.stream.nextChar + bytesRead ≤ cursor.stream.bitcodeBytes.length →
      (bytesRead = 8 ∨ cursor.stream.nextChar + bytesRead = cursor.stream.bitcodeBytes.length) →
      after () { cursor with stream := filledWith bytesRead cursor.stream }) :
    Meets terms fillCurWord after failed cursor := by
  refine meets_current_bind ?_
  dsimp only
  split
  · rename_i none
    exact meets_throw (ended none)
  · rename_i more
    generalize counted : (if cursor.stream.nextChar + 8 ≤ cursor.stream.bitcodeBytes.length then 8
      else cursor.stream.bitcodeBytes.length - cursor.stream.nextChar) = bytesRead
    have bounds : bytesRead ≤ 8 ∧ 0 < bytesRead ∧
        cursor.stream.nextChar + bytesRead ≤ cursor.stream.bitcodeBytes.length ∧
        (bytesRead = 8 ∨ cursor.stream.nextChar + bytesRead = cursor.stream.bitcodeBytes.length) := by
      split at counted <;> omega
    refine Meets.bind (meets_current_bind (meets_require bounds.2.2.1 ?_))
    refine meets_require_bind (by omega) (meets_change ?_)
    exact filled bytesRead bounds.1 bounds.2.1 bounds.2.2.1 bounds.2.2.2

theorem read_meets (good : Good cursor) (positive : 0 < numBits) (bounded : numBits ≤ 64) :
    Meets terms (read numBits) (Took numBits cursor)
      (fun last => Later cursor last ∧ cursor.stream.bitsLeft < numBits) cursor := by
  have sound := good.sound
  have few := sound.few
  have left := sound.bitsLeft
  have length := sound.length_pendingBits
  refine meets_note fun _ => ?_
  refine meets_require_bind ⟨Nat.pos_iff_ne_zero.mp positive, bounded⟩ (meets_current_bind ?_)
  dsimp only
  split
  · rename_i enough
    obtain ⟨value, sound', rest⟩ := take_inWord sound positive enough
    refine meets_require_bind (by omega) (meets_require_bind (by omega) (meets_change_bind (meets_pure ?_)))
    refine ⟨fun _ => Nat.not_lt.mpr (by omega), ?_, by omega, value, rest⟩
    exact later_of_pending good sound' rfl rfl rest
  · rename_i short
    refine Meets.bind (fillCurWord_meets (fun none => ?_) fun bytesRead word some_ within whole => ?_)
    · exact ⟨good.later, by omega⟩
    · refine meets_current_bind ?_
      dsimp only
      split
      · rename_i lacking
        change bytesRead * 8 < _ at lacking
        have sound' : Sound (filledWith bytesRead cursor.stream) := by
          obtain ⟨held, sized⟩ := filledWith_bits within
          refine ⟨within, ?_, ?_, fun _ => ?_⟩
          · change bytesRead * 8 < 64
            omega
          · change bytesRead * 8 ≤ 8 * (cursor.stream.nextChar + bytesRead)
            omega
          · change (filledWith bytesRead cursor.stream).curWord < 2 ^ (bytesRead * 8)
            rw [held, ← sized]
            exact valueOf_lt _
        refine meets_throw ⟨⟨good.withStream sound', rfl, ?_⟩, by omega⟩
        have left' := sound'.bitsLeft
        change (filledWith bytesRead cursor.stream).bitsLeft = bytesRead * 8 +
          8 * (cursor.stream.bitcodeBytes.length - (cursor.stream.nextChar + bytesRead)) at left'
        change (filledWith bytesRead cursor.stream).bitsLeft ≤ _
        omega
      · rename_i fits
        change ¬bytesRead * 8 < _ at fits
        obtain ⟨value, sound', rest⟩ := take_across sound bounded (by omega) within (by omega) word
        refine meets_require_bind (by omega) (meets_require_bind (by omega) (meets_require_bind (by omega) ?_))
        refine meets_change_bind (meets_pure ⟨fun _ => Nat.not_lt.mpr (by omega), ?_, by omega, value, rest⟩)
        exact later_of_pending good sound' rfl rfl rest

theorem Took.chain (good : Good cursor) (positive : 0 < numBits)
    (took : Took numBits cursor value last) (fuel : Nat) :
    chainLength numBits (fuel + 1) (pendingBits cursor.stream) =
        (if value / 2 ^ (numBits - 1) % 2 = 0 then 0
          else chainLength numBits fuel (pendingBits last.stream)) + 1 ∧
      chainEnds numBits (fuel + 1) (pendingBits cursor.stream) =
        if value / 2 ^ (numBits - 1) % 2 = 0 then true else chainEnds numBits fuel (pendingBits last.stream) := by
  have length := good.sound.length_pendingBits
  have enough : ¬(pendingBits cursor.stream).length < numBits := Nat.not_lt.mpr (length ▸ took.enough)
  have top := valueOf_topBit (pendingBits cursor.stream) positive (Nat.not_lt.mp enough)
  rw [← took.value] at top
  rw [chainLength, chainEnds, if_neg enough, if_neg enough, top, ← took.rest]
  cases (pendingBits cursor.stream).getD (numBits - 1) false with
  | false | true => exact ⟨rfl, rfl⟩

theorem chainEnds_short {fuel : Nat} {bits : List Bool} (short : bits.length < numBits) :
    chainEnds numBits fuel bits = false := by
  cases fuel with
  | zero => rfl
  | succ fuel => rw [chainEnds, if_pos short]

theorem readVBRLoop_meets {width : Nat} (positive : 0 < numBits) (narrow : numBits ≤ 32)
    (fuel : Nat) :
    ∀ (depth chunk result piece : Nat) {cursor : BitstreamCursor}, Good cursor → cursor.stream.bitsLeft < fuel →
      cursor.stream.bitsLeft ≤ depth →
      (chunk + if piece / 2 ^ (numBits - 1) % 2 = 0 then 0
        else chainLength numBits depth (pendingBits cursor.stream)) * (numBits - 1) < width →
      Meets terms (readVBRLoop width numBits fuel result (chunk * (numBits - 1)) piece)
        (fun _ last => Later cursor last)
        (fun last => Later cursor last ∧ piece / 2 ^ (numBits - 1) % 2 ≠ 0 ∧
          chainEnds numBits depth (pendingBits cursor.stream) = false) cursor := by
  induction fuel with
  | zero =>
      intro depth chunk result piece cursor good turns
      exact absurd turns (Nat.not_lt_zero _)
  | succ fuel ih =>
      intro depth chunk result piece cursor good turns deep fits
      have placed : chunk * (numBits - 1) < width :=
        Nat.lt_of_le_of_lt (Nat.mul_le_mul_right _ (Nat.le_add_right _ _)) fits
      refine meets_require_bind (by omega) (meets_require_bind placed ?_)
      dsimp only
      split
      · exact meets_pure good.later
      · rename_i more
        rw [if_neg more] at fits
        refine Meets.bind (Meets.imp (read_meets good positive (by omega)) (fun value last took => ?_) ?_)
        · have left := took.left good
          obtain ⟨depth, rfl⟩ : ∃ less, depth = less + 1 := ⟨depth - 1, by omega⟩
          obtain ⟨counted, ends⟩ := took.chain good positive depth
          have small : value % 2 ^ 32 = value :=
            Nat.mod_eq_of_lt (Nat.lt_of_lt_of_le took.small (Nat.pow_le_pow_right Nat.two_pos narrow))
          have next : chunk * (numBits - 1) + (numBits - 1) = (chunk + 1) * (numBits - 1) :=
            (Nat.succ_mul _ _).symm
          rw [small, next]
          refine Meets.imp (ih depth (chunk + 1) _ _ took.later.good (by omega) (by omega) ?_)
            (fun _ _ later => ?_) fun _ stopped => ?_
          · rw [counted, Nat.add_comm _ 1, ← Nat.add_assoc] at fits
            exact fits
          · exact took.later.trans later
          · refine ⟨took.later.trans stopped.1, more, ?_⟩
            rw [ends, if_neg stopped.2.1]
            exact stopped.2.2
        · rintro last ⟨later, short⟩
          refine ⟨later, more, chainEnds_short ?_⟩
          rw [good.sound.length_pendingBits]
          exact short

theorem readVBRWith_meets (good : Good cursor) {width : Nat} (positive : 0 < numBits)
    (bounded : numBits ≤ 64) :
    Meets terms (readVBRWith width numBits)
      (fun _ last => Later cursor last ∧ last.stream.bitsLeft + numBits ≤ cursor.stream.bitsLeft)
      (fun last => Later cursor last ∧
        chainEnds numBits cursor.stream.bitsLeft (pendingBits cursor.stream) = false) cursor := by
  refine meets_note fun harmless => ?_
  obtain ⟨narrow, fits⟩ : numBits ≤ 32 ∧ ChainFits width numBits (pendingBits cursor.stream) := harmless
  refine Meets.bind (Meets.imp (read_meets good positive bounded) (fun value middle took => ?_) ?_)
  · have left := took.left good
    have small : value % 2 ^ 32 = value :=
      Nat.mod_eq_of_lt (Nat.lt_of_lt_of_le took.small (Nat.pow_le_pow_right Nat.two_pos narrow))
    obtain ⟨depth, deep⟩ : ∃ less, cursor.stream.bitsLeft = less + 1 := ⟨cursor.stream.bitsLeft - 1, by omega⟩
    obtain ⟨counted, ends⟩ := took.chain good positive depth
    refine meets_require_bind (by omega) ?_
    rw [small]
    split
    · exact meets_pure ⟨fun _ => id, took.later, by omega⟩
    · rename_i more
      rw [ChainFits, good.sound.length_pendingBits, deep, counted, Nat.add_sub_cancel,
        ← Nat.zero_add (ite _ _ _)] at fits
      have start := readVBRLoop_meets positive narrow _ depth 0 0 value took.later.good
        (Nat.lt_succ_self _) (by omega) fits
      rw [Nat.zero_mul] at start
      refine meets_current_bind (Meets.imp start (fun _ last later => ?_) fun last stopped => ?_)
      · have less := later.left
        exact ⟨fun _ => id, took.later.trans later, by omega⟩
      · refine ⟨took.later.trans stopped.1, ?_⟩
        rw [deep, ends, if_neg stopped.2.1]
        exact stopped.2.2
  · rintro last ⟨later, short⟩
    refine ⟨later, chainEnds_short ?_⟩
    rw [good.sound.length_pendingBits]
    exact short

variable {Result Other : Type}

/-- A program that leaves a good cursor on the same bytes, and not behind unless it
gives an error. -/
def Safe (program : Reader Result) (gives : Result → BitstreamCursor → Prop) (cursor : BitstreamCursor) : Prop :=
  Steady terms Later Kept program gives cursor

theorem Safe.bind {program : Reader Result} {next : Result → Reader Other}
    {gives : Result → BitstreamCursor → Prop} {result : Other → BitstreamCursor → Prop}
    (first : Safe program gives cursor)
    (second : ∀ value middle, Later cursor middle → gives value middle → Safe (next value) result middle) :
    Safe (program >>= next) result cursor :=
  Steady.bind Later.trans Later.stopped first second

theorem read_safe (good : Good cursor) (positive : 0 < numBits) (bounded : numBits ≤ 64) :
    Safe (read numBits) (fun value last => value < 2 ^ numBits ∧
      last.stream.bitsLeft + numBits ≤ cursor.stream.bitsLeft) cursor :=
  Meets.imp (read_meets good positive bounded)
    (fun _ _ took => ⟨took.later, took.small, Nat.le_of_eq (took.left good)⟩) fun _ stopped => stopped.1.kept

theorem readVBRWith_safe (good : Good cursor) (width : Nat) (positive : 0 < numBits)
    (bounded : numBits ≤ 64) :
    Safe (readVBRWith width numBits)
      (fun _ last => last.stream.bitsLeft + numBits ≤ cursor.stream.bitsLeft) cursor :=
  Meets.imp (readVBRWith_meets good positive bounded) (fun _ _ holds => holds) fun _ stopped => stopped.1.kept

/-! ### Moving the cursor -/

theorem Sound.skipToFourByteBoundary (sound : Sound stream) :
    Sound stream.skipToFourByteBoundary ∧
      stream.skipToFourByteBoundary.bitcodeBytes = stream.bitcodeBytes ∧
      stream.skipToFourByteBoundary.bitsLeft ≤ stream.bitsLeft ∧
      stream.skipToFourByteBoundary.getCurrentBitNo % 8 = 0 := by
  have few := sound.few
  have past := sound.past
  have left := sound.bitsLeft
  have inside := sound.inside
  unfold SimpleBitstreamCursor.skipToFourByteBoundary
  split
  · rename_i many
    have word := sound.word (by omega)
    have sound' : Sound { stream with
        curWord := stream.curWord >>> (stream.bitsInCurWord - 32), bitsInCurWord := 32 } := by
      refine ⟨inside, ?_, ?_, fun _ => ?_⟩
      · change 32 < 64
        omega
      · change 32 ≤ 8 * stream.nextChar
        omega
      · change stream.curWord >>> (stream.bitsInCurWord - 32) < 2 ^ 32
        rw [Nat.shiftRight_eq_div_pow, Nat.div_lt_iff_lt_mul (Nat.two_pow_pos _), ← Nat.pow_add,
          Nat.add_sub_cancel' many]
        exact word
    refine ⟨sound', rfl, ?_, ?_⟩
    · rw [sound'.bitsLeft, left]
      exact Nat.add_le_add_right many _
    · change (stream.nextChar * 8 - 32) % 8 = 0
      omega
  · have sound' : Sound { stream with bitsInCurWord := 0 } :=
      ⟨inside, Nat.zero_lt_succ 63, Nat.zero_le _, fun some_ => absurd rfl some_⟩
    refine ⟨sound', rfl, ?_, ?_⟩
    · rw [sound'.bitsLeft, left]
      exact Nat.add_le_add_right (Nat.zero_le _) _
    · change (stream.nextChar * 8 - 0) % 8 = 0
      omega

theorem skipToFourByteBoundary_safe (good : Good cursor) :
    Safe skipToFourByteBoundary (fun _ last => last.stream.getCurrentBitNo % 8 = 0) cursor := by
  obtain ⟨sound, bytes, left, aligned⟩ := good.sound.skipToFourByteBoundary
  have few := good.sound.few
  refine meets_current_bind ?_
  split
  · refine meets_require_bind (by omega) (meets_change ?_)
    exact ⟨⟨good.withStream sound, bytes, left⟩, aligned⟩
  · exact meets_change ⟨⟨good.withStream sound, bytes, left⟩, aligned⟩

theorem skipToEnd_safe (good : Good cursor) : Safe skipToEnd (fun _ _ => True) cursor := by
  have inside := good.sound.inside
  have past := good.sound.past
  have sound : Sound cursor.stream.skipToEnd :=
    ⟨Nat.le_refl _, good.sound.few, Nat.le_trans past (Nat.mul_le_mul_left 8 inside), good.sound.word⟩
  refine meets_current_bind (meets_change ⟨⟨good.withStream sound, rfl, ?_⟩, trivial⟩)
  have left := good.sound.bitsLeft
  have left' := sound.bitsLeft
  change cursor.stream.skipToEnd.bitsLeft = cursor.stream.bitsInCurWord +
    8 * (cursor.stream.bitcodeBytes.length - cursor.stream.bitcodeBytes.length) at left'
  change cursor.stream.skipToEnd.bitsLeft ≤ _
  omega

def movedTo (byteNo : Nat) (stream : SimpleBitstreamCursor) : SimpleBitstreamCursor :=
  { stream with nextChar := byteNo, bitsInCurWord := 0 }

theorem movedTo_sound {byteNo : Nat} (reach : byteNo ≤ stream.bitcodeBytes.length) :
    Sound (movedTo byteNo stream) ∧
      (movedTo byteNo stream).bitsLeft = 8 * (stream.bitcodeBytes.length - byteNo) := by
  have sound : Sound (movedTo byteNo stream) :=
    ⟨reach, Nat.zero_lt_succ 63, Nat.zero_le _, fun some_ => absurd rfl some_⟩
  refine ⟨sound, ?_⟩
  rw [sound.bitsLeft]
  exact Nat.zero_add _

theorem jumpToBit_safe (good : Good cursor) {target : Nat}
    (reach : target / 64 * 8 ≤ cursor.stream.bitcodeBytes.length)
    (forward : cursor.stream.getCurrentBitNo ≤ target) :
    Safe (jumpToBit target) (fun _ last => target ≤ 8 * last.stream.bitcodeBytes.length) cursor := by
  have word : target / 8 / 8 * 8 = target / 64 * 8 := by omega
  have left := good.sound.bitsLeft
  have past := good.sound.past
  have inside := good.sound.inside
  unfold SimpleBitstreamCursor.getCurrentBitNo at forward
  obtain ⟨sound, left'⟩ := movedTo_sound (word ▸ reach)
  have moved := good.withStream sound
  refine meets_current_bind ?_
  refine meets_require_bind (decide_eq_true (word ▸ reach)) (meets_change_bind ?_)
  dsimp only
  split
  · rename_i some_
    refine Meets.bind
      (Meets.imp (read_meets moved (Nat.pos_of_ne_zero some_) (by omega)) (fun _ last took => ?_) ?_)
    · have taken : last.stream.bitsLeft + target % 64 = (movedTo (target / 8 / 8 * 8) cursor.stream).bitsLeft :=
        took.left moved
      have bytes : last.stream.bitcodeBytes = cursor.stream.bitcodeBytes := took.later.bytes
      refine meets_pure ⟨⟨took.later.good, bytes, ?_⟩, ?_⟩
      · omega
      · rw [bytes]
        omega
    · rintro last ⟨later, -⟩
      exact ⟨later.good, later.bytes⟩
  · rename_i none
    refine meets_pure ⟨⟨moved, rfl, ?_⟩, ?_⟩
    · change (movedTo (target / 8 / 8 * 8) cursor.stream).bitsLeft ≤ _
      omega
    · change target ≤ 8 * cursor.stream.bitcodeBytes.length
      omega

end EvmBackend.CheckedReader
