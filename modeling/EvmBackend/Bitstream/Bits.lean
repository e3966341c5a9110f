/-
Writer and reader at the level of bits. What the writer has written so far is a
list of bits, and every way to emit adds to its end; the cursor is at a place in
the list, and every read takes the bits from there. A value the writer emits is
carried over if the matching read gives it back, wherever the bits stand.
-/

import EvmBackend.Bitstream.Writer
import EvmBackend.Bitstream.Reader

namespace EvmBackend.Bitstream

open BitLists List

/-! ### The writer -/

structure Good (writer : BitstreamWriter) : Prop where
  curBit : writer.curBit < 32
  curValue : writer.curValue < 2 ^ writer.curBit
  words : writer.out.length % 4 = 0

def written (writer : BitstreamWriter) : List Bool :=
  bytesBits writer.out ++ bitsOf writer.curBit writer.curValue

def SameState (writer next : BitstreamWriter) : Prop :=
  next = { writer with out := next.out, curBit := next.curBit, curValue := next.curValue }

variable {writer next last : BitstreamWriter}

theorem SameState.refl (writer : BitstreamWriter) : SameState writer writer := rfl

theorem SameState.trans (one : SameState writer next) (two : SameState next last) :
    SameState writer last := by
  unfold SameState at *
  rw [two, one]

theorem or_shiftLeft {low count : Nat} (high : Nat) (small : low < 2 ^ count) :
    low ||| high <<< count = low + high * 2 ^ count := by
  rw [Nat.or_comm, ← Nat.shiftLeft_add_eq_or_of_lt small, Nat.shiftLeft_eq, Nat.add_comm]

theorem length_written (writer : BitstreamWriter) :
    (written writer).length = 8 * writer.out.length + writer.curBit := by
  rw [written, length_append, length_bytesBits, length_bitsOf]

theorem length_written_mod (good : Good writer) : (written writer).length % 32 = writer.curBit := by
  have words := good.words
  have curBit := good.curBit
  rw [length_written]
  omega

variable {val result nextBit : Nat} {code : List Bool}

theorem emit_written {numBits : Nat} (good : Good writer)
    (emitted : writer.emit val numBits = some next) :
    (0 < numBits ∧ numBits ≤ 32 ∧ val < 2 ^ numBits) ∧ Good next ∧ SameState writer next ∧
      written next = written writer ++ bitsOf numBits val := by
  obtain ⟨out, curBit, curValue, codeSize, curBID, abbrevs, scope, records⟩ := writer
  obtain ⟨inWord, held, words⟩ := good
  simp only at inWord held words
  unfold BitstreamWriter.emit at emitted
  split at emitted
  · rename_i asserted
    obtain ⟨positive, bounded, fits⟩ := asserted
    refine ⟨⟨Nat.pos_of_ne_zero positive, bounded, fits⟩, ?_⟩
    have joined : bitsOf (curBit + numBits) (curValue + val * 2 ^ curBit) =
        bitsOf curBit curValue ++ bitsOf numBits val := bitsOf_join curValue val held
    have truncated : curValue ||| (val <<< curBit) % 2 ^ 32 =
        (curValue + val * 2 ^ curBit) % 2 ^ 32 := by
      have below : curValue < 2 ^ 32 :=
        Nat.lt_of_lt_of_le held (Nat.pow_le_pow_right Nat.two_pos (Nat.le_of_lt inWord))
      rw [← or_shiftLeft val held, Nat.or_mod_two_pow, Nat.mod_eq_of_lt below]
    simp only [truncated] at emitted
    split at emitted
    · rename_i short
      cases emitted
      have small : curValue + val * 2 ^ curBit < 2 ^ (curBit + numBits) := by
        have top : val + 1 ≤ 2 ^ numBits := fits
        have scaled := Nat.mul_le_mul_right (2 ^ curBit) top
        rw [Nat.pow_add, Nat.mul_comm (2 ^ curBit)]
        rw [Nat.add_mul, Nat.one_mul] at scaled
        omega
      have below : curValue + val * 2 ^ curBit < 2 ^ 32 :=
        Nat.lt_of_lt_of_le small (Nat.pow_le_pow_right Nat.two_pos (Nat.le_of_lt short))
      refine ⟨⟨short, ?_, words⟩, rfl, ?_⟩
      · simp only [Nat.mod_eq_of_lt below]
        exact small
      · simp only [written, Nat.mod_eq_of_lt below, joined, List.append_assoc]
    · rename_i long
      cases emitted
      -- The word is full: its bits go out, those that do not fit stay.
      have wraps : (curBit + numBits) % 32 = curBit + numBits - 32 := by omega
      have full : bitsOf (curBit + numBits) (curValue + val * 2 ^ curBit) =
          bitsOf 32 (curValue + val * 2 ^ curBit) ++
            bitsOf (curBit + numBits - 32) ((curValue + val * 2 ^ curBit) / 2 ^ 32) := by
        rw [← bitsOf_add]
        congr 1
        omega
      have carried : (if curBit ≠ 0 then val >>> (32 - curBit) else 0) =
          (curValue + val * 2 ^ curBit) / 2 ^ 32 := by
        split
        · have split : (2 : Nat) ^ 32 = 2 ^ curBit * 2 ^ (32 - curBit) := by
            rw [← Nat.pow_add]
            congr 1
            omega
          rw [Nat.shiftRight_eq_div_pow, split, ← Nat.div_div_eq_div_mul,
            Nat.add_mul_div_right _ _ (Nat.two_pow_pos curBit), Nat.div_eq_of_lt held, Nat.zero_add]
        · rename_i zero
          have none : curBit = 0 := not_not.mp zero
          subst none
          have below : curValue + val * 2 ^ 0 < 2 ^ 32 := by
            have width : numBits = 32 := by omega
            subst width
            rw [Nat.pow_zero] at held ⊢
            omega
          exact (Nat.div_eq_of_lt below).symm
      have small : (curValue + val * 2 ^ curBit) / 2 ^ 32 < 2 ^ (curBit + numBits - 32) := by
        rw [Nat.div_lt_iff_lt_mul (Nat.two_pow_pos 32), ← Nat.pow_add]
        have top : val + 1 ≤ 2 ^ numBits := fits
        have scaled := Nat.mul_le_mul_right (2 ^ curBit) top
        have width : curBit + numBits - 32 + 32 = numBits + curBit := by omega
        rw [width, Nat.pow_add]
        rw [Nat.add_mul, Nat.one_mul] at scaled
        omega
      refine ⟨⟨?_, ?_, ?_⟩, rfl, ?_⟩
      · exact Nat.mod_lt _ (by decide)
      · simp only [carried, wraps]
        exact small
      · simp only [BitstreamWriter.writeWord, length_append, length_littleEndian]
        omega
      · simp only [written, BitstreamWriter.writeWord, bytesBits_append, bytesBits_littleEndian,
          carried, wraps]
        rw [bitsOf_mod _ (Nat.le_refl 32), List.append_assoc, ← full, joined, List.append_assoc]
  · cases emitted

theorem flushToWord_written (good : Good writer) :
    Good writer.flushToWord ∧ SameState writer writer.flushToWord ∧
      writer.flushToWord.curBit = 0 ∧
      written writer.flushToWord =
        written writer ++ List.replicate ((32 - (written writer).length % 32) % 32) false := by
  have length := length_written_mod good
  rw [length]
  obtain ⟨inWord, held, words⟩ := good
  unfold BitstreamWriter.flushToWord
  split
  · rename_i some_
    refine ⟨⟨Nat.zero_lt_succ 31, Nat.one_pos, ?_⟩, rfl, rfl, ?_⟩
    · simp only [BitstreamWriter.writeWord, length_append, length_littleEndian]
      omega
    · have padded : bitsOf 32 writer.curValue = bitsOf writer.curBit writer.curValue ++
          List.replicate ((32 - writer.curBit) % 32) false := by
        have whole : 32 = writer.curBit + (32 - writer.curBit) % 32 := by omega
        conv_lhs => rw [whole]
        rw [bitsOf_add, Nat.div_eq_of_lt held, bitsOf_zero]
      have word : bytesBits (littleEndian 4 writer.curValue) = bitsOf 32 writer.curValue :=
        bytesBits_littleEndian 4 _
      have empty : bitsOf 0 0 = [] := rfl
      simp only [written, BitstreamWriter.writeWord, bytesBits_append, word, padded, empty,
        append_nil, List.append_assoc]
  · rename_i none
    have zero := not_not.mp none
    refine ⟨⟨inWord, held, words⟩, rfl, zero, ?_⟩
    rw [zero]
    exact (append_nil _).symm

/-! ### The reader -/

/-- The cursor is before the bit at the place. What is left of its word are the
bits up to the next character. -/
structure At (cursor : SimpleBitstreamCursor) (bits : List Bool) (place : Nat) : Prop where
  contents : bytesBits cursor.bitcodeBytes = bits
  words : cursor.bitcodeBytes.length % 4 = 0
  inside : cursor.nextChar ≤ cursor.bitcodeBytes.length
  chunks : cursor.nextChar % 8 = 0 ∨ cursor.nextChar = cursor.bitcodeBytes.length
  left : cursor.bitsInCurWord < 64
  spot : place + cursor.bitsInCurWord = 8 * cursor.nextChar
  word : cursor.bitsInCurWord ≠ 0 →
    cursor.curWord = valueOf ((bits.drop place).take cursor.bitsInCurWord)

variable {cursor : SimpleBitstreamCursor} {bits : List Bool} {place : Nat}

namespace At

variable (here : At cursor bits place)

include here

theorem length : bits.length = 8 * cursor.bitcodeBytes.length := by
  rw [← here.contents, length_bytesBits]

theorem bitNo : cursor.getCurrentBitNo = place := by
  have same := here.spot
  unfold SimpleBitstreamCursor.getCurrentBitNo
  omega

theorem bitsLeft : cursor.bitsLeft = bits.length - place := by
  unfold SimpleBitstreamCursor.bitsLeft
  rw [here.bitNo, here.length]

theorem atEnd : cursor.atEndOfStream = decide (bits.length ≤ place) := by
  have same := here.spot
  have length := here.length
  have inside := here.inside
  unfold SimpleBitstreamCursor.atEndOfStream
  rw [Bool.eq_iff_iff, Bool.and_eq_true, beq_iff_eq, decide_eq_true_iff, decide_eq_true_iff]
  omega

theorem low : (if cursor.bitsInCurWord ≠ 0 then cursor.curWord else 0) =
    valueOf ((bits.drop place).take cursor.bitsInCurWord) := by
  split
  · rename_i some_
    exact here.word some_
  · rename_i none
    rw [not_not.mp none]
    rfl

end At

theorem take_take_drop (count more place : Nat) (within : count ≤ more) :
    ((bits.drop place).take more).take count = (bits.drop place).take count := by
  rw [take_take, Nat.min_eq_left within]

theorem drop_take_drop (count more place : Nat) :
    ((bits.drop place).take more).drop count = (bits.drop (place + count)).take (more - count) := by
  rw [drop_take, drop_drop]

theorem length_take_drop {count place : Nat} (within : place + count ≤ bits.length) :
    ((bits.drop place).take count).length = count := by
  rw [length_take_of_le]
  rw [length_drop]
  omega

theorem read_inWord {numBits : Nat} (here : At cursor bits place) (positive : 0 < numBits)
    (enough : numBits ≤ cursor.bitsInCurWord) :
    ∃ next, cursor.read numBits = .ok (valueOf ((bits.drop place).take numBits), next) ∧
      At next bits (place + numBits) := by
  have same := here.spot
  have length := here.length
  have left := here.left
  have inside := here.inside
  have word := here.word (by omega)
  have sized : ((bits.drop place).take cursor.bitsInCurWord).length = cursor.bitsInCurWord :=
    length_take_drop (by omega)
  have value : cursor.curWord % 2 ^ numBits = valueOf ((bits.drop place).take numBits) := by
    rw [word, ← valueOf_take _ _ (by omega), take_take_drop _ _ _ enough]
  refine ⟨{ cursor with
      curWord := cursor.curWord >>> (numBits % 64)
      bitsInCurWord := cursor.bitsInCurWord - numBits }, ?_,
    ⟨here.contents, here.words, here.inside, here.chunks, ?_, ?_, fun _ => ?_⟩⟩
  · rw [SimpleBitstreamCursor.read, if_neg (by omega), if_pos enough, value]
  · change cursor.bitsInCurWord - numBits < 64
    omega
  · change place + numBits + (cursor.bitsInCurWord - numBits) = 8 * cursor.nextChar
    omega
  · change cursor.curWord >>> (numBits % 64) = valueOf (List.take (cursor.bitsInCurWord - numBits) _)
    rw [Nat.mod_eq_of_lt (by omega), Nat.shiftRight_eq_div_pow, word, ← valueOf_drop _ _ (by omega),
      drop_take_drop]

theorem fillCurWord_at (here : At cursor bits place) (more : cursor.nextChar < cursor.bitcodeBytes.length) :
    ∃ count, count = min 8 (cursor.bitcodeBytes.length - cursor.nextChar) ∧
      cursor.fillCurWord = .ok { cursor with
        curWord := valueOf ((bits.drop (8 * cursor.nextChar)).take (count * 8))
        nextChar := cursor.nextChar + count
        bitsInCurWord := count * 8 } := by
  refine ⟨_, rfl, ?_⟩
  have taken : ((cursor.bitcodeBytes.drop cursor.nextChar).take 8).length =
      min 8 (cursor.bitcodeBytes.length - cursor.nextChar) := by
    rw [length_take, length_drop]
  have filled : ofLittleEndian ((cursor.bitcodeBytes.drop cursor.nextChar).take 8) =
      valueOf ((bits.drop (8 * cursor.nextChar)).take
        (min 8 (cursor.bitcodeBytes.length - cursor.nextChar) * 8)) := by
    have length := here.length
    rw [← valueOf_bytesBits, bytesBits_take, bytesBits_drop, here.contents]
    congr 1
    rcases Nat.le_total 8 (cursor.bitcodeBytes.length - cursor.nextChar) with many | few
    · rw [Nat.min_eq_left many]
    · rw [Nat.min_eq_right few, take_of_length_le, take_of_length_le]
      · rw [length_drop]
        omega
      · rw [length_drop]
        omega
  unfold SimpleBitstreamCursor.fillCurWord
  rw [if_neg (by omega)]
  simp only [taken, filled]

theorem join_parts {low high : Nat} (within : place + (low + high) ≤ bits.length)
    (bounded : low + high ≤ 64) :
    valueOf ((bits.drop place).take low) |||
        (valueOf ((bits.drop (place + low)).take high) <<< low) % 2 ^ 64 =
      valueOf ((bits.drop place).take (low + high)) := by
  have lowSized : ((bits.drop place).take low).length = low := length_take_drop (by omega)
  have highSized : ((bits.drop (place + low)).take high).length = high := length_take_drop (by omega)
  have small := valueOf_lt ((bits.drop place).take low)
  have bound := valueOf_lt ((bits.drop (place + low)).take high)
  rw [lowSized] at small
  rw [highSized] at bound
  have wide : valueOf ((bits.drop (place + low)).take high) <<< low < 2 ^ 64 := by
    rw [Nat.shiftLeft_eq]
    calc _ < 2 ^ high * 2 ^ low := Nat.mul_lt_mul_of_pos_right bound (Nat.two_pow_pos _)
      _ = 2 ^ (low + high) := by rw [← Nat.pow_add, Nat.add_comm]
      _ ≤ 2 ^ 64 := Nat.pow_le_pow_right Nat.two_pos bounded
  rw [Nat.mod_eq_of_lt wide, or_shiftLeft _ small, take_add, drop_drop, valueOf_append, lowSized,
    Nat.mul_comm]

theorem read_across {numBits : Nat} (here : At cursor bits place) (bounded : numBits ≤ 64)
    (short : cursor.bitsInCurWord < numBits) (within : place + numBits ≤ bits.length) :
    ∃ next, cursor.read numBits = .ok (valueOf ((bits.drop place).take numBits), next) ∧
      At next bits (place + numBits) := by
  have same := here.spot
  have length := here.length
  have left := here.left
  have more : cursor.nextChar < cursor.bitcodeBytes.length := by omega
  have onWord : cursor.nextChar % 8 = 0 := by
    rcases here.chunks with whole | atEnd
    · exact whole
    · omega
  obtain ⟨count, counted, filled⟩ := fillCurWord_at here more
  have fits : numBits - cursor.bitsInCurWord ≤ count * 8 := by omega
  have sized : ((bits.drop (8 * cursor.nextChar)).take (count * 8)).length = count * 8 :=
    length_take_drop (by omega)
  have high : valueOf ((bits.drop (8 * cursor.nextChar)).take (count * 8)) %
      2 ^ (numBits - cursor.bitsInCurWord) =
        valueOf ((bits.drop (place + cursor.bitsInCurWord)).take (numBits - cursor.bitsInCurWord)) := by
    rw [← valueOf_take _ _ (by omega), take_take_drop _ _ _ fits, same]
  have parts : numBits = cursor.bitsInCurWord + (numBits - cursor.bitsInCurWord) := by omega
  have joined : valueOf ((bits.drop place).take cursor.bitsInCurWord) |||
      (valueOf ((bits.drop (place + cursor.bitsInCurWord)).take (numBits - cursor.bitsInCurWord)) <<<
        cursor.bitsInCurWord) % 2 ^ 64 = valueOf ((bits.drop place).take numBits) := by
    rw [join_parts (by omega) (by omega), ← parts]
  refine ⟨{ cursor with
      curWord := valueOf ((bits.drop (8 * cursor.nextChar)).take (count * 8)) >>>
        ((numBits - cursor.bitsInCurWord) % 64)
      nextChar := cursor.nextChar + count
      bitsInCurWord := count * 8 - (numBits - cursor.bitsInCurWord) }, ?_,
    ⟨here.contents, here.words, ?_, ?_, ?_, ?_, fun some_ => ?_⟩⟩
  · rw [SimpleBitstreamCursor.read, if_neg (by omega), if_neg (by omega), filled, here.low]
    simp only [bind, Except.bind]
    rw [if_neg (by omega), Nat.sub_sub_self (by omega), high, joined]
  · change cursor.nextChar + count ≤ cursor.bitcodeBytes.length
    omega
  · change (cursor.nextChar + count) % 8 = 0 ∨ cursor.nextChar + count = cursor.bitcodeBytes.length
    omega
  · change count * 8 - (numBits - cursor.bitsInCurWord) < 64
    omega
  · change place + numBits + (count * 8 - (numBits - cursor.bitsInCurWord)) = 8 * (cursor.nextChar + count)
    omega
  · change count * 8 - (numBits - cursor.bitsInCurWord) ≠ 0 at some_
    change valueOf _ >>> ((numBits - cursor.bitsInCurWord) % 64) = valueOf (List.take
      (count * 8 - (numBits - cursor.bitsInCurWord)) _)
    have start : 8 * cursor.nextChar + (numBits - cursor.bitsInCurWord) = place + numBits := by omega
    rw [Nat.mod_eq_of_lt (by omega), Nat.shiftRight_eq_div_pow, ← valueOf_drop _ _ (by omega),
      drop_take_drop, start]

theorem read_at {numBits : Nat} (here : At cursor bits place) (positive : 0 < numBits)
    (bounded : numBits ≤ 64) (within : place + numBits ≤ bits.length) :
    ∃ next, cursor.read numBits = .ok (valueOf ((bits.drop place).take numBits), next) ∧
      At next bits (place + numBits) := by
  rcases Nat.lt_or_ge cursor.bitsInCurWord numBits with short | enough
  · exact read_across here bounded short within
  · exact read_inWord here positive enough

def nextWord (place : Nat) : Nat := (place + 31) / 32 * 32

theorem skip_at (here : At cursor bits place) :
    At cursor.skipToFourByteBoundary bits (nextWord place) := by
  have same := here.spot
  have length := here.length
  have left := here.left
  have inside := here.inside
  have words := here.words
  have chunks := here.chunks
  unfold SimpleBitstreamCursor.skipToFourByteBoundary nextWord
  split
  · rename_i many
    have start : (place + 31) / 32 * 32 = place + (cursor.bitsInCurWord - 32) := by omega
    have sized : ((bits.drop place).take cursor.bitsInCurWord).length = cursor.bitsInCurWord :=
      length_take_drop (by omega)
    rw [start]
    refine ⟨here.contents, words, inside, chunks, ?_, ?_, fun _ => ?_⟩
    · change 32 < 64
      omega
    · change place + (cursor.bitsInCurWord - 32) + 32 = 8 * cursor.nextChar
      omega
    · change cursor.curWord >>> (cursor.bitsInCurWord - 32) = valueOf (List.take 32 _)
      rw [here.word (by omega), Nat.shiftRight_eq_div_pow, ← valueOf_drop _ _ (by omega), drop_take_drop,
        Nat.sub_sub_self many]
  · have start : (place + 31) / 32 * 32 = 8 * cursor.nextChar := by omega
    rw [start]
    exact ⟨here.contents, words, inside, chunks, Nat.zero_lt_succ 63, rfl, fun some_ => absurd rfl some_⟩

theorem jump_at {target : Nat} (here : At cursor bits place) (within : target ≤ bits.length) :
    ∃ next, cursor.jumpToBit target = .ok next ∧ At next bits target := by
  have length := here.length
  have moved : At { cursor with nextChar := target / 8 / 8 * 8, bitsInCurWord := 0 } bits
      (target / 64 * 64) := by
    refine ⟨here.contents, here.words, ?_, .inl ?_, Nat.zero_lt_succ 63, ?_, fun some_ => absurd rfl some_⟩
    · change target / 8 / 8 * 8 ≤ cursor.bitcodeBytes.length
      omega
    · change target / 8 / 8 * 8 % 8 = 0
      omega
    · change target / 64 * 64 + 0 = 8 * (target / 8 / 8 * 8)
      omega
  have reachable : cursor.canSkipToPos (target / 8 / 8 * 8) = true := by
    unfold SimpleBitstreamCursor.canSkipToPos
    rw [decide_eq_true_iff]
    omega
  unfold SimpleBitstreamCursor.jumpToBit
  simp only [reachable, if_true]
  split
  · rename_i some_
    obtain ⟨next, done, there⟩ := read_at moved (Nat.pos_of_ne_zero some_) (by omega) (by omega)
    refine ⟨next, by rw [done]; rfl, ?_⟩
    have arrived : target / 64 * 64 + target % 64 = target := by omega
    rwa [arrived] at there
  · rename_i none
    refine ⟨_, rfl, ?_⟩
    have arrived : target / 64 * 64 = target := by
      omega
    rwa [arrived] at moved

/-! ### Values carried over -/

abbrev Reading (Result : Type) := SimpleBitstreamCursor → Except BitstreamError (Result × SimpleBitstreamCursor)

variable {Result Other : Type} {reads : Reading Result} {value : Result}

/-- At the given place the read takes just these bits, and gives the value. -/
def Decodes (place : Nat) (reads : Reading Result) (code : List Bool) (value : Result) : Prop :=
  ∀ cursor front back, front.length = place → At cursor (front ++ (code ++ back)) place →
    ∃ next, reads cursor = .ok (value, next) ∧ At next (front ++ (code ++ back)) (place + code.length)

def andThen (reads : Reading Result) (continue_ : Result → Reading Other) (cursor : SimpleBitstreamCursor) :
    Except BitstreamError (Other × SimpleBitstreamCursor) :=
  (reads cursor).bind fun pair => continue_ pair.1 pair.2

theorem Decodes.andThen {place : Nat} {more : List Bool} {continue_ : Result → Reading Other}
    {other : Other} (first : Decodes place reads code value)
    (second : Decodes (place + code.length) (continue_ value) more other) :
    Decodes place (andThen reads continue_) (code ++ more) other := by
  intro cursor front back length here
  rw [List.append_assoc] at here
  obtain ⟨middle, ran, there⟩ := first cursor front (more ++ back) length here
  have rearranged : front ++ (code ++ (more ++ back)) = front ++ code ++ (more ++ back) := by simp
  rw [rearranged] at there
  obtain ⟨next, done, arrived⟩ := second middle (front ++ code) back (by simp [length]) there
  refine ⟨next, ?_, ?_⟩
  · rw [Bitstream.andThen, ran]
    exact done
  · rw [← rearranged] at arrived
    rw [List.append_assoc, length_append, ← Nat.add_assoc]
    exact arrived

theorem Decodes.congr {place : Nat} {others : Reading Result}
    (decodes : Decodes place reads code value) (same : ∀ cursor, others cursor = reads cursor) :
    Decodes place others code value := by
  intro cursor front back length here
  rw [same]
  exact decodes cursor front back length here

theorem decodes_pure (place : Nat) (value : Result) :
    Decodes place (fun cursor => .ok (value, cursor)) [] value := by
  intro cursor front back _ here
  exact ⟨cursor, rfl, here⟩

theorem decodes_read {numBits : Nat} (place : Nat) (positive : 0 < numBits)
    (bounded : numBits ≤ 64) (fits : val < 2 ^ numBits) :
      Decodes place (SimpleBitstreamCursor.read numBits) (bitsOf numBits val) val := by
  rintro cursor front back rfl here
  obtain ⟨next, done, there⟩ := read_at here positive bounded (by simp)
  refine ⟨next, ?_, by rwa [length_bitsOf]⟩
  have sized : (bitsOf numBits val).length = numBits := length_bitsOf _ _
  rw [done, drop_left, take_append_of_le_length (by omega), take_of_length_le (by omega),
    valueOf_bitsOf_lt fits]

structure Carries (reads : Reading Result) (value : Result) (writer next : BitstreamWriter) : Prop where
  good : Good next
  same : SameState writer next
  decodes : ∃ code, written next = written writer ++ code ∧
    Decodes (written writer).length reads code value

theorem Carries.andThen {continue_ : Result → Reading Other} {other : Other}
    (first : Carries reads value writer next)
    (second : Carries (continue_ value) other next last) :
    Carries (andThen reads continue_) other writer last := by
  obtain ⟨code, grown, decodes⟩ := first.decodes
  obtain ⟨more, grownMore, decodesMore⟩ := second.decodes
  refine ⟨second.good, first.same.trans second.same, code ++ more, ?_, ?_⟩
  · rw [grownMore, grown, List.append_assoc]
  · refine decodes.andThen ?_
    rw [grown, length_append] at decodesMore
    exact decodesMore

theorem Carries.congr {others : Reading Result} (carries : Carries reads value writer next)
    (same : ∀ cursor, others cursor = reads cursor) : Carries others value writer next := by
  obtain ⟨code, grown, decodes⟩ := carries.decodes
  exact ⟨carries.good, carries.same, code, grown, decodes.congr same⟩

theorem carries_pure (good : Good writer) (value : Result) :
    Carries (fun cursor => .ok (value, cursor)) value writer writer :=
  ⟨good, .refl writer, [], (append_nil _).symm, decodes_pure _ value⟩

theorem carries_emit {numBits : Nat} (good : Good writer)
    (emitted : writer.emit val numBits = some next) :
      Carries (SimpleBitstreamCursor.read numBits) val writer next := by
  obtain ⟨⟨positive, bounded, fits⟩, goodNext, same, grown⟩ := emit_written good emitted
  exact ⟨goodNext, same, bitsOf numBits val, grown, decodes_read _ positive (by omega) fits⟩

section VBR

variable {width numBits : Nat}

def readChunks (width numBits fuel result nextBit : Nat) : Reading Nat :=
  andThen (SimpleBitstreamCursor.read numBits) fun piece cursor =>
    SimpleBitstreamCursor.readVBRLoop width numBits fuel result nextBit (piece % 2 ^ 32) cursor

theorem join_chunk {low : Nat} (small : result < 2 ^ nextBit)
    (fits : low * 2 ^ nextBit < 2 ^ width) :
    result ||| (low <<< nextBit) % 2 ^ width = result + low * 2 ^ nextBit := by
  rw [Nat.mod_eq_of_lt (by rwa [Nat.shiftLeft_eq]), or_shiftLeft _ small]

theorem decodes_lastChunk {fuel : Nat} (place : Nat) (wide : 2 ≤ numBits) (bounded : numBits ≤ 32)
    (last : val < 2 ^ (numBits - 1)) (small : result < 2 ^ nextBit)
    (fits : val * 2 ^ nextBit < 2 ^ width) :
    Decodes place (readChunks width numBits (fuel + 1) result nextBit) (bitsOf numBits val)
      (result + val * 2 ^ nextBit) := by
  have below : val < 2 ^ numBits :=
    Nat.lt_of_lt_of_le last (Nat.pow_le_pow_right Nat.two_pos (Nat.sub_le _ _))
  have below32 : val < 2 ^ 32 := Nat.lt_of_lt_of_le below (Nat.pow_le_pow_right Nat.two_pos bounded)
  have first := decodes_read place (by omega) (by omega) below
  have rest : Decodes (place + (bitsOf numBits val).length)
      (fun cursor => SimpleBitstreamCursor.readVBRLoop width numBits (fuel + 1) result nextBit
        (val % 2 ^ 32) cursor) [] (result + val * 2 ^ nextBit) := by
    refine (decodes_pure _ _).congr fun cursor => ?_
    rw [Nat.mod_eq_of_lt below32, SimpleBitstreamCursor.readVBRLoop, Nat.div_eq_of_lt last,
      Nat.mod_eq_of_lt last, if_pos rfl, join_chunk small fits]
  have both : Decodes place (readChunks width numBits (fuel + 1) result nextBit)
      (bitsOf numBits val ++ []) (result + val * 2 ^ nextBit) := first.andThen rest
  rwa [append_nil] at both

section

variable (wide : 2 ≤ numBits)

include wide

theorem decodes_chunk {fuel place : Nat} {total : Nat}
    (bounded : numBits ≤ 32) (small : result < 2 ^ nextBit)
    (fits : val % 2 ^ (numBits - 1) * 2 ^ nextBit < 2 ^ width)
    (rest : Decodes (place + numBits)
    (readChunks width numBits fuel (result + val % 2 ^ (numBits - 1) * 2 ^ nextBit)
    (nextBit + (numBits - 1))) code total) :
    Decodes place (readChunks width numBits (fuel + 1) result nextBit)
      (bitsOf numBits (val % 2 ^ (numBits - 1) + 2 ^ (numBits - 1)) ++ code) total := by
  have positive : 0 < 2 ^ (numBits - 1) := Nat.two_pow_pos _
  have low : val % 2 ^ (numBits - 1) < 2 ^ (numBits - 1) := Nat.mod_lt _ positive
  have doubled : 2 ^ numBits = 2 ^ (numBits - 1) + 2 ^ (numBits - 1) := by
    have whole : numBits = numBits - 1 + 1 := by omega
    conv_lhs => rw [whole]
    rw [Nat.pow_succ]
    omega
  have below : val % 2 ^ (numBits - 1) + 2 ^ (numBits - 1) < 2 ^ numBits := by omega
  have below32 : val % 2 ^ (numBits - 1) + 2 ^ (numBits - 1) < 2 ^ 32 :=
    Nat.lt_of_lt_of_le below (Nat.pow_le_pow_right Nat.two_pos bounded)
  refine (decodes_read place (by omega) (by omega) below).andThen ?_
  rw [length_bitsOf]
  refine rest.congr fun cursor => ?_
  have flag : (val % 2 ^ (numBits - 1) + 2 ^ (numBits - 1)) / 2 ^ (numBits - 1) % 2 = 1 := by
    rw [Nat.add_div_right _ positive, Nat.div_eq_of_lt low]
  rw [Nat.mod_eq_of_lt below32, SimpleBitstreamCursor.readVBRLoop, flag, if_neg (by decide),
    Nat.add_mod_right, Nat.mod_mod, join_chunk small fits]
  rfl

theorem emitVBRLoop_decodes (bounded : numBits ≤ 32) (turns : Nat) :
    ∀ {val : Nat} {writer next : BitstreamWriter}, Good writer →
      BitstreamWriter.emitVBRLoop numBits turns val writer = some next →
      Good next ∧ SameState writer next ∧ ∃ code chunks,
        written next = written writer ++ code ∧ code.length = numBits * (chunks + 1) ∧
        ∀ fuel result nextBit, chunks < fuel → result < 2 ^ nextBit → val * 2 ^ nextBit < 2 ^ width →
          Decodes (written writer).length (readChunks width numBits fuel result nextBit) code
            (result + val * 2 ^ nextBit) := by
  induction turns with
  | zero =>
      intro val writer next _ emitted
      cases emitted
  | succ turns ih =>
      intro val writer next good emitted
      rw [BitstreamWriter.emitVBRLoop] at emitted
      split at emitted
      · obtain ⟨middle, first, rest⟩ := Option.bind_eq_some_iff.mp emitted
        obtain ⟨_, goodMiddle, sameMiddle, grown⟩ := emit_written good first
        obtain ⟨goodNext, sameNext, code, chunks, grownMore, sized, decodes⟩ := ih goodMiddle rest
        refine ⟨goodNext, sameMiddle.trans sameNext,
          bitsOf numBits (val % 2 ^ (numBits - 1) + 2 ^ (numBits - 1)) ++ code, chunks + 1, ?_, ?_, ?_⟩
        · rw [grownMore, grown, List.append_assoc]
        · rw [length_append, length_bitsOf, sized]
          ring
        · intro fuel result nextBit enough small fits
          obtain ⟨fuel, rfl⟩ : ∃ less, fuel = less + 1 := ⟨fuel - 1, by omega⟩
          have parts : val % 2 ^ (numBits - 1) * 2 ^ nextBit +
              val / 2 ^ (numBits - 1) * 2 ^ (nextBit + (numBits - 1)) = val * 2 ^ nextBit := by
            have split := Nat.mod_add_div val (2 ^ (numBits - 1))
            conv_rhs => rw [← split]
            ring
          have low : val % 2 ^ (numBits - 1) + 1 ≤ 2 ^ (numBits - 1) :=
            Nat.mod_lt _ (Nat.two_pow_pos _)
          have grows : result + val % 2 ^ (numBits - 1) * 2 ^ nextBit < 2 ^ (nextBit + (numBits - 1)) := by
            have scaled := Nat.mul_le_mul_right (2 ^ nextBit) low
            rw [Nat.add_mul, Nat.one_mul] at scaled
            rw [Nat.pow_add, Nat.mul_comm (2 ^ nextBit)]
            omega
          have later := decodes fuel (result + val % 2 ^ (numBits - 1) * 2 ^ nextBit)
            (nextBit + (numBits - 1)) (by omega) grows (by omega)
          rw [Nat.add_assoc, parts, grown, length_append, length_bitsOf] at later
          exact decodes_chunk wide bounded small (by omega) later
      · rename_i last
        obtain ⟨_, goodNext, same, grown⟩ := emit_written good emitted
        refine ⟨goodNext, same, bitsOf numBits val, 0, grown, ?_, ?_⟩
        · rw [length_bitsOf]
          omega
        · intro fuel result nextBit enough small fits
          obtain ⟨fuel, rfl⟩ : ∃ less, fuel = less + 1 := ⟨fuel - 1, by omega⟩
          exact decodes_lastChunk _ wide bounded (Nat.not_le.mp last) small fits

theorem readVBRWith_eq {word : Nat} {cursor started : SimpleBitstreamCursor}
    (bounded : numBits ≤ 32) (roomy : 32 ≤ width) (read : cursor.read numBits = .ok (word, started))
    (small : word < 2 ^ numBits) :
    SimpleBitstreamCursor.readVBRWith width numBits cursor =
      SimpleBitstreamCursor.readVBRLoop width numBits (started.bitsLeft + 1) 0 0 (word % 2 ^ 32) started := by
  unfold SimpleBitstreamCursor.readVBRWith
  rw [read]
  simp only [Bind.bind, Except.bind]
  split
  · rename_i last
    have below32 : word < 2 ^ 32 := Nat.lt_of_lt_of_le small (Nat.pow_le_pow_right Nat.two_pos bounded)
    have belowWidth : word < 2 ^ width := Nat.lt_of_lt_of_le below32 (Nat.pow_le_pow_right Nat.two_pos roomy)
    rw [Nat.mod_eq_of_lt below32] at last ⊢
    have halves : word / 2 ^ (numBits - 1) < 2 := by
      rw [Nat.div_lt_iff_lt_mul (Nat.two_pow_pos _), ← Nat.pow_succ']
      have whole : (numBits - 1).succ = numBits := by omega
      rwa [whole]
    have low : word < 2 ^ (numBits - 1) := by
      rw [Nat.mod_eq_of_lt halves] at last
      exact Nat.lt_of_div_eq_zero (Nat.two_pow_pos _) last
    rw [SimpleBitstreamCursor.readVBRLoop, Nat.mod_eq_of_lt low, if_pos last, Nat.zero_or, Nat.shiftLeft_zero,
      Nat.mod_eq_of_lt belowWidth]
  · rfl

theorem carries_vbrLoop {turns : Nat} (bounded : numBits ≤ 32)
    (roomy : 32 ≤ width) (fits : val < 2 ^ width) (good : Good writer)
    (emitted : BitstreamWriter.emitVBRLoop numBits turns val writer = some next) :
    Carries (SimpleBitstreamCursor.readVBRWith width numBits) val writer next := by
  obtain ⟨goodNext, same, code, chunks, grown, sized, decodes⟩ :=
    emitVBRLoop_decodes wide bounded turns good emitted
  refine ⟨goodNext, same, code, grown, ?_⟩
  intro cursor front back length here
  have within : (written writer).length + numBits ≤ (front ++ (code ++ back)).length := by
    rw [length_append, length_append, sized, length, Nat.mul_succ]
    omega
  obtain ⟨started, read, there⟩ := read_at here (by omega) (by omega) within
  have left := there.bitsLeft
  have enough : chunks < started.bitsLeft + 1 := by
    rw [left, length_append, length_append, sized, length, Nat.mul_succ]
    have scaled : 1 * chunks ≤ numBits * chunks := Nat.mul_le_mul_right chunks (by omega)
    omega
  obtain ⟨last, ran, arrived⟩ := decodes (started.bitsLeft + 1) 0 0 enough Nat.one_pos (by simpa using fits)
    cursor front back length here
  refine ⟨last, ?_, arrived⟩
  have small := valueOf_lt (List.take numBits (List.drop (written writer).length (front ++ (code ++ back))))
  rw [length_take_drop within] at small
  rw [readVBRWith_eq wide bounded roomy read small]
  unfold readChunks andThen at ran
  rw [read, Nat.zero_add, Nat.pow_zero, Nat.mul_one] at ran
  exact ran

theorem carries_emitVBR (fits : val < 2 ^ 32) (good : Good writer)
    (emitted : writer.emitVBR val numBits = some next) :
    Carries (SimpleBitstreamCursor.readVBR numBits) val writer next := by
  unfold BitstreamWriter.emitVBR at emitted
  split at emitted
  · rename_i bounded
    exact carries_vbrLoop wide bounded (Nat.le_refl 32) fits good emitted
  · cases emitted

theorem carries_emitVBR64 (fits : val < 2 ^ 64) (good : Good writer)
    (emitted : writer.emitVBR64 val numBits = some next) :
    Carries (SimpleBitstreamCursor.readVBR64 numBits) val writer next := by
  have loop : numBits ≤ 32 ∧ BitstreamWriter.emitVBRLoop numBits 64 val writer = some next := by
    unfold BitstreamWriter.emitVBR64 BitstreamWriter.emitVBR at emitted
    split at emitted
    · split at emitted
      · rename_i bounded
        exact ⟨bounded, emitted⟩
      · cases emitted
    · split at emitted
      · rename_i bounded
        exact ⟨bounded, emitted⟩
      · cases emitted
  exact carries_vbrLoop wide loop.1 (by decide) fits good loop.2

end

end VBR

end EvmBackend.Bitstream
