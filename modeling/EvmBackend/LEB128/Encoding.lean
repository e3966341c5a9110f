/-
What the encoders write, and that the decoders read it back.

An encoder puts the groups of the value, then groups of its sign up to the
length asked for, all but the last marked. That list is the same for every
sink, and its groups stand for the value.
-/

import EvmBackend.LEB128.Decoding

namespace EvmBackend.LEB128

open GroupedNumbers

def markByte (byte : Byte) : Byte := byte ||| 0x80#8

section Bytes

variable (grouping : Grouping)

def groups (value : Word) : List Byte :=
  let byte : Byte := (value &&& 0x7f#64).setWidth 8
  byte :: if grouping.more (grouping.shift value) byte then groups (grouping.shift value) else []
termination_by grouping.left value
decreasing_by exact grouping.decreasing value ‹_›

def restOf (value : Word) : Word :=
  if grouping.more (grouping.shift value) ((value &&& 0x7f#64).setWidth 8) then restOf (grouping.shift value)
  else grouping.shift value
termination_by grouping.left value
decreasing_by exact grouping.decreasing value ‹_›

def paddedGroups (value : Word) (padTo : Nat) : List Byte :=
  groups grouping value ++
    List.replicate (padTo - (groups grouping value).length) (grouping.padValue (restOf grouping value))

def encodedBytes (value : Word) (padTo : Nat) : List Byte :=
  markGroups markByte false (paddedGroups grouping value padTo)

theorem groups_ne_nil (value : Word) : groups grouping value ≠ [] := by
  rw [groups]
  exact List.cons_ne_nil _ _

theorem length_encodedBytes (value : Word) (padTo : Nat) :
    (encodedBytes grouping value padTo).length = max padTo (groups grouping value).length := by
  unfold encodedBytes paddedGroups
  rw [length_markGroups, List.length_append, List.length_replicate]
  omega

variable {Sink : Type} (put : Sink → Byte → Sink)

theorem encodeLoop_eq (padTo : Nat) (value : Word) (count : Nat) (sink : Sink) :
    encodeLoop grouping put padTo value count sink =
      ((markGroups markByte (decide (count + (groups grouping value).length < padTo))
          (groups grouping value)).foldl put sink,
        count + (groups grouping value).length, restOf grouping value) := by
  induction value using groups.induct grouping generalizing count sink with
  | case1 value byte ih =>
      rw [encodeLoop, groups, restOf]
      by_cases more : grouping.more (grouping.shift value) byte = true
      · have length : count + 1 + (groups grouping (grouping.shift value)).length =
            count + ((groups grouping (grouping.shift value)).length + 1) := by omega
        rw [if_pos more, if_pos more, if_pos more, ih more, markGroups_cons _ _ _ (groups_ne_nil grouping _),
          List.foldl_cons, List.length_cons, length]
        rw [more, Bool.true_or, if_pos rfl]
        rfl
      · rw [if_neg more, if_neg more, if_neg more, List.length_singleton]
        rw [Bool.eq_false_iff.mpr more, Bool.false_or]
        rfl

theorem putPadding_eq (padValue : Byte) (turns : Nat) (sink : Sink) :
    putPadding put padValue turns sink = (List.replicate turns (markByte padValue)).foldl put sink := by
  induction turns generalizing sink with
  | zero => rfl
  | succ turns ih =>
      rw [putPadding, ih, List.replicate_succ, List.foldl_cons]
      rfl

theorem encode_eq (value : Word) (padTo : Nat) (sink : Sink) :
    encode grouping put value padTo sink =
      ((encodedBytes grouping value padTo).foldl put sink, (encodedBytes grouping value padTo).length) := by
  rw [length_encodedBytes]
  unfold encode encodedBytes paddedGroups
  rw [encodeLoop_eq, Nat.zero_add]
  dsimp only
  by_cases short : (groups grouping value).length < padTo
  · obtain ⟨turns, room⟩ : ∃ turns, padTo - (groups grouping value).length = turns + 1 :=
      ⟨_, (Nat.succ_pred (by omega)).symm⟩
    have less : padTo - 1 - (groups grouping value).length = turns := by omega
    have longer : max padTo (groups grouping value).length = padTo := by omega
    have filled : List.replicate (turns + 1) (grouping.padValue (restOf grouping value)) ≠ [] :=
      List.cons_ne_nil _ _
    rw [if_pos short, room, less, decide_eq_true short, putPadding_eq, longer, markGroups_append _ _ _ filled,
      markGroups_replicate, List.foldl_append, List.foldl_append, List.foldl_cons, List.foldl_nil]
  · have none : padTo - (groups grouping value).length = 0 := by omega
    have longer : max padTo (groups grouping value).length = (groups grouping value).length := by omega
    rw [if_neg short, none, List.replicate_zero, List.append_nil, decide_eq_false short, longer]

end Bytes

/-! ### What the groups stand for -/

theorem low_toNat (value : Word) : ((value &&& 0x7f#64).setWidth 8 : Byte).toNat = value.toNat % 128 := by
  have low : (value &&& 0x7f#64).toNat = value.toNat % 128 := by
    rw [BitVec.toNat_and]
    exact Nat.and_two_pow_sub_one_eq_mod value.toNat 7
  have small : value.toNat % 128 < 2 ^ 8 := (Nat.mod_lt _ (by decide)).trans (by decide)
  rw [BitVec.toNat_setWidth, low, Nat.mod_eq_of_lt small]

theorem groupOf_low (value : Word) : groupOf ((value &&& 0x7f#64).setWidth 8) = value.toNat % 128 := by
  unfold groupOf
  rw [low_toNat, Nat.mod_mod]

variable {padTo : Nat} {byte : Byte}

theorem continues_of_lt (small : byte.toNat < 128) : continues byte = false :=
  decide_eq_false (Nat.not_le.mpr small)

theorem groups_ends (grouping : Grouping) (value : Word) : ∀ byte ∈ groups grouping value, byte.toNat < 128 := by
  induction value using groups.induct grouping with
  | case1 value byte ih =>
      rw [groups]
      refine List.forall_mem_cons.mpr ⟨?_, ?_⟩
      · rw [low_toNat]
        exact Nat.mod_lt _ (by decide)
      · by_cases more : grouping.more (grouping.shift value) byte = true
        · rw [if_pos more]
          exact ih more
        · rw [if_neg more]
          exact List.forall_mem_nil _

theorem markByte_toNat (small : byte.toNat < 128) : (markByte byte).toNat = byte.toNat + 128 := by
  have joined := Nat.two_pow_add_eq_or_of_lt (i := 7) small 1
  unfold markByte
  rw [BitVec.toNat_or, Nat.or_comm]
  change 128 ||| byte.toNat = _
  rw [Nat.mul_one] at joined
  rw [← joined, Nat.add_comm]

theorem continues_markByte (small : byte.toNat < 128) : continues (markByte byte) = true := by
  unfold continues
  rw [markByte_toNat small]
  exact decide_eq_true (Nat.le_add_left 128 _)

theorem groupOf_markByte (small : byte.toNat < 128) : groupOf (markByte byte) = groupOf byte := by
  unfold groupOf
  rw [markByte_toNat small, Nat.add_mod_right]

theorem firstNumber_encodedBytes {grouping : Grouping} {value : Word}
    (small : ∀ byte ∈ paddedGroups grouping value padTo, byte.toNat < 128) (suffix : List Byte) :
    firstNumber continues (encodedBytes grouping value padTo ++ suffix) =
      some (encodedBytes grouping value padTo) ∧
      (encodedBytes grouping value padTo).map groupOf = (paddedGroups grouping value padTo).map groupOf := by
  have filled : paddedGroups grouping value padTo ≠ [] := fun none =>
    groups_ne_nil grouping value (List.append_eq_nil_iff.mp none).1
  unfold encodedBytes
  exact ⟨firstNumber_markGroups filled (fun byte member => continues_of_lt (small byte member))
      (fun byte member => continues_markByte (small byte member)) suffix,
    map_markGroups false fun byte member => groupOf_markByte (small byte member)⟩

theorem ulebGroups_value (value : Word) :
    Nat.ofDigits 128 ((groups ulebGrouping value).map groupOf) = value.toNat := by
  induction value using groups.induct ulebGrouping with
  | case1 value byte ih =>
      have rest : (value >>> 7).toNat = value.toNat / 128 := by
        rw [BitVec.toNat_ushiftRight, Nat.shiftRight_eq_div_pow]
      rw [groups, List.map_cons, Nat.ofDigits_cons, groupOf_low]
      by_cases more : ulebGrouping.more (ulebGrouping.shift value) byte = true
      · rw [if_pos more, ih more]
        change _ + 128 * (value >>> 7).toNat = _
        rw [rest]
        exact Nat.mod_add_div value.toNat 128
      · have zero : value >>> 7 = 0#64 := by
          by_contra differs
          exact more (bne_iff_ne.mpr differs)
        rw [zero, BitVec.toNat_zero] at rest
        rw [if_neg more, List.map_nil, Nat.ofDigits_nil]
        omega

theorem length_ulebGroups (value : Word) (turns : Nat) (small : value.toNat < 128 ^ (turns + 1)) :
    (groups ulebGrouping value).length ≤ turns + 1 := by
  induction turns generalizing value with
  | zero =>
      have zero : value >>> 7 = 0#64 := by
        apply BitVec.eq_of_toNat_eq
        rw [BitVec.toNat_ushiftRight, Nat.shiftRight_eq_div_pow, BitVec.toNat_zero]
        exact Nat.div_eq_of_lt small
      have last : ¬ ulebGrouping.more (ulebGrouping.shift value) ((value &&& 0x7f#64).setWidth 8) = true :=
        fun more => bne_iff_ne.mp more zero
      rw [groups, if_neg last]
      exact Nat.le_refl 1
  | succ turns ih =>
      have less : (value >>> 7).toNat < 128 ^ (turns + 1) := by
        rw [BitVec.toNat_ushiftRight, Nat.shiftRight_eq_div_pow]
        rw [pow_succ, Nat.mul_comm] at small
        exact Nat.div_lt_of_lt_mul small
      rw [groups]
      by_cases more : ulebGrouping.more (ulebGrouping.shift value) ((value &&& 0x7f#64).setWidth 8) = true
      · rw [if_pos more, List.length_cons]
        exact Nat.succ_le_succ (ih (value >>> 7) less)
      · rw [if_neg more]
        exact Nat.succ_le_succ (Nat.zero_le _)

theorem slebGrouping_last (rest : Word) (byte : Byte) :
    slebGrouping.more rest byte = false ↔
      rest = 0#64 ∧ groupOf byte < 64 ∨ rest = -1#64 ∧ 64 ≤ groupOf byte := by
  have bit := signBit_groupOf byte
  unfold slebGrouping
  dsimp only
  rw [Bool.not_eq_false', Bool.or_eq_true, Bool.and_eq_true, Bool.and_eq_true, beq_iff_eq, beq_iff_eq, beq_iff_eq,
    bne_iff_ne, bit, ← Nat.not_le, ← bit, not_not]

theorem toInt_low (value : Word) :
    ((value.toNat % 128 : Nat) : Int) + 128 * (value.toInt / 128) = value.toInt := by
  have signed := BitVec.toInt_eq_toNat_cond value
  split at signed <;> omega

theorem length_slebGroups (value : Word) (turns : Nat) (low : -(64 * 128 ^ turns : Int) ≤ value.toInt)
    (high : value.toInt < 64 * 128 ^ turns) : (groups slebGrouping value).length ≤ turns + 1 := by
  have rest := toInt_sshiftRight value
  have split := toInt_low value
  have group := groupOf_low value
  induction turns generalizing value with
  | zero =>
      have last : slebGrouping.more (slebGrouping.shift value) ((value &&& 0x7f#64).setWidth 8) = false := by
        rw [slebGrouping_last, group]
        by_cases negative : value.toInt < 0
        · have ones : value.sshiftRight 7 = -1#64 := by
            apply BitVec.eq_of_toInt_eq
            change _ = (-1 : Int)
            omega
          exact .inr ⟨ones, by omega⟩
        · have zero : value.sshiftRight 7 = 0#64 := by
            apply BitVec.eq_of_toInt_eq
            change _ = (0 : Int)
            omega
          exact .inl ⟨zero, by omega⟩
      rw [groups, last, if_neg Bool.false_ne_true]
      exact Nat.le_refl 1
  | succ turns ih =>
      rw [pow_succ] at low high
      rw [groups]
      by_cases more : slebGrouping.more (slebGrouping.shift value) ((value &&& 0x7f#64).setWidth 8) = true
      · rw [if_pos more, List.length_cons]
        apply Nat.succ_le_succ
        exact ih (value.sshiftRight 7) (by omega) (by omega) (toInt_sshiftRight _) (toInt_low _) (groupOf_low _)
      · rw [if_neg more]
        exact Nat.succ_le_succ (Nat.zero_le _)

theorem slebGroups_value (value : Word) :
    ∃ front last, groups slebGrouping value = front ++ [last] ∧
      groupOf (slebGrouping.padValue (restOf slebGrouping value)) =
        (if 128 / 2 ≤ groupOf last then 128 - 1 else 0) ∧
      slebValue ((groups slebGrouping value).map groupOf) = value.toInt := by
  induction value using groups.induct slebGrouping with
  | case1 value byte ih =>
      have rest := toInt_sshiftRight value
      have whole := toInt_low value
      rw [groups, restOf]
      by_cases more : slebGrouping.more (slebGrouping.shift value) byte = true
      · rw [if_pos more, if_pos more]
        obtain ⟨front, last, split, sign, denoted⟩ := ih more
        refine ⟨byte :: front, last, ?_, sign, ?_⟩
        · rw [split, List.cons_append]
        · unfold slebValue at denoted ⊢
          have filled : (groups slebGrouping (slebGrouping.shift value)).map groupOf ≠ [] :=
            fun none => groups_ne_nil _ _ (List.map_eq_nil_iff.mp none)
          rw [List.map_cons, signedValue_cons _ filled, denoted, groupOf_low]
          change _ + ((128 : Nat) : Int) * (value.sshiftRight 7).toInt = _
          rw [rest]
          exact whole
      · have last := (slebGrouping_last (value.sshiftRight 7) byte).mp (Bool.eq_false_iff.mpr more)
        have group : groupOf byte = value.toNat % 128 := groupOf_low value
        rw [if_neg more, if_neg more]
        refine ⟨[], byte, rfl, ?_, ?_⟩
        · change groupOf (if (value.sshiftRight 7).slt 0#64 then 0x7f#8 else 0x00#8) = _
          rcases last with ⟨zero, positive⟩ | ⟨ones, negative⟩
          · have kept : ¬ 128 / 2 ≤ groupOf byte := Nat.not_le.mpr positive
            rw [zero, if_neg kept]
            rfl
          · have turned : 128 / 2 ≤ groupOf byte := negative
            rw [ones, if_pos turned]
            rfl
        · unfold slebValue
          rw [List.map_singleton, signedValue_singleton]
          change (groupOf byte : Int) - (if 64 ≤ groupOf byte then ((128 : Nat) : Int) else 0) = _
          rcases last with ⟨zero, positive⟩ | ⟨ones, negative⟩
          · rw [zero, BitVec.toInt_zero] at rest
            rw [if_neg (by omega), group]
            omega
          · have minus : (-1#64).toInt = -1 := rfl
            rw [ones, minus] at rest
            rw [if_pos negative, group]
            omega

theorem getULEB128SizeLoop_eq (value : Word) (size : Nat) :
    getULEB128SizeLoop value size = size + (groups ulebGrouping value).length := by
  induction value using groups.induct ulebGrouping generalizing size with
  | case1 value byte ih =>
      rw [getULEB128SizeLoop, groups]
      by_cases more : ulebGrouping.more (ulebGrouping.shift value) byte = true
      · have rest : value >>> 7 ≠ 0 := bne_iff_ne.mp more
        have later := ih more (size + 1)
        rw [if_pos rest, if_pos more, List.length_cons]
        exact later.trans (by omega)
      · have rest : ¬ value >>> 7 ≠ 0 := fun differs => more (bne_iff_ne.mpr differs)
        rw [if_neg rest, if_neg more, List.length_singleton]

theorem getSLEB128SizeLoop_eq (sign : BitVec 32) (value : Word) (size : Nat) (same : sign = signOf value) :
    getSLEB128SizeLoop sign value size same = size + (groups slebGrouping value).length := by
  induction value using groups.induct slebGrouping generalizing size with
  | case1 value byte ih =>
      have test := isMore_signOf value
      rw [← same] at test
      rw [getSLEB128SizeLoop, groups, test]
      by_cases more : slebGrouping.more (slebGrouping.shift value) byte = true
      · have also : slebGrouping.more (value.sshiftRight 7) ((value &&& 0x7f#64).setWidth 8) = true := more
        have later := ih more (size + 1) (same.trans (signOf_sshiftRight value).symm)
        rw [if_pos also, if_pos more, List.length_cons]
        exact later.trans (by omega)
      · have also : ¬ slebGrouping.more (value.sshiftRight 7) ((value &&& 0x7f#64).setWidth 8) = true := more
        rw [if_neg also, if_neg more, List.length_singleton]

theorem getULEB128Size_eq (value : Word) : getULEB128Size value = (groups ulebGrouping value).length := by
  unfold getULEB128Size
  rw [getULEB128SizeLoop_eq, Nat.zero_add]

theorem getSLEB128Size_eq (value : Word) : getSLEB128Size value = (groups slebGrouping value).length := by
  unfold getSLEB128Size
  rw [getSLEB128SizeLoop_eq, Nat.zero_add]

theorem foldl_stream (bytes stream : List Byte) :
    bytes.foldl (fun out byte => out ++ [byte]) stream = stream ++ bytes := by
  induction bytes generalizing stream with
  | nil => rw [List.foldl_nil, List.append_nil]
  | cons byte bytes ih => rw [List.foldl_cons, ih, List.append_assoc, List.singleton_append]

/-- The bytes stand from the pointer on, and the rest of the memory is as it was. -/
def Writes (bytes : List Byte) (buffer written : Buffer) : Prop :=
  written.p = buffer.p + bytes.length ∧
    (∀ index (inside : index < bytes.length), written.memory (buffer.p + index) = bytes[index]) ∧
    ∀ place, place < buffer.p ∨ buffer.p + bytes.length ≤ place → written.memory place = buffer.memory place

theorem foldl_buffer (bytes : List Byte) (buffer : Buffer) :
    Writes bytes buffer (bytes.foldl Buffer.put buffer) := by
  induction bytes generalizing buffer with
  | nil => exact ⟨rfl, nofun, fun _ _ => rfl⟩
  | cons byte bytes ih =>
      obtain ⟨place, held, kept⟩ := ih (buffer.put byte)
      rw [List.foldl_cons]
      refine ⟨?_, ?_, ?_⟩
      · rw [place, List.length_cons]
        change buffer.p + 1 + bytes.length = _
        omega
      · intro index inside
        cases index with
        | zero =>
            have untouched := kept buffer.p (.inl (Nat.lt_succ_self buffer.p))
            rw [Nat.add_zero, untouched]
            exact Function.update_self _ _ _
        | succ index =>
            have next := held index (Nat.lt_of_succ_lt_succ inside)
            change (bytes.foldl Buffer.put (buffer.put byte)).memory (buffer.p + 1 + index) = _ at next
            have address : buffer.p + (index + 1) = buffer.p + 1 + index := by omega
            rw [address, next]
            rfl
      · intro place outside
        rw [List.length_cons] at outside
        have untouched := kept place (by
          change place < buffer.p + 1 ∨ buffer.p + 1 + bytes.length ≤ place
          omega)
        rw [untouched]
        exact Function.update_of_ne (by omega) _ _

/-! ### Round trips -/

/-- Both sinks get the same bytes, as many as asked for or needed, and they are read back. -/
def RoundTrip (toStream : Word → List Byte → Nat → List Byte × Nat)
    (toBuffer : Word → Buffer → Nat → Buffer × Nat)
    (size : Word → Nat) (decode : List Byte → Option Nat → Option Decoded) (value : Word) (padTo : Nat) : Prop :=
  ∃ bytes : List Byte, bytes.length = max padTo (size value) ∧
    (∀ stream, toStream value stream padTo = (stream ++ bytes, bytes.length)) ∧
    (∀ buffer, ∃ written, toBuffer value buffer padTo = (written, bytes.length) ∧ Writes bytes buffer written) ∧
    ∀ suffix finish, (∀ place ∈ finish, bytes.length ≤ place) →
      decode (bytes ++ suffix) finish = some ⟨value, bytes.length, none⟩

theorem roundTrip_of_decodes {grouping : Grouping} {size : Word → Nat}
    {decode : List Byte → Option Nat → Option Decoded} {value : Word} (short : padTo ≤ 10)
    (sized : size value = (groups grouping value).length) (few : size value ≤ 10)
    (decodes : ∀ suffix finish, (∀ place ∈ finish, (encodedBytes grouping value padTo).length ≤ place) →
      decode (encodedBytes grouping value padTo ++ suffix) finish =
      some ⟨value, (encodedBytes grouping value padTo).length, none⟩) :
    RoundTrip (encodeToStream grouping) (encodeToBuffer grouping) size decode value padTo := by
  have length := length_encodedBytes grouping value padTo
  rw [← sized] at length
  refine ⟨encodedBytes grouping value padTo, length, ?_, ?_, decodes⟩
  · intro stream
    unfold encodeToStream
    rw [encode_eq, foldl_stream]
  · intro buffer
    obtain ⟨place, held, kept⟩ := foldl_buffer (encodedBytes grouping value padTo) buffer
    refine ⟨_, ?_, place, held, kept⟩
    unfold encodeToBuffer
    rw [encode_eq]
    dsimp only
    rw [place, Nat.add_sub_cancel_left]
    exact congrArg (Prod.mk _) (distance_of_le (by omega))

theorem few_ulebGroups (value : Word) : (groups ulebGrouping value).length ≤ 10 := by
  apply length_ulebGroups value 9
  exact value.isLt.trans_le (by norm_num)

theorem few_slebGroups (value : Word) : (groups slebGrouping value).length ≤ 10 := by
  have low := value.le_toInt
  have high := value.toInt_lt
  apply length_slebGroups value 9
  · norm_num at low ⊢
    omega
  · norm_num at high ⊢
    omega

theorem paddedGroups_ends {grouping : Grouping} (value : Word) (padTo : Nat)
    (small : ∀ rest, (grouping.padValue rest).toNat < 128) :
    ∀ byte ∈ paddedGroups grouping value padTo, byte.toNat < 128 := by
  intro byte member
  rcases List.mem_append.mp member with inGroups | inPadding
  · exact groups_ends grouping value byte inGroups
  · rw [List.eq_of_mem_replicate inPadding]
    exact small _

theorem encodeULEB128_roundTrip (value : Word) (short : padTo ≤ 10) :
    RoundTrip encodeULEB128 encodeULEB128ToBuffer getULEB128Size decodeULEB128 value padTo := by
  have few := few_ulebGroups value
  have length := length_encodedBytes ulebGrouping value padTo
  apply roundTrip_of_decodes short (getULEB128Size_eq value) ((getULEB128Size_eq value).trans_le few)
  intro suffix finish ahead
  obtain ⟨found, same⟩ := firstNumber_encodedBytes
    (@paddedGroups_ends ulebGrouping value padTo fun _ => Nat.zero_lt_succ 127) suffix
  have denoted : Nat.ofDigits 128 ((encodedBytes ulebGrouping value padTo).map groupOf) = value.toNat := by
    rw [same]
    unfold paddedGroups
    rw [List.map_append, List.map_replicate]
    exact (Nat.ofDigits_append_replicate_zero _).trans (ulebGroups_value value)
  have total : (0 : Word).toNat + 2 ^ 0 * Nat.ofDigits 128 ((encodedBytes ulebGrouping value padTo).map groupOf) =
      value.toNat := by
    rw [denoted, pow_zero, Nat.one_mul]
    exact Nat.zero_add _
  have ran := @decodeULEB128Loop_number finish 0 0 0 _ _ found (fun place given => by
    rw [Nat.zero_add]
    exact ahead place given) (by decide) (by
      rw [total]
      exact value.isLt) (by omega)
  rw [total, Nat.zero_add, distance_of_le (by omega), BitVec.ofNat_toNat, BitVec.setWidth_eq] at ran
  exact ran

theorem encodeSLEB128_roundTrip (value : Word) (short : padTo ≤ 10) :
    RoundTrip encodeSLEB128 encodeSLEB128ToBuffer getSLEB128Size decodeSLEB128 value padTo := by
  have few := few_slebGroups value
  have length := length_encodedBytes slebGrouping value padTo
  apply roundTrip_of_decodes short (getSLEB128Size_eq value) ((getSLEB128Size_eq value).trans_le few)
  intro suffix finish ahead
  have small : ∀ rest, (slebGrouping.padValue rest).toNat < 128 := by
    intro rest
    change (if rest.slt 0#64 then 0x7f#8 else 0x00#8).toNat < 128
    split <;> decide
  obtain ⟨found, same⟩ := firstNumber_encodedBytes (paddedGroups_ends value padTo small) suffix
  obtain ⟨front, last, split, sign, value'⟩ := slebGroups_value value
  have denoted : slebValue ((encodedBytes slebGrouping value padTo).map groupOf) = value.toInt := by
    have extended := @signedValue_replicate 128 (by decide) (by decide) (front.map groupOf) (groupOf last)
      (padTo - (groups slebGrouping value).length)
    rw [split, List.map_append] at value'
    rw [same, ← value']
    unfold paddedGroups slebValue
    rw [List.map_append, List.map_replicate, sign]
    rw [split] at extended ⊢
    rw [List.map_append]
    exact extended
  have ran := decodeSLEB128_number found (by omega) ahead
  rw [denoted, BitVec.ofInt_toInt] at ran
  exact ran

/-- Encoded to either sink, every value is read back from as many bytes as the sizes say. -/
theorem leb128_roundTrip (value : Word) (short : padTo ≤ 10) :
    RoundTrip encodeULEB128 encodeULEB128ToBuffer getULEB128Size decodeULEB128 value padTo ∧
      RoundTrip encodeSLEB128 encodeSLEB128ToBuffer getSLEB128Size decodeSLEB128 value padTo :=
  ⟨encodeULEB128_roundTrip value short, encodeSLEB128_roundTrip value short⟩

theorem leb128_roundTrip_ofMinusThree :
    (5 : Nat) ≤ 10 ∧
      RoundTrip encodeULEB128 encodeULEB128ToBuffer getULEB128Size decodeULEB128 (-3#64) 5 ∧
      RoundTrip encodeSLEB128 encodeSLEB128ToBuffer getSLEB128Size decodeSLEB128 (-3#64) 5 :=
  ⟨by decide, leb128_roundTrip (-3#64) (by decide)⟩

/-! ### Relaxation -/

def relaxLEB (isSigned : Bool) (value : Word) (contents : List Byte) : List Byte × Bool :=
  let data :=
    if isSigned then (encodeSLEB128 value [] contents.length).1 else (encodeULEB128 value [] contents.length).1
  (data, contents.length != data.length)

def decodeLEB (isSigned : Bool) (contents : List Byte) : Option Decoded :=
  if isSigned then decodeSLEB128 contents (some contents.length)
    else decodeULEB128 contents (some contents.length)

/-- The values an expression takes from one layout to the next; the flags say which changed a size. -/
def relaxAll (isSigned : Bool) : List Word → List Byte → List Byte × List Bool
  | [], contents => (contents, [])
  | value :: values, contents =>
      let (relaxed, changed) := relaxLEB isSigned value contents
      let (last, others) := relaxAll isSigned values relaxed
      (last, changed :: others)

theorem relaxLEB_spec (isSigned : Bool) (value : Word) {contents : List Byte} (short : contents.length ≤ 10) :
    let (relaxed, changed) := relaxLEB isSigned value contents
    contents.length ≤ relaxed.length ∧ relaxed.length ≤ 10 ∧ (changed = true ↔ contents.length < relaxed.length) ∧
      decodeLEB isSigned relaxed = some ⟨value, relaxed.length, none⟩ := by
  obtain ⟨bytes, length, stream, decoded, few⟩ : ∃ bytes : List Byte, contents.length ≤ bytes.length ∧
      (relaxLEB isSigned value contents).1 = bytes ∧
      decodeLEB isSigned bytes = some ⟨value, bytes.length, none⟩ ∧ bytes.length ≤ 10 := by
    unfold relaxLEB decodeLEB
    cases isSigned with
    | true =>
        obtain ⟨bytes, length, stream, -, decoded⟩ := encodeSLEB128_roundTrip value short
        have few := few_slebGroups value
        rw [← getSLEB128Size_eq] at few
        have read := decoded [] (some bytes.length) (fun place given => (Option.some.inj given).le)
        rw [List.append_nil] at read
        exact ⟨bytes, by omega, by rw [if_pos rfl, stream]; rfl, read, by omega⟩
    | false =>
        obtain ⟨bytes, length, stream, -, decoded⟩ := encodeULEB128_roundTrip value short
        have few := few_ulebGroups value
        rw [← getULEB128Size_eq] at few
        have read := decoded [] (some bytes.length) (fun place given => (Option.some.inj given).le)
        rw [List.append_nil] at read
        exact ⟨bytes, by omega, by rw [if_neg Bool.false_ne_true, stream]; rfl, read, by omega⟩
  have changed : (relaxLEB isSigned value contents).2 = (contents.length != bytes.length) := by
    rw [← stream]
    rfl
  have shape : relaxLEB isSigned value contents = (bytes, contents.length != bytes.length) :=
    Prod.ext stream changed
  rw [shape]
  dsimp only
  refine ⟨length, few, ?_, decoded⟩
  rw [bne_iff_ne]
  omega

/-- Every change makes a fragment longer, up to ten bytes, and it holds the last value. -/
theorem relaxAll_settles (isSigned : Bool) (values : List Word) {contents : List Byte}
    (short : contents.length ≤ 10) :
    (relaxAll isSigned values contents).1.length ≤ 10 ∧
      (relaxAll isSigned values contents).2.count true + contents.length ≤
        (relaxAll isSigned values contents).1.length ∧
      ∀ value ∈ values.getLast?, decodeLEB isSigned (relaxAll isSigned values contents).1 =
        some ⟨value, (relaxAll isSigned values contents).1.length, none⟩ := by
  induction values generalizing contents with
  | nil => exact ⟨short, by simp [relaxAll], nofun⟩
  | cons value values ih =>
      have step := relaxLEB_spec isSigned value short
      unfold relaxAll
      generalize relaxLEB isSigned value contents = result at step ⊢
      obtain ⟨relaxed, changed⟩ := result
      obtain ⟨longer, few, grows, decoded⟩ := step
      dsimp only at longer few grows decoded ⊢
      obtain ⟨bound, settles, last⟩ := ih few
      refine ⟨bound, ?_, ?_⟩
      · rw [List.count_cons]
        cases changed with
        | true =>
            have more := grows.mp rfl
            rw [if_pos (beq_self_eq_true true)]
            omega
        | false =>
            rw [if_neg (by decide)]
            omega
      · intro given also
        cases values with
        | nil =>
            cases also
            exact decoded
        | cons next rest =>
            rw [List.getLast?_cons_cons] at also
            exact last given also

/-- A byte that grows for a value of two and is kept for a value of one. -/
theorem relaxAll_settles_growing :
    (relaxAll false [3, 200, 5] [0]).1.length ≤ 10 ∧
      (relaxAll false [3, 200, 5] [0]).2.count true + 1 ≤ (relaxAll false [3, 200, 5] [0]).1.length ∧
      ∀ value ∈ [(3 : Word), 200, 5].getLast?, decodeLEB false (relaxAll false [3, 200, 5] [0]).1 =
        some ⟨value, (relaxAll false [3, 200, 5] [0]).1.length, none⟩ :=
  relaxAll_settles false [3, 200, 5] (by decide)

end EvmBackend.LEB128
