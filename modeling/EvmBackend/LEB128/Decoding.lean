/-
What the decoders return on any bytes.

The first decoder refuses every number that does not fit a word. The second has
no such test: it is right as long as the number has at most ten bytes, the
tenth of which is one of the two that only carry the sign.
-/

import EvmBackend.LEB128
import EvmBackend.Library.GroupedNumbers

namespace EvmBackend.LEB128

open GroupedNumbers List Option BitVec

def continues (byte : Byte) : Bool := decide (128 ≤ byte.toNat)

def groupOf (byte : Byte) : Nat := byte.toNat % 128

theorem groupOf_lt (byte : Byte) : groupOf byte < 128 := Nat.mod_lt _ (by decide)

theorem ofDigits_groups_lt (bytes : List Byte) : Nat.ofDigits 128 (bytes.map groupOf) < 128 ^ bytes.length := by
  have bounded := Nat.ofDigits_lt_base_pow_length (b := 128) (l := bytes.map groupOf) (by decide) (by
    intro group member
    obtain ⟨byte, -, rfl⟩ := List.mem_map.mp member
    exact groupOf_lt byte)
  rw [length_map] at bounded
  exact bounded

theorem slice_toNat (byte : Byte) : ((byte &&& 0x7f#8).setWidth 64 : Word).toNat = groupOf byte := by
  have low : (byte &&& 0x7f#8).toNat = byte.toNat % 128 := by
    rw [toNat_and]
    exact Nat.and_two_pow_sub_one_eq_mod byte.toNat 7
  have small : byte.toNat % 128 < 2 ^ 64 := (Nat.mod_lt _ (by decide)).trans (by decide)
  rw [toNat_setWidth, low, Nat.mod_eq_of_lt small]
  rfl

theorem shiftLeft_of_lt (value : Word) {shift : Nat} (small : shift < 64) :
    shiftLeft value shift = some (value <<< shift) := if_pos small

theorem shiftRight_of_lt (value : Word) {shift : Nat} (small : shift < 64) :
    shiftRight value shift = some (value >>> shift) := if_pos small

theorem two_pow_split {shift : Nat} (small : shift < 64) : 2 ^ 64 = 2 ^ shift * 2 ^ (64 - shift) := by
  rw [← pow_add, Nat.add_sub_cancel' small.le]

theorem toNat_shiftLeft (slice : Word) {shift : Nat} (small : shift < 64) :
    (slice <<< shift).toNat = 2 ^ shift * (slice.toNat % 2 ^ (64 - shift)) := by
  rw [BitVec.toNat_shiftLeft, Nat.shiftLeft_eq, Nat.mul_comm, two_pow_split small, Nat.mul_mod_mul_left]

theorem shift_back_eq (slice : Word) {shift : Nat} (small : shift < 64) :
    slice <<< shift >>> shift = slice ↔ slice.toNat < 2 ^ (64 - shift) := by
  have back : (slice <<< shift >>> shift).toNat = slice.toNat % 2 ^ (64 - shift) := by
    rw [toNat_ushiftRight, toNat_shiftLeft slice small, Nat.shiftRight_eq_div_pow,
      Nat.mul_div_cancel_left _ (Nat.two_pow_pos shift)]
  constructor
  · intro same
    rw [same] at back
    rw [back]
    exact Nat.mod_lt _ (Nat.two_pow_pos _)
  · intro fits
    apply eq_of_toNat_eq
    rw [back, Nat.mod_eq_of_lt fits]

section Unsigned

variable {finish : Option Nat} {shift read : Nat} {value : Word}

theorem decodeULEB128Loop_cons (byte : Byte) (bytes : List Byte) (inside : finish ≠ some read) :
    decodeULEB128Loop finish shift read value (byte :: bytes) =
      if shift < 64 ∧ groupOf byte < 2 ^ (64 - shift) then
        if continues byte then
          decodeULEB128Loop finish (shift + 7) (read + 1)
            (value + (byte &&& 0x7f#8).setWidth 64 <<< shift) bytes
        else some ⟨value + (byte &&& 0x7f#8).setWidth 64 <<< shift, distance (read + 1), none⟩
      else some ⟨0, distance read, some "uleb128 too big for uint64"⟩ := by
  rw [decodeULEB128Loop, if_neg inside]
  dsimp only [bind]
  by_cases small : shift < 64
  · rw [if_neg (Nat.not_le.mpr small), shiftLeft_of_lt _ small, bind_some, shiftRight_of_lt _ small,
      bind_some, bind_some, bind_some]
    have back := shift_back_eq ((byte &&& 0x7f#8).setWidth 64) small
    rw [slice_toNat] at back
    by_cases fits : groupOf byte < 2 ^ (64 - shift)
    · have same := back.mpr fits
      have kept : shift < 64 ∧ groupOf byte < 2 ^ (64 - shift) := ⟨small, fits⟩
      rw [if_neg (by rw [same, bne_self_eq_false]; exact Bool.false_ne_true), if_pos kept]
      unfold continues
      by_cases more : 128 ≤ byte.toNat
      · rw [if_pos more, if_pos (decide_eq_true more)]
      · have stops : ¬ decide (128 ≤ byte.toNat) = true := fun same => more (of_decide_eq_true same)
        rw [if_neg more, if_neg stops]
    · have differs := fun same => fits (back.mp same)
      rw [if_pos (bne_iff_ne.mpr differs), if_neg fun both => fits both.2]
  · rw [if_pos (Nat.le_of_not_lt small), bind_some, if_pos rfl, if_neg fun both => small both.1]

theorem toNat_add_slice (byte : Byte) (below : value.toNat < 2 ^ shift) (small : shift < 64)
    (fits : groupOf byte < 2 ^ (64 - shift)) :
    (value + (byte &&& 0x7f#8).setWidth 64 <<< shift).toNat = value.toNat + 2 ^ shift * groupOf byte := by
  have room : 2 ^ shift * (groupOf byte + 1) ≤ 2 ^ 64 := by
    rw [two_pow_split small]
    exact Nat.mul_le_mul_left _ fits
  rw [Nat.mul_add, Nat.mul_one] at room
  rw [toNat_add, toNat_shiftLeft _ small, slice_toNat, Nat.mod_eq_of_lt fits]
  exact Nat.mod_eq_of_lt (by omega)

theorem below_next (byte : Byte) (below : value.toNat < 2 ^ shift) :
    value.toNat + 2 ^ shift * groupOf byte < 2 ^ (shift + 7) := by
  have room : 2 ^ shift * (groupOf byte + 1) ≤ 2 ^ shift * 2 ^ 7 := Nat.mul_le_mul_left _ (groupOf_lt byte)
  rw [Nat.mul_add, Nat.mul_one] at room
  rw [pow_add]
  omega

theorem ofDigits_groups_cons (byte : Byte) (bytes : List Byte) :
    Nat.ofDigits 128 ((byte :: bytes).map groupOf) =
      groupOf byte + 128 * Nat.ofDigits 128 (bytes.map groupOf) := by
  rw [map_cons, Nat.ofDigits_cons]

theorem groups_shifted (byte : Byte) (bytes : List Byte) :
    value.toNat + 2 ^ shift * Nat.ofDigits 128 ((byte :: bytes).map groupOf) =
      value.toNat + 2 ^ shift * groupOf byte + 2 ^ (shift + 7) * Nat.ofDigits 128 (bytes.map groupOf) := by
  rw [ofDigits_groups_cons, pow_add]
  ring

theorem decodeULEB128Loop_safe (bytes : List Byte) (below : value.toNat < 2 ^ shift) :
    ∃ out, decodeULEB128Loop (some (read + bytes.length)) shift read value bytes = some out ∧
      (out.error = none → ∃ number, firstNumber continues bytes = some number ∧
        out.value.toNat = value.toNat + 2 ^ shift * Nat.ofDigits 128 (number.map groupOf) ∧
        out.n = distance (read + number.length) ∧ shift + 7 * number.length ≤ 70) := by
  induction bytes generalizing shift read value with
  | nil =>
      rw [decodeULEB128Loop, length_nil, Nat.add_zero, if_pos rfl]
      exact ⟨_, rfl, fun good => absurd good (some_ne_none _)⟩
  | cons byte bytes ih =>
      have inside : some (read + (byte :: bytes).length) ≠ some read := by
        rw [length_cons]
        exact fun same => absurd (Option.some.inj same) (by omega)
      rw [decodeULEB128Loop_cons byte bytes inside]
      by_cases fits : shift < 64 ∧ groupOf byte < 2 ^ (64 - shift)
      · rw [if_pos fits]
        have added := toNat_add_slice byte below fits.1 fits.2
        by_cases more : continues byte = true
        · rw [if_pos more]
          have later := below_next byte below
          rw [← added] at later
          have length : read + (byte :: bytes).length = read + 1 + bytes.length := by
            rw [length_cons]
            omega
          rw [length]
          obtain ⟨out, ran, exact'⟩ := ih later
          refine ⟨out, ran, fun good => ?_⟩
          obtain ⟨number, found, denoted, count, short⟩ := exact' good
          refine ⟨byte :: number, ?_, ?_, ?_, ?_⟩
          · rw [firstNumber, if_pos more, found, map_some]
          · rw [groups_shifted, denoted, added]
          · rw [count, length_cons]
            congr 1
            omega
          · rw [length_cons]
            omega
        · rw [if_neg more]
          refine ⟨_, rfl, fun _ => ⟨[byte], ?_, ?_, rfl, ?_⟩⟩
          · rw [firstNumber, if_neg more]
          · rw [map_singleton, Nat.ofDigits_singleton, added]
          · rw [length_singleton]
            omega
      · rw [if_neg fits]
        exact ⟨_, rfl, fun good => absurd good (some_ne_none _)⟩

theorem decodeULEB128Loop_number {bytes number : List Byte} (found : firstNumber continues bytes = some number)
    (ahead : ∀ place ∈ finish, read + number.length ≤ place) (below : value.toNat < 2 ^ shift)
    (fits : value.toNat + 2 ^ shift * Nat.ofDigits 128 (number.map groupOf) < 2 ^ 64)
    (short : shift + 7 * number.length ≤ 70) :
    decodeULEB128Loop finish shift read value bytes =
      some ⟨BitVec.ofNat 64 (value.toNat + 2 ^ shift * Nat.ofDigits 128 (number.map groupOf)),
        distance (read + number.length), none⟩ := by
  induction bytes generalizing shift read value number with
  | nil => cases found
  | cons byte bytes ih =>
      have slice : ∀ others : List Byte,
          value.toNat + 2 ^ shift * Nat.ofDigits 128 ((byte :: others).map groupOf) <
          2 ^ 64 → shift < 64 → groupOf byte < 2 ^ (64 - shift) := by
        intro others whole small
        rw [groups_shifted, two_pow_split small] at whole
        have part : 2 ^ shift * groupOf byte < 2 ^ shift * 2 ^ (64 - shift) := by omega
        exact Nat.lt_of_mul_lt_mul_left part
      have inside : ∀ others : List Byte, (∀ place ∈ finish, read + (byte :: others).length ≤ place) →
          finish ≠ some read := by
        intro others beyond same
        have place := beyond read same
        rw [length_cons] at place
        omega
      unfold firstNumber at found
      by_cases more : continues byte = true
      · rw [if_pos more] at found
        obtain ⟨tail, rest, shape⟩ := map_eq_some_iff.mp found
        subst shape
        obtain ⟨front, last, suffix, split, -⟩ := firstNumber_split rest
        have filled : 0 < tail.length := by
          rw [split, length_append]
          exact Nat.succ_pos _
        rw [length_cons] at short
        have small : shift < 64 := by omega
        have kept := slice tail fits small
        have added := toNat_add_slice byte below small kept
        have later := below_next byte below
        rw [← added] at later
        have kept' : shift < 64 ∧ groupOf byte < 2 ^ (64 - shift) := ⟨small, kept⟩
        rw [decodeULEB128Loop_cons byte bytes (inside tail ahead), if_pos kept', if_pos more]
        rw [groups_shifted, ← added] at fits ⊢
        rw [ih rest (fun place given => by
          have beyond := ahead place given
          rw [length_cons] at beyond
          omega) later fits (by omega), length_cons]
        congr 2
        rw [Nat.add_assoc, Nat.add_comm 1]
      · rw [if_neg more] at found
        cases found
        rw [length_singleton] at short
        have small : shift < 64 := by omega
        have kept : shift < 64 ∧ groupOf byte < 2 ^ (64 - shift) := ⟨small, slice [] fits small⟩
        have added := toNat_add_slice byte below small kept.2
        rw [decodeULEB128Loop_cons byte bytes (inside [] ahead), if_pos kept, if_neg more, map_singleton,
          Nat.ofDigits_singleton, ← added, ofNat_toNat, setWidth_eq]
        rfl

end Unsigned

/-! ### Signed numbers -/

theorem ofInt_eq_of_dvd {left right : Int} (apart : (2 : Int) ^ 64 ∣ left - right) :
    BitVec.ofInt 64 left = BitVec.ofInt 64 right := by
  have same : left % 2 ^ 64 = right % 2 ^ 64 :=
    Int.emod_eq_emod_iff_emod_sub_eq_zero.mpr (Int.emod_eq_zero_of_dvd apart)
  apply eq_of_toNat_eq
  rw [toNat_ofInt, toNat_ofInt]
  exact congrArg Int.toNat same

theorem signBit_groupOf (byte : Byte) : byte &&& 0x40#8 ≠ 0#8 ↔ 64 ≤ groupOf byte := by
  have bit := and_signBit byte (by decide)
  change (byte &&& 0x40#8 != 0#8) = _ at bit
  rw [BitVec.getLsbD, Nat.testBit_eq_decide_div_mod_eq] at bit
  rw [← bne_iff_ne, bit, decide_eq_true_iff]
  unfold groupOf
  omega

section Signed

variable {finish : Option Nat} {shift read : Nat} {value : Word}

def signExtended (shift : Nat) (byte : Byte) (value : Word) : Word :=
  if shift + 7 < 64 ∧ byte &&& 0x40#8 ≠ 0#8 then value ||| (-1#64) <<< (shift + 7) else value

theorem decodeSLEB128Loop_cons (byte : Byte) (bytes : List Byte) (inside : finish ≠ some read)
    (small : shift < 64) :
    decodeSLEB128Loop finish shift read value (byte :: bytes) =
      if continues byte then
        decodeSLEB128Loop finish (shift + 7) (read + 1)
          (value ||| (byte &&& 0x7f#8).setWidth 64 <<< shift) bytes
      else some ⟨signExtended shift byte (value ||| (byte &&& 0x7f#8).setWidth 64 <<< shift),
        distance (read + 1), none⟩ := by
  rw [decodeSLEB128Loop, if_neg inside]
  dsimp only [bind]
  rw [shiftLeft_of_lt _ small, bind_some]
  unfold continues signExtended
  by_cases more : 128 ≤ byte.toNat
  · rw [if_pos more, if_pos (decide_eq_true more)]
  · have stops : ¬ decide (128 ≤ byte.toNat) = true := fun same => more (of_decide_eq_true same)
    rw [if_neg more, if_neg stops]
    by_cases extends' : shift + 7 < 64 ∧ byte &&& 0x40#8 ≠ 0#8
    · rw [if_pos extends', if_pos extends', shiftLeft_of_lt _ extends'.1, bind_some]
    · rw [if_neg extends', if_neg extends']

theorem decodeSLEB128Loop_wide (byte : Byte) (bytes : List Byte) (inside : finish ≠ some read)
    (wide : 64 ≤ shift) :
    decodeSLEB128Loop finish shift read value (byte :: bytes) = none := by
  rw [decodeSLEB128Loop, if_neg inside]
  dsimp only [bind]
  rw [shiftLeft, if_neg (Nat.not_lt.mpr wide), bind_none]

theorem toNat_or_slice (byte : Byte) (below : value.toNat < 2 ^ shift) (small : shift < 64) :
    (value ||| (byte &&& 0x7f#8).setWidth 64 <<< shift).toNat =
      (value.toNat + 2 ^ shift * groupOf byte) % 2 ^ 64 := by
  have low : (value.toNat + 2 ^ shift * groupOf byte) % 2 ^ shift = value.toNat := by
    rw [Nat.add_mul_mod_self_left, Nat.mod_eq_of_lt below]
  have high : (value.toNat + 2 ^ shift * groupOf byte) / 2 ^ shift = groupOf byte := by
    rw [Nat.add_mul_div_left _ _ (Nat.two_pow_pos shift), Nat.div_eq_of_lt below, Nat.zero_add]
  rw [toNat_or, toNat_shiftLeft _ small, slice_toNat, Nat.or_comm, ← Nat.two_pow_add_eq_or_of_lt below,
    two_pow_split small, Nat.mod_mul, low, high, Nat.add_comm]

theorem or_slice_eq (byte : Byte) (below : value.toNat < 2 ^ shift) (small : shift < 64) :
    value ||| (byte &&& 0x7f#8).setWidth 64 <<< shift =
      BitVec.ofNat 64 (value.toNat + 2 ^ shift * groupOf byte) := by
  apply eq_of_toNat_eq
  rw [toNat_or_slice byte below small, toNat_ofNat]

theorem or_ones_eq {low top : Nat} (below : low < 2 ^ top) (small : top < 64) :
    BitVec.ofNat 64 low ||| (-1#64) <<< top = BitVec.ofInt 64 ((low : Int) - (2 ^ top : Nat)) := by
  have split := two_pow_split small
  have positive := Nat.two_pow_pos top
  have room := Nat.two_pow_pos (64 - top)
  have ones : ((-1#64 : Word)).toNat % 2 ^ (64 - top) = 2 ^ (64 - top) - 1 := by
    have all : ((-1#64 : Word)).toNat = 2 ^ (64 - top) - 1 + 2 ^ (64 - top) * (2 ^ top - 1) := by
      change 2 ^ 64 - 1 = _
      rw [split, Nat.mul_sub_one, Nat.mul_comm (2 ^ (64 - top))]
      have more : 2 ^ (64 - top) ≤ 2 ^ top * 2 ^ (64 - top) := Nat.le_mul_of_pos_left _ positive
      omega
    rw [all, Nat.add_mul_mod_self_left]
    exact Nat.mod_eq_of_lt (by omega)
  have fits : low < 2 ^ 64 := below.trans_le (Nat.pow_le_pow_right (by decide) small.le)
  have upper : 2 ^ top * (2 ^ (64 - top) - 1) = 2 ^ 64 - 2 ^ top := by
    rw [Nat.mul_sub_one, ← split]
  have less : 2 ^ top ≤ 2 ^ 64 := Nat.pow_le_pow_right (by decide) small.le
  apply eq_of_toNat_eq
  rw [toNat_or, toNat_shiftLeft _ small, ones, toNat_ofNat, Nat.mod_eq_of_lt fits, Nat.or_comm,
    ← Nat.two_pow_add_eq_or_of_lt below, upper, toNat_ofInt]
  generalize 2 ^ top = power at below positive less ⊢
  omega

theorem signed_group (low : Nat) (byte : Byte) :
    (low : Int) + 2 ^ shift * signedValue 128 [groupOf byte] =
      (low + 2 ^ shift * groupOf byte : Nat) - if 64 ≤ groupOf byte then ((2 ^ (shift + 7) : Nat) : Int)
        else 0 := by
  rw [signedValue_singleton]
  change (low : Int) + 2 ^ shift * ((groupOf byte : Int) - if 64 ≤ groupOf byte then 128 else 0) = _
  rw [pow_add]
  push_cast
  split <;> ring

theorem signExtended_eq (byte : Byte) (below : value.toNat < 2 ^ shift) (small : shift < 64) :
    signExtended shift byte (value ||| (byte &&& 0x7f#8).setWidth 64 <<< shift) =
      BitVec.ofInt 64 (value.toNat + 2 ^ shift * signedValue 128 [groupOf byte]) := by
  have bound := below_next byte below
  rw [signed_group, or_slice_eq byte below small]
  unfold signExtended
  have bit := signBit_groupOf byte
  by_cases negative : 64 ≤ groupOf byte
  · rw [if_pos negative]
    by_cases room : shift + 7 < 64
    · rw [if_pos (And.intro room (bit.mpr negative))]
      exact or_ones_eq bound room
    · rw [if_neg fun both => room both.1, ← ofInt_natCast]
      apply ofInt_eq_of_dvd
      have power : (2 : Int) ^ 64 ∣ 2 ^ (shift + 7) := pow_dvd_pow 2 (Nat.le_of_not_lt room)
      rw [Int.sub_sub_self]
      push_cast
      exact power
  · rw [if_neg negative, if_neg fun both => negative (bit.mp both.2), Int.sub_zero, ofInt_natCast]

theorem decodeSLEB128Loop_number {bytes number : List Byte} (found : firstNumber continues bytes = some number)
    (ahead : ∀ place ∈ finish, read + number.length ≤ place) (below : value.toNat < 2 ^ shift)
    (short : shift + 7 * number.length ≤ 70) :
    decodeSLEB128Loop finish shift read value bytes =
      some ⟨BitVec.ofInt 64 (value.toNat + 2 ^ shift * signedValue 128 (number.map groupOf)),
        distance (read + number.length), none⟩ := by
  induction bytes generalizing shift read value number with
  | nil => cases found
  | cons byte bytes ih =>
      have inside : ∀ others : List Byte, (∀ place ∈ finish, read + (byte :: others).length ≤ place) →
          finish ≠ some read := by
        intro others beyond same
        have place := beyond read same
        rw [length_cons] at place
        omega
      unfold firstNumber at found
      by_cases more : continues byte = true
      · rw [if_pos more] at found
        obtain ⟨tail, rest, shape⟩ := map_eq_some_iff.mp found
        subst shape
        obtain ⟨front, last, suffix, split, -⟩ := firstNumber_split rest
        have filled : 0 < tail.length := by
          rw [split, length_append]
          exact Nat.succ_pos _
        have some' : tail.map groupOf ≠ [] := by
          intro none'
          rw [map_eq_nil_iff.mp none'] at filled
          exact absurd filled (Nat.lt_irrefl 0)
        rw [length_cons] at short
        have small : shift < 64 := by omega
        have later := below_next byte below
        have power : 2 ^ (shift + 7) ≤ 2 ^ 64 := Nat.pow_le_pow_right (by decide) (by omega)
        have joined := toNat_or_slice byte below small
        rw [Nat.mod_eq_of_lt (later.trans_le power)] at joined
        rw [← joined] at later
        rw [decodeSLEB128Loop_cons byte bytes (inside tail ahead) small, if_pos more,
          ih rest (fun place given => by
            have beyond := ahead place given
            rw [length_cons] at beyond
            omega) later (by omega), length_cons, joined, map_cons, signedValue_cons _ some', pow_add]
        have count : read + 1 + tail.length = read + (tail.length + 1) := by omega
        rw [count]
        congr 3
        push_cast
        ring
      · rw [if_neg more] at found
        cases found
        rw [length_singleton] at short
        have small : shift < 64 := by omega
        rw [decodeSLEB128Loop_cons byte bytes (inside [] ahead) small, if_neg more,
          signExtended_eq byte below small]
        rfl

theorem ne_end {read : Nat} (byte : Byte) (bytes : List Byte) :
    some (read + (byte :: bytes).length) ≠ some read := by
  rw [length_cons]
  exact fun same => absurd (Option.some.inj same) (by omega)

theorem length_behind (read : Nat) (byte : Byte) (bytes : List Byte) :
    read + (byte :: bytes).length = read + 1 + bytes.length := by
  rw [length_cons]
  omega

theorem decodeSLEB128Loop_unended {bytes : List Byte} (open' : ∀ byte ∈ bytes, continues byte = true)
    (short : shift + 7 * bytes.length ≤ 70) :
    decodeSLEB128Loop (some (read + bytes.length)) shift read value bytes =
      some ⟨0, distance (read + bytes.length), some "malformed sleb128, extends past end"⟩ := by
  induction bytes generalizing shift read value with
  | nil => rw [decodeSLEB128Loop, length_nil, Nat.add_zero, if_pos rfl]
  | cons byte bytes ih =>
      rw [length_cons] at short
      rw [decodeSLEB128Loop_cons byte bytes (ne_end byte bytes) (by omega),
        if_pos (open' byte mem_cons_self), length_behind]
      exact ih (forall_mem_cons.mp open').2 (by omega)

theorem decodeSLEB128Loop_stuck {front : List Byte} (open' : ∀ byte ∈ front, continues byte = true)
    (next : Byte) (bytes : List Byte) (long : 64 ≤ shift + 7 * front.length) :
    decodeSLEB128Loop (some (read + (front ++ next :: bytes).length)) shift read value (front ++ next :: bytes) =
      none := by
  induction front generalizing shift read value with
  | nil => exact decodeSLEB128Loop_wide next bytes (ne_end next bytes) long
  | cons byte front ih =>
      rw [length_cons] at long
      rw [List.cons_append]
      by_cases small : shift < 64
      · rw [decodeSLEB128Loop_cons byte _ (ne_end byte _) small, if_pos (open' byte mem_cons_self),
          length_behind]
        exact ih (forall_mem_cons.mp open').2 (by omega)
      · exact decodeSLEB128Loop_wide byte _ (ne_end byte _) (Nat.le_of_not_lt small)

end Signed

/-! ### Any bytes -/

/-- Nothing is read at the end or behind it, no shift is undefined, and a value
without error is that of the bytes up to the first that does not continue. -/
def Safe (decode : List Byte → Option Nat → Option Decoded) (denoted : List Nat → Int) (read : Word → Int)
    (bytes : List Byte) : Prop :=
  ∃ out, decode bytes (some bytes.length) = some out ∧
    (out.error = none → ∃ number, firstNumber continues bytes = some number ∧
      read out.value = denoted (number.map groupOf) ∧ out.n = number.length)

/-- At most ten bytes, the tenth with nothing but the sign. -/
def SlebFits (bytes : List Byte) : Prop :=
  match firstNumber continues bytes with
  | none => bytes.length ≤ 10
  | some number => number.length < 10 ∨
      number.length = 10 ∧ (number.getLast? = some 0x00#8 ∨ number.getLast? = some 0x7f#8)

instance (bytes : List Byte) : Decidable (SlebFits bytes) := by
  unfold SlebFits
  cases firstNumber continues bytes <;> infer_instance

def ulebValue (groups : List Nat) : Int := (Nat.ofDigits 128 groups : Nat)

def slebValue (groups : List Nat) : Int := signedValue 128 groups

theorem distance_of_le {count : Nat} (short : count ≤ 10) : distance count = count := by
  unfold distance
  exact Nat.mod_eq_of_lt (by omega)

theorem decodeULEB128_safe (bytes : List Byte) :
    Safe decodeULEB128 ulebValue (fun value => value.toNat) bytes := by
  obtain ⟨out, ran, good⟩ := @decodeULEB128Loop_safe 0 0 0 bytes (by decide)
  rw [Nat.zero_add] at ran
  refine ⟨out, ran, fun fine => ?_⟩
  obtain ⟨number, found, denoted, count, short⟩ := good fine
  refine ⟨number, found, ?_, ?_⟩
  · rw [pow_zero, Nat.one_mul] at denoted
    exact congrArg Int.ofNat (denoted.trans (Nat.zero_add _))
  · rw [count, Nat.zero_add]
    exact distance_of_le (by omega)

theorem slebValue_fits {front : List Byte} {last : Byte} (short : front.length ≤ 9)
    (ends : continues last = false) :
    (-2 ^ 63 ≤ slebValue ((front ++ [last]).map groupOf) ∧ slebValue ((front ++ [last]).map groupOf) < 2 ^ 63) ↔
      front.length < 9 ∨ last = 0x00#8 ∨ last = 0x7f#8 := by
  have lower := ofDigits_groups_lt front
  have group : groupOf last = last.toNat := by
    have stops := of_decide_eq_false ends
    unfold groupOf
    omega
  have zero : last = 0x00#8 ↔ last.toNat = 0 := toNat_inj.symm
  have ones : last = 0x7f#8 ↔ last.toNat = 127 := toNat_inj.symm
  have small := groupOf_lt last
  unfold slebValue
  rw [map_append, map_singleton, signedValue_concat, length_map, zero, ones, group]
  obtain ⟨carried, worth, low, high⟩ : ∃ carried : Int,
      (last.toNat : Int) - (if 128 / 2 ≤ last.toNat then ((128 : Nat) : Int) else 0) = carried ∧
        -64 ≤ carried ∧ carried ≤ 63 := by
    refine ⟨_, rfl, ?_, ?_⟩
    · split <;> omega
    · split <;> omega
  rw [worth]
  have zeroWorth : last.toNat = 0 ↔ carried = 0 := by
    rw [← worth]
    split <;> omega
  have onesWorth : last.toNat = 127 ↔ carried = -1 := by
    rw [← worth]
    split <;> omega
  rw [zeroWorth, onesWorth]
  clear worth zeroWorth onesWorth zero ones group
  generalize Nat.ofDigits 128 (front.map groupOf) = digits at lower ⊢
  by_cases shorter : front.length < 9
  · have power : 128 ^ front.length ≤ 128 ^ 8 := Nat.pow_le_pow_right (by decide) (by omega)
    have bound : ((128 : Nat) : Int) ^ front.length ≤ 2 ^ 56 := by exact_mod_cast power
    have below : (digits : Int) < ((128 : Nat) : Int) ^ front.length := by exact_mod_cast lower
    generalize ((128 : Nat) : Int) ^ front.length = scale at bound below ⊢
    have least : scale * -64 ≤ scale * carried := Int.mul_le_mul_of_nonneg_left low (by omega)
    have most : scale * carried ≤ scale * 63 := Int.mul_le_mul_of_nonneg_left high (by omega)
    exact iff_of_true (by omega) (.inl shorter)
  · have nine : front.length = 9 := by omega
    rw [nine] at lower ⊢
    have scale : ((128 : Nat) : Int) ^ 9 = 2 ^ 63 := by norm_num
    rw [scale]
    omega

theorem decodeSLEB128_number {bytes number : List Byte} (found : firstNumber continues bytes = some number)
    (short : number.length ≤ 10) {finish : Option Nat} (ahead : ∀ place ∈ finish, number.length ≤ place) :
    decodeSLEB128 bytes finish =
      some ⟨BitVec.ofInt 64 (slebValue (number.map groupOf)), number.length, none⟩ := by
  have ran := @decodeSLEB128Loop_number finish 0 0 0 bytes number found (fun place given => by
    rw [Nat.zero_add]
    exact ahead place given) (by decide) (by omega)
  have denoted : ((BitVec.toNat (0 : Word) : Nat) : Int) + 2 ^ 0 * signedValue 128 (number.map groupOf) =
      slebValue (number.map groupOf) := by
    rw [pow_zero, Int.one_mul]
    exact Int.zero_add _
  rw [denoted, Nat.zero_add, distance_of_le short] at ran
  exact ran

theorem not_safe_of_stuck {decode : List Byte → Option Nat → Option Decoded} {denoted : List Nat → Int}
    {read : Word → Int} {bytes : List Byte} (stuck : decode bytes (some bytes.length) = none) :
    ¬ Safe decode denoted read bytes := by
  intro safe
  obtain ⟨out, ran, -⟩ := safe
  rw [stuck] at ran
  cases ran

theorem decodeSLEB128_stuck {front bytes : List Byte} (open' : ∀ byte ∈ front, continues byte = true)
    (next : Byte)
    (long : 10 ≤ front.length) :
    decodeSLEB128 (front ++ next :: bytes) (some (front ++ next :: bytes).length) = none := by
  have stuck := @decodeSLEB128Loop_stuck 0 0 0 front open' next bytes (by omega)
  rw [Nat.zero_add] at stuck
  exact stuck

theorem decodeSLEB128_safe_iff (bytes : List Byte) :
    Safe decodeSLEB128 slebValue BitVec.toInt bytes ↔ SlebFits bytes := by
  unfold SlebFits
  cases found : firstNumber continues bytes with
  | none =>
      have open' := firstNumber_none found
      change _ ↔ bytes.length ≤ 10
      by_cases short : bytes.length ≤ 10
      · have ran := @decodeSLEB128Loop_unended 0 0 0 bytes open' (by omega)
        rw [Nat.zero_add] at ran
        exact iff_of_true ⟨_, ran, fun good => absurd good (some_ne_none _)⟩ short
      · refine iff_of_false ?_ short
        have long : (bytes.take 10).length = 10 := length_take_of_le (by omega)
        have more : (bytes.drop 10) ≠ [] := fun none => by
          have rest := drop_eq_nil_iff.mp none
          omega
        obtain ⟨next, others, tail⟩ := exists_cons_of_ne_nil more
        have shape := take_append_drop 10 bytes
        rw [tail] at shape
        have stuck := @decodeSLEB128_stuck (bytes.take 10) others
          (fun byte member => open' byte (mem_of_mem_take member)) next long.ge
        rw [shape] at stuck
        exact not_safe_of_stuck stuck
  | some number =>
      obtain ⟨front, last, suffix, split, shape, open', ends⟩ := firstNumber_split found
      change _ ↔ number.length < 10 ∨ _
      have length : number.length = front.length + 1 := by
        rw [split, length_append, length_singleton]
      by_cases short : number.length ≤ 10
      · have ahead : ∀ place ∈ some bytes.length, number.length ≤ place := by
          intro place given
          cases given
          rw [shape, length_append]
          exact Nat.le_add_right _ _
        have ran := decodeSLEB128_number found short ahead
        have fits := @slebValue_fits front last (by omega) ends
        rw [← split] at fits
        have lastByte : number.getLast? = some last := by rw [split, getLast?_concat]
        rw [lastByte, Option.some.injEq, Option.some.injEq]
        have exact' : Safe decodeSLEB128 slebValue BitVec.toInt bytes ↔
            (BitVec.ofInt 64 (slebValue (number.map groupOf))).toInt = slebValue (number.map groupOf) := by
          constructor
          · intro safe
            obtain ⟨out, also, good⟩ := safe
            rw [ran] at also
            cases also
            obtain ⟨other, same, denoted, -⟩ := good rfl
            rw [found] at same
            cases same
            exact denoted
          · exact fun denoted => ⟨_, ran, fun _ => ⟨number, found, denoted, rfl⟩⟩
        rw [exact']
        constructor
        · intro denoted
          have low := (BitVec.ofInt 64 (slebValue (number.map groupOf))).le_toInt
          have high := (BitVec.ofInt 64 (slebValue (number.map groupOf))).toInt_lt
          rw [denoted] at low high
          rcases fits.mp ⟨low, high⟩ with fewer | last
          · exact .inl (by omega)
          · by_cases ten : number.length < 10
            · exact .inl ten
            · exact .inr ⟨by omega, last⟩
        · intro given
          have bounds := fits.mpr (by
            rcases given with fewer | ⟨-, last⟩
            · exact .inl (by omega)
            · exact .inr last)
          exact toInt_ofInt_eq_self (by decide) bounds.1 bounds.2
      · refine iff_of_false ?_ (by omega)
        have whole : bytes =
            front ++ last :: suffix := by rw [shape, split, List.append_assoc, singleton_append]
        have stuck := @decodeSLEB128_stuck front suffix open' last (by omega)
        rw [← whole] at stuck
        exact not_safe_of_stuck stuck

/-- The first decoder is safe on any bytes, the second only where the number fits. -/
theorem decoders_safe (bytes : List Byte) :
    Safe decodeULEB128 ulebValue (fun value => value.toNat) bytes ∧
      (Safe decodeSLEB128 slebValue BitVec.toInt bytes ↔ SlebFits bytes) :=
  ⟨decodeULEB128_safe bytes, decodeSLEB128_safe_iff bytes⟩

/-- The tenth group of 2 is worth 2 ^ 64; it is shifted out, and 0 is returned. -/
theorem decodeSLEB128_unsafe :
    decodeSLEB128 (List.replicate 9 0x80#8 ++ [0x02#8]) (some 10) = some ⟨0, 10, none⟩ ∧
      ¬ ∀ bytes, Safe decodeULEB128 ulebValue (fun value => value.toNat) bytes ∧
        Safe decodeSLEB128 slebValue BitVec.toInt bytes := by
  refine ⟨by decide, fun safe => ?_⟩
  have fits := (decodeSLEB128_safe_iff _).mp (safe (List.replicate 9 0x80#8 ++ [0x02#8])).2
  exact absurd fits (by decide)

end EvmBackend.LEB128
