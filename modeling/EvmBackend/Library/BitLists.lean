/-
Numbers as lists of bits, the lowest first, and bytes as such lists. The rules
say how the bits of a number that is put together from others are put together.
-/

import Mathlib.Tactic.Ring

namespace EvmBackend.BitLists

open List

def bitsOf : Nat → Nat → List Bool
  | 0, _ => []
  | count + 1, value => (value % 2 == 1) :: bitsOf count (value / 2)

def valueOf : List Bool → Nat
  | [] => 0
  | bit :: bits => bit.toNat + 2 * valueOf bits

/-! ### Numbers -/

@[simp]
theorem length_bitsOf (count value : Nat) : (bitsOf count value).length = count := by
  induction count generalizing value with
  | zero => rfl
  | succ count ih => rw [bitsOf, length_cons, ih]

theorem toNat_mod_two (value : Nat) : (value % 2 == 1).toNat = value % 2 := by
  rcases Nat.mod_two_eq_zero_or_one value with even | odd
  · rw [even]
    rfl
  · rw [odd]
    rfl

theorem valueOf_bitsOf (count value : Nat) : valueOf (bitsOf count value) = value % 2 ^ count := by
  induction count generalizing value with
  | zero => rw [bitsOf, valueOf, Nat.pow_zero, Nat.mod_one]
  | succ count ih =>
      rw [bitsOf, valueOf, ih, toNat_mod_two, Nat.pow_succ', Nat.mod_mul]

theorem valueOf_bitsOf_lt {count value : Nat} (small : value < 2 ^ count) :
    valueOf (bitsOf count value) = value := by
  rw [valueOf_bitsOf, Nat.mod_eq_of_lt small]

theorem valueOf_lt (bits : List Bool) : valueOf bits < 2 ^ bits.length := by
  induction bits with
  | nil => exact Nat.one_pos
  | cons bit bits ih =>
      have bound : bit.toNat ≤ 1 := Bool.toNat_le bit
      rw [valueOf, length_cons, Nat.pow_succ]
      omega

theorem bitsOf_valueOf (bits : List Bool) : bitsOf bits.length (valueOf bits) = bits := by
  induction bits with
  | nil => rfl
  | cons bit bits ih =>
      rw [length_cons, bitsOf, valueOf]
      have low : (bit.toNat + 2 * valueOf bits) % 2 = bit.toNat := by
        have bound : bit.toNat ≤ 1 := Bool.toNat_le bit
        omega
      have high : (bit.toNat + 2 * valueOf bits) / 2 = valueOf bits := by
        omega
      rw [low, high, ih]
      cases bit <;> rfl

theorem bitsOf_add (low high value : Nat) :
    bitsOf (low + high) value = bitsOf low value ++ bitsOf high (value / 2 ^ low) := by
  induction low generalizing value with
  | zero => rw [Nat.zero_add, Nat.pow_zero, Nat.div_one]; rfl
  | succ low ih =>
      rw [Nat.succ_add, bitsOf, ih, bitsOf, Nat.div_div_eq_div_mul, ← Nat.pow_succ']
      rfl

theorem valueOf_append (front back : List Bool) :
    valueOf (front ++ back) = valueOf front + 2 ^ front.length * valueOf back := by
  induction front with
  | nil => rw [nil_append, valueOf, length_nil, Nat.pow_zero, Nat.one_mul, Nat.zero_add]
  | cons bit front ih =>
      rw [List.cons_append, valueOf, ih, valueOf, length_cons, Nat.pow_succ]
      ring

theorem eq_of_valueOf {left right : List Bool} (length : left.length = right.length)
    (value : valueOf left = valueOf right) : left = right := by
  rw [← bitsOf_valueOf left, ← bitsOf_valueOf right, length, value]

theorem bitsOf_join {low high : Nat} (lowValue highValue : Nat) (small : lowValue < 2 ^ low) :
    bitsOf (low + high) (lowValue + highValue * 2 ^ low) =
      bitsOf low lowValue ++ bitsOf high highValue := by
  have positive : 0 < 2 ^ low := Nat.two_pow_pos low
  have lowPart : bitsOf low (lowValue + highValue * 2 ^ low) = bitsOf low lowValue := by
    apply eq_of_valueOf (by simp)
    rw [valueOf_bitsOf, valueOf_bitsOf, Nat.add_mul_mod_self_right]
  rw [bitsOf_add, lowPart, Nat.add_mul_div_right _ _ positive, Nat.div_eq_of_lt small, Nat.zero_add]

theorem bitsOf_mod {count width : Nat} (value : Nat) (within : count ≤ width) :
    bitsOf count (value % 2 ^ width) = bitsOf count value := by
  apply eq_of_valueOf (by simp)
  rw [valueOf_bitsOf, valueOf_bitsOf, Nat.mod_mod_of_dvd _ (Nat.pow_dvd_pow 2 within)]

theorem bitsOf_zero (count : Nat) : bitsOf count 0 = List.replicate count false := by
  induction count with
  | zero => rfl
  | succ count ih => rw [bitsOf, ih]; rfl

theorem valueOf_take (bits : List Bool) (count : Nat) (within : count ≤ bits.length) :
    valueOf (bits.take count) = valueOf bits % 2 ^ count := by
  have whole := congrArg valueOf (take_append_drop count bits)
  rw [valueOf_append, length_take_of_le within] at whole
  have small := valueOf_lt (bits.take count)
  rw [length_take_of_le within] at small
  rw [← whole, Nat.add_mul_mod_self_left, Nat.mod_eq_of_lt small]

theorem valueOf_drop (bits : List Bool) (count : Nat) (within : count ≤ bits.length) :
    valueOf (bits.drop count) = valueOf bits / 2 ^ count := by
  have whole := congrArg valueOf (take_append_drop count bits)
  rw [valueOf_append, length_take_of_le within] at whole
  have small := valueOf_lt (bits.take count)
  rw [length_take_of_le within] at small
  rw [← whole, Nat.add_mul_div_left _ _ (Nat.two_pow_pos count), Nat.div_eq_of_lt small, Nat.zero_add]

/-! ### Bytes -/

def byteBits (byte : UInt8) : List Bool := bitsOf 8 byte.toNat

def bytesBits (bytes : List UInt8) : List Bool := bytes.flatMap byteBits

def littleEndian : Nat → Nat → List UInt8
  | 0, _ => []
  | count + 1, value => UInt8.ofNat value :: littleEndian count (value / 256)

def ofLittleEndian : List UInt8 → Nat
  | [] => 0
  | byte :: bytes => byte.toNat + 256 * ofLittleEndian bytes

@[simp]
theorem length_byteBits (byte : UInt8) : (byteBits byte).length = 8 := length_bitsOf 8 _

@[simp]
theorem bytesBits_append (front back : List UInt8) :
    bytesBits (front ++ back) = bytesBits front ++ bytesBits back := flatMap_append

@[simp]
theorem bytesBits_cons (byte : UInt8) (bytes : List UInt8) :
    bytesBits (byte :: bytes) = byteBits byte ++ bytesBits bytes := rfl

@[simp]
theorem length_bytesBits (bytes : List UInt8) : (bytesBits bytes).length = 8 * bytes.length := by
  induction bytes with
  | nil => rfl
  | cons byte bytes ih =>
      rw [bytesBits_cons, length_append, length_byteBits, ih, length_cons]
      omega

@[simp]
theorem length_littleEndian (count value : Nat) : (littleEndian count value).length = count := by
  induction count generalizing value with
  | zero => rfl
  | succ count ih => rw [littleEndian, length_cons, ih]

theorem bytesBits_littleEndian (count value : Nat) :
    bytesBits (littleEndian count value) = bitsOf (8 * count) value := by
  induction count generalizing value with
  | zero => rfl
  | succ count ih =>
      have low : byteBits (UInt8.ofNat value) = bitsOf 8 value := by
        rw [byteBits, UInt8.toNat_ofNat']
        exact bitsOf_mod value (Nat.le_refl 8)
      rw [littleEndian, bytesBits_cons, ih, low, Nat.mul_succ, Nat.add_comm, bitsOf_add]
      rfl

theorem valueOf_bytesBits (bytes : List UInt8) : valueOf (bytesBits bytes) = ofLittleEndian bytes := by
  induction bytes with
  | nil => rfl
  | cons byte bytes ih =>
      have small : byte.toNat < 2 ^ 8 := byte.toNat_lt
      rw [bytesBits_cons, valueOf_append, ih, length_byteBits, byteBits, valueOf_bitsOf_lt small]
      rfl

theorem bytesBits_take (bytes : List UInt8) (count : Nat) :
    bytesBits (bytes.take count) = (bytesBits bytes).take (8 * count) := by
  induction bytes generalizing count with
  | nil => simp [bytesBits]
  | cons byte bytes ih =>
      cases count with
      | zero => rfl
      | succ count =>
          have whole : (byteBits byte).take (8 * count + 8) = byteBits byte :=
            take_of_length_le (by rw [length_byteBits]; omega)
          rw [take_succ_cons, bytesBits_cons, bytesBits_cons, ih, take_append,
            length_byteBits, Nat.mul_succ, Nat.add_sub_cancel, whole]

theorem bytesBits_drop (bytes : List UInt8) (count : Nat) :
    bytesBits (bytes.drop count) = (bytesBits bytes).drop (8 * count) := by
  induction bytes generalizing count with
  | nil => simp [bytesBits]
  | cons byte bytes ih =>
      cases count with
      | zero => rfl
      | succ count =>
          have none : (byteBits byte).drop (8 * count + 8) = [] :=
            drop_of_length_le (by rw [length_byteBits]; omega)
          rw [drop_succ_cons, bytesBits_cons, ih, drop_append, length_byteBits,
            Nat.mul_succ, Nat.add_sub_cancel, none, nil_append]

theorem bytesBits_injective {left right : List UInt8} (same : bytesBits left = bytesBits right) :
    left = right := by
  induction left generalizing right with
  | nil =>
      have length := congrArg List.length same
      rw [length_bytesBits, length_bytesBits] at length
      exact (length_eq_zero_iff.mp (by simpa using length.symm)).symm
  | cons byte bytes ih =>
      cases right with
      | nil =>
          have length := congrArg List.length same
          simp [bytesBits] at length
      | cons other others =>
          rw [bytesBits_cons, bytesBits_cons] at same
          obtain ⟨first, rest⟩ := append_inj same (by simp)
          have value := congrArg valueOf first
          rw [byteBits, byteBits, valueOf_bitsOf_lt byte.toNat_lt, valueOf_bitsOf_lt other.toNat_lt] at value
          rw [UInt8.toNat_inj.mp value, ih rest]

end EvmBackend.BitLists
