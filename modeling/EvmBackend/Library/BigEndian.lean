/-
Numbers as lists of bytes, the highest byte first.

Writing a number in a given count of bytes keeps its value up to that count;
reading the bytes back is one fold over the list. Nothing here depends on
where the bytes are kept.
-/

import Mathlib.Tactic.Ring
import Mathlib.Data.Nat.Notation

namespace EvmBackend.BigEndian

abbrev Byte := BitVec 8

def bytesOf : Nat → Nat → List Byte
  | 0, _ => []
  | count + 1, value => BitVec.ofNat 8 (value / 256 ^ count) :: bytesOf count value

def appendByte (value : Nat) (byte : Byte) : Nat := value * 256 + byte.toNat

def valueOf (bytes : List Byte) : Nat := bytes.foldl appendByte 0

@[simp]
theorem length_bytesOf (count value : Nat) : (bytesOf count value).length = count := by
  induction count with
  | zero => rfl
  | succ count ih => rw [bytesOf, List.length_cons, ih]

private theorem foldl_appendByte (bytes : List Byte) (start : Nat) :
    bytes.foldl appendByte start = start * 256 ^ bytes.length + valueOf bytes := by
  induction bytes generalizing start with
  | nil => simp [valueOf]
  | cons first rest ih =>
      unfold valueOf
      rw [List.foldl_cons, List.foldl_cons, ih, ih (appendByte 0 first), List.length_cons, pow_succ']
      unfold appendByte
      ring

theorem valueOf_cons (first : Byte) (rest : List Byte) :
    valueOf (first :: rest) = first.toNat * 256 ^ rest.length + valueOf rest := by
  have read : valueOf (first :: rest) = rest.foldl appendByte (appendByte 0 first) := rfl
  rw [read, foldl_appendByte, appendByte, Nat.zero_mul, Nat.zero_add]

theorem valueOf_bytesOf (count value : Nat) :
    valueOf (bytesOf count value) = value % 256 ^ count := by
  induction count with
  | zero =>
      rw [pow_zero, Nat.mod_one]
      rfl
  | succ count ih =>
      have split := Nat.mod_mul_right_div_self value (256 ^ count) 256
      have whole := Nat.div_add_mod (value % (256 ^ count * 256)) (256 ^ count)
      rw [Nat.mod_mul_right_mod, split] at whole
      have shifted : (BitVec.ofNat 8 (value / 256 ^ count)).toNat = value / 256 ^ count % 256 :=
        BitVec.toNat_ofNat _ _
      rw [bytesOf, valueOf_cons, ih, length_bytesOf, shifted, Nat.mul_comm, whole, ← pow_succ]

end EvmBackend.BigEndian
