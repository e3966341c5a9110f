/-
Byte-addressed memory with big-endian multi-byte accesses, and the ranges of
addresses such accesses cover.

A memory gives every address a byte. A stored number is read back from its own
address, and a range that shares no byte with the store reads as before.
-/

import Mathlib.Logic.Function.Basic
import Mathlib.Tactic.Ring
import Mathlib.Data.Nat.Notation

namespace EvmBackend.ByteMemory

/-- The two ranges, each given by its first address and its size, share no byte. -/
def Apart (left leftSize right rightSize : Nat) : Prop :=
  leftSize = 0 ∨ rightSize = 0 ∨ left + leftSize ≤ right ∨ right + rightSize ≤ left

instance decidableApart (left leftSize right rightSize : Nat) :
    Decidable (Apart left leftSize right rightSize) :=
  inferInstanceAs (Decidable (_ ∨ _ ∨ _ ∨ _))

theorem apart_iff {left leftSize right rightSize : Nat} :
    Apart left leftSize right rightSize ↔
      ∀ address, left ≤ address → address < left + leftSize →
        ¬ (right ≤ address ∧ address < right + rightSize) := by
  unfold Apart
  constructor
  · intro apart address above below within
    omega
  · intro separate
    by_cases order : left ≤ right
    · have := separate right order
      omega
    · have := separate left (Nat.le_refl left)
      omega

/-! ### Loads and stores -/

abbrev Memory := Nat → BitVec 8

/-- The number held in the bytes from the address on, the first the highest. -/
def loadBytes (memory : Memory) (address : Nat) : Nat → Nat
  | 0 => 0
  | count + 1 => loadBytes memory address count * 256 + (memory (address + count)).toNat

/-- Put the lowest `count` bytes of the number at the address, the highest first. -/
def storeBytes (memory : Memory) (address count value : Nat) : Memory := fun place =>
  if address ≤ place ∧ place < address + count then
    BitVec.ofNat 8 (value / 256 ^ (count - 1 - (place - address)))
  else memory place

theorem loadBytes_lt (memory : Memory) (address count : Nat) :
    loadBytes memory address count < 256 ^ count := by
  induction count with
  | zero => simp [loadBytes]
  | succ count ih =>
      have byte : (memory (address + count)).toNat < 256 := (memory (address + count)).isLt
      rw [loadBytes, pow_succ]
      omega

variable {address count value : Nat} {memory : Memory}

theorem loadBytes_congr {left right : Memory}
    (same : ∀ place, address ≤ place → place < address + count → left place = right place) :
    loadBytes left address count = loadBytes right address count := by
  induction count with
  | zero => rfl
  | succ count ih =>
      rw [loadBytes, loadBytes, ih (fun place above below => same place above (by omega)),
        same (address + count) (by omega) (by omega)]

theorem storeBytes_outside {place : Nat} (outside : ¬ (address ≤ place ∧ place < address + count)) :
    storeBytes memory address count value place = memory place :=
  if_neg outside

theorem loadBytes_storeBytes_apart {other size : Nat} (apart : Apart other size address count) :
    loadBytes (storeBytes memory address count value) other size = loadBytes memory other size := by
  apply loadBytes_congr
  intro place above below
  exact storeBytes_outside (apart_iff.mp apart place above below)

private theorem loadBytes_storeBytes_leading (fits : value < 256 ^ count) {taken : Nat}
    (within : taken ≤ count) :
    loadBytes (storeBytes memory address count value) address taken =
      value / 256 ^ (count - taken) := by
  induction taken with
  | zero => exact (Nat.div_eq_of_lt fits).symm
  | succ taken ih =>
      have inside : address ≤ address + taken ∧ address + taken < address + count := by omega
      have place : count - 1 - (address + taken - address) = count - (taken + 1) := by omega
      have one : count - taken = count - (taken + 1) + 1 := by omega
      rw [loadBytes, ih (by omega), storeBytes, if_pos inside, place, one, pow_succ,
        ← Nat.div_div_eq_div_mul, BitVec.toNat_ofNat]
      omega

theorem loadBytes_storeBytes_same (fits : value < 256 ^ count) :
    loadBytes (storeBytes memory address count value) address count = value := by
  rw [loadBytes_storeBytes_leading fits (Nat.le_refl count), Nat.sub_self, pow_zero, Nat.div_one]

theorem storeBytes_loadBytes (memory : Memory) (address count place : Nat)
    {source : Memory} (inside : address ≤ place ∧ place < address + count) :
    storeBytes memory address count (loadBytes source address count) place = source place := by
  have digit : ∀ (size index : Nat), index < size →
      BitVec.ofNat 8 (loadBytes source address size / 256 ^ (size - 1 - index)) =
        source (address + index) := by
    intro size
    induction size with
    | zero => intro index below; omega
    | succ size ih =>
        intro index below
        have byte : (source (address + size)).toNat < 256 := (source (address + size)).isLt
        by_cases last : index = size
        · have low : size + 1 - 1 - size = 0 := by omega
          apply BitVec.eq_of_toNat_eq
          rw [last, low, pow_zero, Nat.div_one, loadBytes, BitVec.toNat_ofNat]
          omega
        · have higher : size + 1 - 1 - index = size - 1 - index + 1 := by omega
          have cut : (loadBytes source address size * 256 + (source (address + size)).toNat) / 256 =
              loadBytes source address size := by omega
          rw [higher, pow_succ', ← Nat.div_div_eq_div_mul, loadBytes, cut]
          exact ih index (by omega)
  rw [storeBytes, if_pos inside, digit count (place - address) (by omega)]
  congr 1
  omega

theorem loadBytes_add (memory : Memory) (address first second : Nat) :
    loadBytes memory address (first + second) =
      loadBytes memory address first * 256 ^ second + loadBytes memory (address + first) second := by
  induction second with
  | zero => simp [loadBytes]
  | succ second ih =>
      rw [← Nat.add_assoc, loadBytes, ih, loadBytes, pow_succ, Nat.add_assoc address]
      ring

theorem loadBytes_update (memory : Memory) (address place rest : Nat) (byte : BitVec 8) :
    loadBytes (Function.update memory (address + place) byte) address (place + 1 + rest) +
        (memory (address + place)).toNat * 256 ^ rest =
      loadBytes memory address (place + 1 + rest) + byte.toNat * 256 ^ rest := by
  have front : loadBytes (Function.update memory (address + place) byte) address place =
      loadBytes memory address place :=
    loadBytes_congr fun other _ below => Function.update_of_ne (show other ≠ address + place by omega) _ _
  have back : loadBytes (Function.update memory (address + place) byte) (address + (place + 1)) rest =
      loadBytes memory (address + (place + 1)) rest :=
    loadBytes_congr fun other above _ => Function.update_of_ne (show other ≠ address + place by omega) _ _
  rw [loadBytes_add, loadBytes_add memory, back, loadBytes, loadBytes, front, Function.update_self]
  ring

theorem storeBytes_mod (memory : Memory) (address count value : Nat) :
    storeBytes memory address count (value % 256 ^ count) = storeBytes memory address count value := by
  funext place
  unfold storeBytes
  split
  · next inside =>
    have split : 256 ^ count = 256 ^ (count - 1 - (place - address)) *
        256 ^ (count - (count - 1 - (place - address))) := by
      rw [← pow_add]
      congr 1
      omega
    have byte : 256 ∣ 256 ^ (count - (count - 1 - (place - address))) :=
      Dvd.intro_left _ (pow_sub_one_mul (by omega) 256)
    apply BitVec.eq_of_toNat_eq
    rw [BitVec.toNat_ofNat, BitVec.toNat_ofNat, split, Nat.mod_mul_right_div_self]
    exact Nat.mod_mod_of_dvd _ byte
  · rfl

end EvmBackend.ByteMemory
