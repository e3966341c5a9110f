/-
Narrow memory accesses: the pattern for truncating stores and the selection of
zero-extending loads.

The pattern hands MSTORE_r the value as its first operand and the pointer as its
second, so the machine stores the word of the pointer at the address that the
value is. The load multiplies and divides the whole word by `1 << (256 - width)`,
a shift of an int by its width and more.
-/

import EvmBackend.ISel.Arithmetic
import EvmBackend.ISel.Extension

namespace EvmBackend.ISel

open EVM ByteMemory

/-- The operands of the MSTORE_r selected for `truncstore value, pointer`, on the
stack. -/
def selectTruncstore (value pointer : Word) : List Word := [value, pointer]

def storeTruncated (value pointer : Word) (memory : Memory) : Option Memory :=
  (performOpcode .MSTORE (selectTruncstore value pointer) memory).map Prod.snd

def loadZeroExtended (undefinedShift : Nat → BitVec 64) (bits : Nat) (pointer : Word)
    (memory : Memory) : Option Word :=
  (SelectLOAD undefinedShift .ZEXTLOAD (.src 1) bits).bind fun node =>
    node.value (fun _ => pointer) memory

/-- A store of the low bits and a load of as many: the load returns them, they lie
at the pointer, and no other byte changes. -/
def RoundTrip (undefinedShift : Nat → BitVec 64) (bits : Nat) (pointer value : Word)
    (memory : Memory) : Prop :=
  ∃ stored, storeTruncated value pointer memory = some stored ∧
    loadZeroExtended undefinedShift bits pointer stored =
      some (BitVec.ofNat 256 (value.toNat % 2 ^ bits)) ∧
    loadBytes stored pointer.toNat (bits / 8) = value.toNat % 2 ^ bits ∧
    ∀ place, ¬ (pointer.toNat ≤ place ∧ place < pointer.toNat + bits / 8) →
      stored place = memory place

/-- The byte at a place of a number stored in `count` bytes from the address on. -/
def byteAt (value address count place : Nat) : BitVec 8 :=
  BitVec.ofNat 8 (value / 256 ^ (count - 1 - (place - address)))

/-- The word of the pointer, put where the value points, has the bytes of the value
at the pointer, and elsewhere the bytes that are there already. -/
structure StoreFits (size pointer value : Nat) (memory : Memory) : Prop where
  inside : ∀ place, pointer ≤ place → place < pointer + size →
    (if value ≤ place ∧ place < value + 32 then byteAt pointer value 32 place else memory place) =
      byteAt value pointer size place
  outside : ∀ place, value ≤ place → place < value + 32 →
    ¬ (pointer ≤ place ∧ place < pointer + size) → memory place = byteAt pointer value 32 place

/-- Multiplied and divided by the factor, the word that starts with the low bits of
the value and goes on with the bytes behind them is those low bits. -/
def LoadFits (factor : Nat) (bits pointer value : Nat) (memory : Memory) : Prop :=
  (value % 2 ^ bits * 2 ^ (256 - bits) +
      loadBytes memory (pointer + bits / 8) (32 - bits / 8)) * factor % 2 ^ 256 / factor =
    value % 2 ^ bits

section Store

variable {size pointer value : Nat} {memory : Memory}

theorem storeFits_iff :
    StoreFits size pointer value memory ↔
      storeBytes memory value 32 pointer = storeBytes memory pointer size value := by
  constructor
  · intro fits
    funext place
    by_cases within : pointer ≤ place ∧ place < pointer + size
    · have same := fits.inside place within.1 within.2
      unfold storeBytes
      rw [if_pos within]
      exact same
    · rw [storeBytes_outside within]
      by_cases written : value ≤ place ∧ place < value + 32
      · unfold storeBytes
        rw [if_pos written]
        exact (fits.outside place written.1 written.2 within).symm
      · exact storeBytes_outside written
  · intro same
    constructor
    · intro place above below
      have here := congrFun same place
      unfold storeBytes at here
      rw [if_pos (And.intro above below)] at here
      exact here
    · intro place above below within
      have here := congrFun same place
      rw [storeBytes_outside within] at here
      unfold storeBytes at here
      rw [if_pos (And.intro above below)] at here
      exact here.symm

/-- Holding the low bytes of the value at the pointer and nothing else anew is being
the memory after a store of those bytes. -/
theorem stored_iff {stored : Memory} :
    (loadBytes stored pointer size = value % 256 ^ size ∧
        ∀ place, ¬ (pointer ≤ place ∧ place < pointer + size) → stored place = memory place) ↔
      stored = storeBytes memory pointer size value := by
  constructor
  · rintro ⟨held, kept⟩
    funext place
    by_cases within : pointer ≤ place ∧ place < pointer + size
    · rw [← storeBytes_mod, ← held]
      exact (storeBytes_loadBytes memory pointer size place within).symm
    · rw [storeBytes_outside within, kept place within]
  · rintro rfl
    refine ⟨?_, fun place within => storeBytes_outside within⟩
    rw [← storeBytes_mod]
    exact loadBytes_storeBytes_same (Nat.mod_lt _ (Nat.pow_pos (by decide)))

end Store

/-! ### The load -/

theorem pow_bytes {bits : Nat} (whole : 8 ∣ bits) : 256 ^ (bits / 8) = 2 ^ bits := by
  rw [show (256 : Nat) = 2 ^ 8 from rfl, ← pow_mul, Nat.mul_div_cancel' whole]

section Load

variable {bits : Nat} {pointer value : Word} {memory : Memory}

theorem toNat_loadWord_stored (whole : 8 ∣ bits) (fits : bits ≤ 256) :
    (loadWord (storeBytes memory pointer.toNat (bits / 8) value.toNat) pointer).toNat =
      value.toNat % 2 ^ bits * 2 ^ (256 - bits) +
        loadBytes memory (pointer.toNat + bits / 8) (32 - bits / 8) := by
  have size : bits / 8 + (32 - bits / 8) = 32 := by omega
  have behind : 256 ^ (32 - bits / 8) = 2 ^ (256 - bits) := by
    rw [show (256 : Nat) = 2 ^ 8 from rfl, ← pow_mul]
    congr 1
    omega
  have apart : Apart (pointer.toNat + bits / 8) (32 - bits / 8) pointer.toNat (bits / 8) := by
    unfold Apart
    omega
  have held : loadBytes (storeBytes memory pointer.toNat (bits / 8) value.toNat) pointer.toNat
      (bits / 8) = value.toNat % 256 ^ (bits / 8) := (stored_iff.mpr rfl).1
  have word := loadBytes_lt (storeBytes memory pointer.toNat (bits / 8) value.toNat) pointer.toNat 32
  rw [loadWord, BitVec.toNat_ofNat, Nat.mod_eq_of_lt (by norm_num at word ⊢; exact word)]
  rw [← size, loadBytes_add, loadBytes_storeBytes_apart apart, held, pow_bytes whole, size, behind]

theorem loadZeroExtended_iff (undefinedShift : Nat → BitVec 64) (whole : 8 ∣ bits)
    (fits : bits ≤ 256) :
    loadZeroExtended undefinedShift bits pointer
          (storeBytes memory pointer.toNat (bits / 8) value.toNat) =
        some (BitVec.ofNat 256 (value.toNat % 2 ^ bits)) ↔
      LoadFits (oneShl undefinedShift (256 - bits)).toNat bits pointer.toNat value.toNat memory := by
  have factor : ((oneShl undefinedShift (256 - bits)).setWidth 256).toNat =
      (oneShl undefinedShift (256 - bits)).toNat := by
    rw [BitVec.toNat_setWidth]
    exact Nat.mod_eq_of_lt (Nat.lt_trans (BitVec.isLt _) (by decide))
  have low : value.toNat % 2 ^ bits < 2 ^ 256 :=
    Nat.lt_of_le_of_lt (Nat.mod_le _ _) value.isLt
  have returned : loadZeroExtended undefinedShift bits pointer
      (storeBytes memory pointer.toNat (bits / 8) value.toNat) =
        some (div (loadWord (storeBytes memory pointer.toNat (bits / 8) value.toNat) pointer *
            (oneShl undefinedShift (256 - bits)).setWidth 256)
          ((oneShl undefinedShift (256 - bits)).setWidth 256)) := rfl
  rw [returned, Option.some.injEq, div_eq_udiv, ← BitVec.toNat_inj, BitVec.toNat_udiv,
    BitVec.toNat_mul, toNat_loadWord_stored whole fits, factor, BitVec.toNat_ofNat,
    Nat.mod_eq_of_lt low]
  rfl

end Load

/-- For the widths of the target's truncating stores, store and load make a round
trip exactly when both conditions hold of the pointer, the value and the memory
before. -/
theorem roundTrip_iff (undefinedShift : Nat → BitVec 64) (bits : Nat)
    (width : bits ∈ [8, 16, 32, 64, 128]) (pointer value : Word) (memory : Memory) :
    RoundTrip undefinedShift bits pointer value memory ↔
      StoreFits (bits / 8) pointer.toNat value.toNat memory ∧
        LoadFits (oneShl undefinedShift (256 - bits)).toNat bits pointer.toNat value.toNat
          memory := by
  have whole : 8 ∣ bits := by
    revert bits
    decide
  have fits : bits ≤ 256 := by
    revert bits
    decide
  have written : storeTruncated value pointer memory =
      some (storeBytes memory value.toNat 32 pointer.toNat) := rfl
  rw [storeFits_iff]
  constructor
  · rintro ⟨stored, storing, loaded, held, kept⟩
    obtain rfl := Option.some.inj (written.symm.trans storing)
    rw [← pow_bytes whole] at held
    have same := stored_iff.mp ⟨held, kept⟩
    rw [same] at loaded
    exact ⟨same, (loadZeroExtended_iff undefinedShift whole fits).mp loaded⟩
  · rintro ⟨same, loads⟩
    obtain ⟨held, kept⟩ := stored_iff.mpr same
    rw [pow_bytes whole] at held
    refine ⟨_, written, ?_, held, kept⟩
    rw [same]
    exact (loadZeroExtended_iff undefinedShift whole fits).mpr loads

/-- The undefined shift where the host takes the amount modulo 32. -/
def maskedShift (amount : Nat) : BitVec 64 := ((1 : BitVec 32) <<< (amount % 32)).signExtend 64

/-- Zero stored at zero into empty memory. -/
theorem zero_roundTrip : RoundTrip maskedShift 8 0 0 (fun _ => 0) := by
  apply (roundTrip_iff maskedShift 8 (by decide) 0 0 (fun _ => 0)).mpr
  refine ⟨⟨fun place _ _ => ?_, fun place _ _ _ => ?_⟩, by unfold LoadFits; decide⟩
  · simp [byteAt]
  · simp [byteAt]

/-- The byte 5 stored at address 64: the machine writes 64 at address 5. -/
theorem byte_not_stored : ¬ RoundTrip maskedShift 8 64 5 (fun _ => 0) := by
  rintro ⟨stored, storing, _, held, _⟩
  have written : storeTruncated 5 64 (fun _ => 0) = some (storeBytes (fun _ => 0) 5 32 64) := rfl
  obtain rfl := Option.some.inj (written.symm.trans storing)
  exact absurd held (by decide)

end EvmBackend.ISel
