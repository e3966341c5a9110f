/-
The arithmetic patterns: each instruction against the DAG expression it
replaces.

Seven of the nine replace one node and are sound wherever the node is defined.
ADDMOD and MULMOD replace a remainder of a sum or product that LLVM reduces
modulo 2^256 first; they are sound exactly where that reduction drops a multiple
of the modulus.
-/

import EvmBackend.ISel
import Mathlib.Data.Nat.ModEq

namespace EvmBackend.ISel

open EVM ByteMemory

def ADD : Pat := BinaryInst .add .ADD

def MUL : Pat := BinaryInst .mul .MUL

def SUB : Pat := BinaryInst .sub .SUB

def DIV : Pat := BinaryInst .udiv .DIV

def SDIV : Pat := BinaryInst .sdiv .SDIV

def MOD : Pat := Inst_2_1 .MOD (.binary .urem (.src 1) (.src 2))

def SMOD : Pat := Inst_2_1 .SMOD (.binary .srem (.src 1) (.src 2))

def ADDMOD : Pat := Inst_3_1 .ADDMOD (.binary .urem (.binary .add (.src 1) (.src 2)) (.src 3))

def MULMOD : Pat := Inst_3_1 .MULMOD (.binary .urem (.binary .mul (.src 1) (.src 2)) (.src 3))

def arithmeticPatterns : List Pat := [ADD, MUL, SUB, DIV, SDIV, MOD, SMOD, ADDMOD, MULMOD]

/-- The multiple of 2^256 by which the sum or product below a remainder exceeds
the word LLVM reduces it to. -/
def Pat.dropped (pat : Pat) (sources : Nat → Word) : Nat :=
  match pat.source with
  | .binary .urem (.binary .add (.src left) (.src right)) _ =>
      ((sources left).toNat + (sources right).toNat) / 2 ^ 256 * 2 ^ 256
  | .binary .urem (.binary .mul (.src left) (.src right)) _ =>
      ((sources left).toNat * (sources right).toNat) / 2 ^ 256 * 2 ^ 256
  | _ => 0

/-! ### The machine's operations against LLVM's -/

theorem div_eq_udiv (left right : Word) : div left right = left / right := by
  unfold div
  split
  · next zero =>
    rw [zero]
    exact BitVec.udiv_zero.symm
  · rfl

theorem sdiv_eq_sdiv (left right : Word) : EVM.sdiv left right = left.sdiv right := by
  unfold EVM.sdiv
  split
  · next zero =>
    rw [zero]
    exact BitVec.sdiv_zero.symm
  · rw [← BitVec.ofInt_toInt (x := left.sdiv right), BitVec.toInt_sdiv]
    apply BitVec.eq_of_toInt_eq
    rw [BitVec.toInt_ofInt, BitVec.toInt_ofInt, Int.bmod_bmod]

theorem mod_eq_umod {left right : Word} (nonzero : right ≠ 0) : mod left right = left % right :=
  if_neg nonzero

theorem smod_eq_srem {left right : Word} (nonzero : right ≠ 0) :
    smod left right = left.srem right := by
  unfold smod
  rw [if_neg nonzero, ← BitVec.toInt_srem, BitVec.ofInt_toInt]

/-- Reducing a number first keeps its remainder exactly when what the reduction
drops is a multiple of the modulus. -/
theorem mod_mod_eq_iff (wide word modulus : Nat) :
    wide % modulus = wide % word % modulus ↔ modulus ∣ wide / word * word := by
  have split : wide - wide % word = wide / word * word := by
    have whole := Nat.div_add_mod' wide word
    omega
  rw [← split]
  exact ⟨fun same => (Nat.modEq_iff_dvd' (Nat.mod_le wide word)).mp same.symm,
    fun divides => ((Nat.modEq_iff_dvd' (Nat.mod_le wide word)).mpr divides).symm⟩

/-- A ternary operation that reduces the wide number once against a remainder of
the wide number reduced to a word. -/
theorem folded_eq_iff {wide : Nat} {inner modulus : Word} (nonzero : modulus ≠ 0)
    (reduced : inner.toNat = wide % 2 ^ 256) :
    BitVec.ofNat 256 (wide % modulus.toNat) = inner % modulus ↔
      modulus.toNat ∣ wide / 2 ^ 256 * 2 ^ 256 := by
  have positive : 0 < modulus.toNat := by
    rcases Nat.eq_zero_or_pos modulus.toNat with zero | positive
    · exact absurd (BitVec.eq_of_toNat_eq zero) nonzero
    · exact positive
  have small : wide % modulus.toNat < 2 ^ 256 :=
    Nat.lt_trans (Nat.mod_lt wide positive) modulus.isLt
  rw [← mod_mod_eq_iff wide (2 ^ 256) modulus.toNat, ← reduced, ← BitVec.toNat_inj,
    BitVec.toNat_ofNat, Nat.mod_eq_of_lt small, BitVec.toNat_umod]

section Defined

variable {left right : Word}

theorem udiv_defined (defined : (ISD.udiv.value left right).isSome) :
    ISD.udiv.value left right = some (left / right) := by
  by_cases zero : right = 0
  · simp [ISD.value, zero] at defined
  · rw [ISD.value, if_neg zero]

theorem sdiv_defined (defined : (ISD.sdiv.value left right).isSome) :
    ISD.sdiv.value left right = some (left.sdiv right) := by
  by_cases undefined : right = 0 ∨ (left = BitVec.intMin 256 ∧ right = -1)
  · rw [ISD.value, if_pos undefined] at defined
    cases defined
  · rw [ISD.value, if_neg undefined]

theorem urem_defined (defined : (ISD.urem.value left right).isSome) :
    right ≠ 0 ∧ ISD.urem.value left right = some (left % right) := by
  by_cases zero : right = 0
  · simp [ISD.value, zero] at defined
  · rw [ISD.value, if_neg zero]
    exact ⟨zero, rfl⟩

theorem srem_defined (defined : (ISD.srem.value left right).isSome) :
    right ≠ 0 ∧ ISD.srem.value left right = some (left.srem right) := by
  by_cases undefined : right = 0 ∨ (left = BitVec.intMin 256 ∧ right = -1)
  · rw [ISD.value, if_pos undefined] at defined
    cases defined
  · rw [ISD.value, if_neg undefined]
    exact ⟨fun zero => undefined (Or.inl zero), rfl⟩

end Defined

section Patterns

variable (sources : Nat → Word) (memory : Memory)

theorem DIV_sound (defined : DIV.DefinedAt sources) : DIV.SoundAt sources memory := by
  change some (div (sources 1) (sources 2)) = ISD.udiv.value (sources 1) (sources 2)
  rw [udiv_defined defined, div_eq_udiv]

theorem SDIV_sound (defined : SDIV.DefinedAt sources) : SDIV.SoundAt sources memory := by
  change some (EVM.sdiv (sources 1) (sources 2)) = ISD.sdiv.value (sources 1) (sources 2)
  rw [sdiv_defined defined, sdiv_eq_sdiv]

theorem MOD_sound (defined : MOD.DefinedAt sources) : MOD.SoundAt sources memory := by
  obtain ⟨nonzero, value⟩ := urem_defined defined
  change some (mod (sources 1) (sources 2)) = ISD.urem.value (sources 1) (sources 2)
  rw [value, mod_eq_umod nonzero]

theorem SMOD_sound (defined : SMOD.DefinedAt sources) : SMOD.SoundAt sources memory := by
  obtain ⟨nonzero, value⟩ := srem_defined defined
  change some (smod (sources 1) (sources 2)) = ISD.srem.value (sources 1) (sources 2)
  rw [value, smod_eq_srem nonzero]

theorem ADDMOD_sound_iff (defined : ADDMOD.DefinedAt sources) :
    ADDMOD.SoundAt sources memory ↔ (sources 3).toNat ∣ ADDMOD.dropped sources := by
  obtain ⟨nonzero, value⟩ := urem_defined defined
  have sound : ADDMOD.SoundAt sources memory ↔
      some (addmod (sources 1) (sources 2) (sources 3)) =
        ISD.urem.value (sources 1 + sources 2) (sources 3) := Iff.rfl
  rw [sound, value, Option.some.injEq, addmod, if_neg nonzero]
  exact folded_eq_iff nonzero (BitVec.toNat_add _ _)

theorem MULMOD_sound_iff (defined : MULMOD.DefinedAt sources) :
    MULMOD.SoundAt sources memory ↔ (sources 3).toNat ∣ MULMOD.dropped sources := by
  obtain ⟨nonzero, value⟩ := urem_defined defined
  have sound : MULMOD.SoundAt sources memory ↔
      some (mulmod (sources 1) (sources 2) (sources 3)) =
        ISD.urem.value (sources 1 * sources 2) (sources 3) := Iff.rfl
  rw [sound, value, Option.some.injEq, mulmod, if_neg nonzero]
  exact folded_eq_iff nonzero (BitVec.toNat_mul _ _)

/-- Every arithmetic pattern is sound on defined operands exactly when the third
source divides what LLVM drops below a remainder; where nothing is folded,
nothing is dropped. -/
theorem arithmeticPatterns_sound_iff (pat : Pat) (member : pat ∈ arithmeticPatterns)
    (defined : pat.DefinedAt sources) :
    pat.SoundAt sources memory ↔ (sources 3).toNat ∣ pat.dropped sources := by
  have single : ∀ {pat : Pat}, pat.SoundAt sources memory → pat.dropped sources = 0 →
      (pat.SoundAt sources memory ↔ (sources 3).toNat ∣ pat.dropped sources) := by
    intro pat sound none
    rw [none]
    exact ⟨fun _ => Nat.dvd_zero _, fun _ => sound⟩
  simp only [arithmeticPatterns, List.mem_cons, List.not_mem_nil, or_false] at member
  rcases member with rfl | rfl | rfl | rfl | rfl | rfl | rfl | rfl | rfl
  · exact single rfl rfl
  · exact single rfl rfl
  · exact single rfl rfl
  · exact single (DIV_sound sources memory defined) rfl
  · exact single (SDIV_sound sources memory defined) rfl
  · exact single (MOD_sound sources memory defined) rfl
  · exact single (SMOD_sound sources memory defined) rfl
  · exact ADDMOD_sound_iff sources memory defined
  · exact MULMOD_sound_iff sources memory defined

end Patterns

def threeSources (first second third : Word) : Nat → Word
  | 1 => first
  | 2 => second
  | 3 => third
  | _ => 0

/-- `(5 + 7) mod 8` stays within the word. -/
theorem ADDMOD_sound_small :
    ADDMOD.DefinedAt (threeSources 5 7 8) ∧ ADDMOD.SoundAt (threeSources 5 7 8) (fun _ => 0) :=
  ⟨by decide, (arithmeticPatterns_sound_iff (threeSources 5 7 8) (fun _ => 0) ADDMOD
    (by decide) (by decide)).mpr (by decide)⟩

/-- `(2^256 - 1 + 1) mod 3`: LLVM's sum is 0, the machine's remainder is 1. -/
theorem ADDMOD_unsound_overflowing :
    ADDMOD ∈ arithmeticPatterns ∧ ADDMOD.DefinedAt (threeSources (-1) 1 3) ∧
      ¬ ADDMOD.SoundAt (threeSources (-1) 1 3) (fun _ => 0) := by
  decide

end EvmBackend.ISel
