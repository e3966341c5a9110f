/-
Scaled numbers: digits of 32 or 64 bits and a power of two. Products and quotients
keep as many leading bits as there is room for and are rounded on the next one.
-/

import EvmBackend.Library.Rounding
import Mathlib.Data.Nat.Bitwise

namespace EvmBackend.ScaledNumber

open Rounding

def MaxScale : Int := 16383

def countLeadingZeros (Width N : Nat) : Nat := if N = 0 then Width else Width - 1 - N.log2

def countTrailingZeros (N : Nat) : Nat := ((List.range 64).findIdx? fun bit => N.testBit bit).getD 64

def getRounded (Width Digits : Nat) (Scale : Int) (ShouldRound : Bool) : Nat × Int :=
  if ShouldRound then
    let Digits := (Digits + 1) % 2 ^ Width
    if Digits = 0 then (1 <<< (Width - 1), Scale + 1) else (Digits, Scale)
  else (Digits, Scale)

def hasBit (N bit : Nat) : Bool := N &&& 1 <<< bit ≠ 0

def getAdjusted (Width Digits : Nat) (Scale : Int) : Nat × Int :=
  if Width = 64 ∨ Digits ≤ 2 ^ Width - 1 then (Digits, Scale)
  else
    let Shift := 64 - Width - countLeadingZeros 64 Digits
    getRounded Width (Digits >>> Shift % 2 ^ Width) (Scale + Shift) (hasBit Digits (Shift - 1))

def getU (N : Nat) : Nat := N >>> 32

def getL (N : Nat) : Nat := N &&& 2 ^ 32 - 1

def addWithCarry (N : Nat) : Nat × Nat → Nat × Nat
  | (Upper, Lower) =>
      let NewLower := (Lower + getL N <<< 32) % 2 ^ 64
      ((Upper + (getU N + if NewLower < Lower then 1 else 0)) % 2 ^ 64, NewLower)

def multiply64 (LHS RHS : Nat) : Nat × Int :=
  let P1 := getU LHS * getU RHS % 2 ^ 64
  let P2 := getU LHS * getL RHS % 2 ^ 64
  let P3 := getL LHS * getU RHS % 2 ^ 64
  let P4 := getL LHS * getL RHS % 2 ^ 64
  let (Upper, Lower) := addWithCarry P3 (addWithCarry P2 (P1, P4))
  if Upper = 0 then (Lower, 0)
  else
    let LeadingZeros := countLeadingZeros 64 Upper
    let Shift := 64 - LeadingZeros
    let Upper := if LeadingZeros ≠ 0 then Upper <<< LeadingZeros % 2 ^ 64 ||| Lower >>> Shift else Upper
    getRounded 64 Upper Shift (Shift ≠ 0 && hasBit Lower (Shift - 1))

def getProduct (Width LHS RHS : Nat) : Nat × Int :=
  if Width ≤ 32 ∨ (LHS ≤ 2 ^ 32 - 1 ∧ RHS ≤ 2 ^ 32 - 1) then getAdjusted Width (LHS * RHS % 2 ^ 64) 0
  else multiply64 LHS RHS

def getHalf (N : Nat) : Nat := (N >>> 1 + (N &&& 1)) % 2 ^ 64

def divide32 (Dividend Divisor : Nat) : Nat × Int :=
  let Zeros := countLeadingZeros 64 Dividend
  let Shift : Int := -Zeros
  let Dividend64 := Dividend <<< Zeros % 2 ^ 64
  let Quotient := Dividend64 / Divisor
  let Remainder := Dividend64 % Divisor
  if Quotient > 2 ^ 32 - 1 then getAdjusted 32 Quotient Shift
  else getRounded 32 Quotient Shift (Remainder ≥ getHalf Divisor)

/-- The loop of `divide64`; it has no result when the rounds run out. -/
def longDivide : Nat → Nat → Nat → Nat → Int → Option (Nat × Nat × Int)
  | 0, _, _, _, _ => none
  | rounds + 1, Divisor, Quotient, Dividend, Shift =>
      if Quotient >>> 63 = 0 ∧ Dividend ≠ 0 then
        let IsOverflow := Dividend >>> 63 ≠ 0
        let Dividend := Dividend <<< 1 % 2 ^ 64
        let Quotient := Quotient <<< 1 % 2 ^ 64
        if IsOverflow ∨ Divisor ≤ Dividend then
          longDivide rounds Divisor (Quotient ||| 1) ((Dividend + 2 ^ 64 - Divisor) % 2 ^ 64) (Shift - 1)
        else longDivide rounds Divisor Quotient Dividend (Shift - 1)
      else some (Quotient, Dividend, Shift)

def divide64 (Dividend Divisor : Nat) : Option (Nat × Int) :=
  let Zeros := countTrailingZeros Divisor
  let Shift : Int := -Zeros
  let Divisor := Divisor >>> Zeros
  if Divisor = 1 then some (Dividend, Shift)
  else
    let Zeros := countLeadingZeros 64 Dividend
    let Shift := Shift - Zeros
    let Dividend := Dividend <<< Zeros % 2 ^ 64
    (longDivide 65 Divisor (Dividend / Divisor) (Dividend % Divisor) Shift).map fun (Quotient, Dividend, Shift) =>
      getRounded 64 Quotient Shift (Dividend ≥ getHalf Divisor)

def getQuotient (Width Dividend Divisor : Nat) : Option (Nat × Int) :=
  if Dividend = 0 then some (0, 0)
  else if Divisor = 0 then some (2 ^ Width - 1, MaxScale)
  else if Width = 64 then divide64 Dividend Divisor
  else some (divide32 Dividend Divisor)

/-- The smallest number of 32 bits stands for the logarithm of zero. -/
def getLgImpl (Width Digits : Nat) (Scale : Int) : Int × Int :=
  if Digits = 0 then (-2 ^ 31, 0)
  else
    let LocalFloor := Width - countLeadingZeros Width Digits - 1
    let Floor := Scale + LocalFloor
    if Digits = 1 <<< LocalFloor then (Floor, 0)
    else
      let Round := hasBit Digits (LocalFloor - 1)
      (Floor + if Round then 1 else 0, if Round then 1 else -1)

def getLgFloor (Width Digits : Nat) (Scale : Int) : Int :=
  let Lg := getLgImpl Width Digits Scale
  Lg.1 - if Lg.2 > 0 then 1 else 0

def compareImpl (L R : Nat) (ScaleDiff : Int) : Option Int :=
  if ScaleDiff < 0 ∨ 64 ≤ ScaleDiff then none
  else
    let L_adjusted := L >>> ScaleDiff.toNat
    if L_adjusted < R then some (-1)
    else if L_adjusted > R then some 1
    else some (if L > L_adjusted <<< ScaleDiff.toNat then 1 else 0)

def compare (Width LDigits : Nat) (LScale : Int) (RDigits : Nat) (RScale : Int) : Option Int :=
  if LDigits = 0 then some (if RDigits ≠ 0 then -1 else 0)
  else if RDigits = 0 then some 1
  else
    let lgL := getLgFloor Width LDigits LScale
    let lgR := getLgFloor Width RDigits RScale
    if lgL ≠ lgR then some (if lgL < lgR then -1 else 1)
    else if LScale < RScale then compareImpl LDigits RDigits (RScale - LScale)
    else (compareImpl RDigits LDigits (LScale - RScale)).map fun order => -order

/-! ### Rounding on the next bit -/

def value (number : Nat × Int) : ℚ := number.1 * 2 ^ number.2

/-- Digits of the width that stand for the number, rounded only if that has to be. -/
structure Rounds (Width : Nat) (result : Nat × Int) (x : ℚ) : Prop where
  digits : result.1 < 2 ^ Width
  rounded : value result = roundTo Width x

variable {Width Digits shift number divisor : Nat} {Scale : Int} {x : ℚ}

theorem hasBit_eq (N bit : Nat) : hasBit N bit = decide (2 ^ (bit + 1) ≤ 2 * (N % 2 ^ (bit + 1))) := by
  have rest := Nat.mod_lt N (Nat.two_pow_pos bit)
  unfold hasBit
  rw [Nat.one_shiftLeft, Nat.and_two_pow, Nat.testBit_eq_decide_div_mod_eq, Nat.mod_pow_succ, Nat.pow_succ]
  apply decide_eq_decide.mpr
  rcases Nat.mod_two_eq_zero_or_one (N / 2 ^ bit) with even | odd
  · rw [even]
    simp
    omega
  · rw [odd]
    simp
    omega

theorem value_getRounded (wide : 0 < Width) (small : Digits < 2 ^ Width) (Scale : Int) (ShouldRound : Bool) :
    (getRounded Width Digits Scale ShouldRound).1 < 2 ^ Width ∧
      value (getRounded Width Digits Scale ShouldRound) =
        (Digits + if ShouldRound then 1 else 0 : Nat) * 2 ^ Scale := by
  cases ShouldRound with
  | false => exact ⟨small, rfl⟩
  | true =>
      unfold getRounded
      dsimp only
      rw [if_pos rfl, if_pos rfl]
      rcases Nat.lt_or_eq_of_le (Nat.succ_le_of_lt small) with inside | overflow
      · rw [Nat.mod_eq_of_lt inside, if_neg (Nat.succ_ne_zero Digits)]
        exact ⟨inside, rfl⟩
      · -- the carry out of the digits is one more in the scale
        have half : 2 ^ Width = 2 ^ (Width - 1) * 2 := by
          rw [← Nat.pow_succ, Nat.succ_eq_add_one, Nat.sub_add_cancel wide]
        rw [show Digits + 1 = 2 ^ Width from overflow, Nat.mod_self, if_pos rfl, Nat.one_shiftLeft]
        constructor
        · exact Nat.pow_lt_pow_right (by decide) (Nat.sub_lt wide (by decide))
        · unfold value
          rw [half, zpow_add_one₀ two_ne_zero]
          push_cast
          ring

theorem rounds_getRounded (wide : 0 < Width) (positive : 0 < divisor) (low : 2 ^ (Width - 1) ≤ number / divisor)
    (high : number / divisor < 2 ^ Width) (exactly : x = number / divisor * 2 ^ Scale) {ShouldRound : Bool}
    (small : Digits < 2 ^ Width) (next : Digits + (if ShouldRound then 1 else 0) = nearest number divisor) :
    Rounds Width (getRounded Width Digits Scale ShouldRound) x := by
  obtain ⟨digits, rounded⟩ := value_getRounded wide small Scale ShouldRound
  refine ⟨digits, ?_⟩
  rw [rounded, roundTo_quotient wide positive low high exactly, next]

theorem rounds_exact {result : Nat × Int} (small : result.1 < 2 ^ Width) (exactly : x = value result) :
    Rounds Width result x := by
  refine ⟨small, ?_⟩
  rw [exactly]
  exact (roundTo_representable ⟨result.1, result.2, small, rfl⟩).symm

theorem countLeadingZeros_spec {N : Nat} (some : N ≠ 0) (small : N < 2 ^ Width) :
    countLeadingZeros Width N + N.log2 + 1 = Width := by
  have log := (Nat.log2_lt some).mpr small
  unfold countLeadingZeros
  rw [if_neg some]
  omega

theorem rounds_getAdjusted (positive : 0 < divisor) (large : 2 ^ 32 - 1 < number / divisor)
    (small : number / divisor < 2 ^ 64)
    (exactly : x = number / divisor * 2 ^ Scale) : Rounds 32 (getAdjusted 32 (number / divisor) Scale) x := by
  have some : number / divisor ≠ 0 := by omega
  have zeros := countLeadingZeros_spec some small
  have logLow : 32 ≤ (number / divisor).log2 := (Nat.le_log2 some).mpr (by omega)
  have power := Nat.log2_self_le some
  have next := Nat.lt_log2_self (n := number / divisor)
  unfold getAdjusted
  rw [if_neg (by omega)]
  dsimp only
  have shift : 64 - 32 - countLeadingZeros 64 (number / divisor) = (number / divisor).log2 - 32 + 1 := by omega
  rw [shift]
  generalize step : (number / divisor).log2 - 32 = bit
  have log : (number / divisor).log2 = bit + 32 := by omega
  rw [log] at power next
  have stepPos : 0 < 2 ^ (bit + 1) := Nat.two_pow_pos _
  have low : 2 ^ (32 - 1) ≤ number / divisor / 2 ^ (bit + 1) := by
    rw [Nat.le_div_iff_mul_le stepPos, ← Nat.pow_add]
    exact (Nat.pow_le_pow_right (by decide) (by omega)).trans power
  have high : number / divisor / 2 ^ (bit + 1) < 2 ^ 32 := by
    rw [Nat.div_lt_iff_lt_mul stepPos, ← Nat.pow_add]
    exact next.trans_le (Nat.pow_le_pow_right (by decide) (by omega))
  have quotient : number / divisor / 2 ^ (bit + 1) = number / (divisor * 2 ^ (bit + 1)) :=
    Nat.div_div_eq_div_mul _ _ _
  rw [Nat.shiftRight_eq_div_pow, Nat.mod_eq_of_lt high]
  refine rounds_getRounded (by decide) (Nat.mul_pos positive stepPos) (quotient ▸ low)
    (quotient ▸ high) ?_ high ?_
  · have two : (2 : ℚ) ≠ 0 := two_ne_zero
    rw [exactly, zpow_add₀ two, zpow_natCast]
    push_cast
    field_simp
  · rw [Nat.add_sub_cancel, hasBit_eq, ← nearest_div number divisor (Dvd.intro_left _ (Nat.pow_succ 2 bit).symm),
      nearest_eq_floor _ stepPos]
    simp only [decide_eq_true_eq]

end EvmBackend.ScaledNumber
