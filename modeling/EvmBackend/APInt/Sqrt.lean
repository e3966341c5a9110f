/-
The square root: a table for small values, the functions of the C library below
52 bits, and the Babylonian method for the others.

The root of the product of two neighbours is just below their middle, so the lower one is
nearest. A double has 53 bits, and from 2^25 on the middle is the nearest double, which is
rounded up. The last way rounds for itself, by the half of the distance between two
squares; that distance is odd, and its half is rounded down, so the product goes to the
upper neighbour as well. The assertion before it squares the next integer, which no longer
fits above the last root of the width.
-/

import EvmBackend.APInt.DivisionValues
import EvmBackend.Library.NearestRoot

namespace EvmBackend.APInt

open NearestRoot Option

variable {W : Nat}

/-! ### The three ways -/

/-- A double that is not negative: a significand over a power of two. -/
structure Double where
  significand : Nat
  scale : Nat
  deriving DecidableEq, Repr

namespace Double

/-- Exact for less than 53 bits. -/
def ofUInt64 (number : Nat) : Double := ⟨number, 0⟩

/-- The root as IEEE 754 has it: the nearest number with a significand of 53 bits. The
radicands here are below 2^104. -/
def sqrt (double : Double) : Double :=
  let radicand := double.significand * 2 ^ double.scale
  let more := 52 - radicand.sqrt.log2
  ⟨nearestRoot (radicand * 4 ^ more), double.scale + more⟩

def round (double : Double) : Double := ⟨(double.significand + 2 ^ double.scale / 2) / 2 ^ double.scale, 0⟩

def toUInt64 (double : Double) : Nat := double.significand / 2 ^ double.scale

end Double

def results : List Nat :=
  [0, 1, 1, 2, 2, 2, 2, 3, 3, 3, 3, 3, 3, 4, 4, 4, 4, 4, 4, 4, 4, 5, 5, 5, 5, 5, 5, 5, 5, 5, 5, 6]

/-- The first power of four that is large enough gives the starting value. -/
def startingValue (value : BitVec W) : Nat → Nat → BitVec W → Option (BitVec W)
  | 0, _, _ => none
  | rounds + 1, i, testy =>
      if W ≤ i ∨ value ≤ testy then some ((1 : BitVec W) <<< (i / 2))
      else startingValue value rounds (i + 2) (testy <<< 2)

def babylonian (value : BitVec W) : Nat → BitVec W → Option (BitVec W)
  | 0, _ => none
  | rounds + 1, x_old => do
      let quotient ← udiv value x_old
      let x_new ← udiv (quotient + x_old) 2
      if x_old ≤ x_new then some x_old else babylonian value rounds x_new

/-- The closest approximation; the assertion is there unless it is compiled out. -/
def closest (NDEBUG : Bool) (value x_old : BitVec W) : Option (BitVec W) := do
  let square := x_old * x_old
  let nextSquare := (x_old + 1) * (x_old + 1)
  if value < square then some x_old
  else
    guard (NDEBUG ∨ value ≤ nextSquare)
    let midpoint ← udiv (nextSquare - square) 2
    let offset := value - square
    if offset < midpoint then some x_old else some (x_old + 1)

def sqrt (NDEBUG : Bool) (rounds : Nat) (value : BitVec W) : Option (BitVec W) :=
  let magnitude := getActiveBits value
  let word := (getRawData value).getD 0 0
  if magnitude ≤ 5 then some (BitVec.ofNat W (results.getD word 0))
  else if magnitude < 52 then
    some (BitVec.ofNat W ((Double.ofUInt64 word).sqrt.round.toUInt64))
  else do
    let x_old ← startingValue value rounds 4 16
    let x_old ← babylonian value rounds x_old
    closest NDEBUG value x_old

variable {root rounds number : Nat}

/-- The middle of two neighbours is reached from below their product only where the doubles
of its size are too far apart. -/
theorem middle_reached_iff {bits : Nat} (low : 2 ^ bits ≤ root) (high : root < 2 ^ (bits + 1))
    (few : bits ≤ 25) :
    (2 * root + 1) * 2 ^ (51 - bits) ≤ nearestRoot (number * 4 ^ (52 - bits)) ↔
      root * root + root < number ∨ number = root * root + root ∧ 2 ^ 25 ≤ root := by
  have units : 0 < 2 ^ (51 - bits) := by positivity
  have fours : (4 : Nat) ^ (52 - bits) = 4 * (2 ^ (51 - bits) * 2 ^ (51 - bits)) := by
    rw [← mul_pow, show 52 - bits = 51 - bits + 1 by omega]
    exact pow_succ' 4 (51 - bits)
  have coarse : 2 ^ 25 ≤ root ↔ 2 ^ (51 - bits) < 2 * root + 1 := by
    constructor
    · intro large
      have most : bits = 25 := by
        by_contra other
        have power : 2 ^ (bits + 1) ≤ 2 ^ 25 := Nat.pow_le_pow_right (by decide) (by omega)
        omega
      subst most
      omega
    · intro narrow
      by_contra small
      have less : bits < 25 := by
        by_contra most
        have power : 2 ^ 25 ≤ 2 ^ bits := Nat.pow_le_pow_right (by decide) (by omega)
        omega
      have twice : 2 * 2 ^ (bits + 1) ≤ 2 ^ (51 - bits) := by
        rw [← pow_succ']
        exact Nat.pow_le_pow_right (by decide) (by omega)
      omega
  have wide : 2 * root + 1 < 4 * 2 ^ (51 - bits) := by
    have power : 2 ^ (bits + 1) ≤ 2 ^ (51 - bits) := Nat.pow_le_pow_right (by decide) (by omega)
    omega
  rw [le_nearestRoot_iff (Nat.mul_pos (Nat.succ_pos _) units), fours, coarse]
  generalize 2 ^ (51 - bits) = unit at *
  rcases Nat.lt_trichotomy number (root * root + root) with less | same | more
  · refine iff_of_false ?_ (by omega)
    nlinarith
  · have square : (2 * root + 1) * unit * ((2 * root + 1) * unit) =
        number * (4 * (unit * unit)) + unit * unit := by
      rw [same]
      ring
    rw [square, Nat.add_lt_add_iff_left, Nat.mul_lt_mul_right units]
    omega
  · refine iff_of_true ?_ (.inl more)
    nlinarith

theorem rounded_eq {unit significand : Nat} (units : 0 < unit)
    (least : root * (2 * unit) ≤ significand) (most : significand ≤ (root + 1) * (2 * unit)) :
    (significand + 2 * unit / 2) / (2 * unit) = if (2 * root + 1) * unit ≤ significand then root + 1
      else root := by
  rw [Nat.mul_div_cancel_left _ (by decide)]
  split
  · apply Nat.div_eq_of_lt_le
    · nlinarith
    · nlinarith
  · apply Nat.div_eq_of_lt_le
    · nlinarith
    · nlinarith

theorem libraryRoot_eq (some : 0 < number) (small : number < 2 ^ 52) :
    (Double.ofUInt64 number).sqrt.round.toUInt64 =
      if number.sqrt * number.sqrt + number.sqrt < number ∨
          number = number.sqrt * number.sqrt + number.sqrt ∧ 2 ^ 25 ≤ number.sqrt then number.sqrt + 1
      else number.sqrt := by
  have floor := Nat.sqrt_le number
  have ceiling := Nat.lt_succ_sqrt number
  have positive : 0 < number.sqrt := Nat.sqrt_pos.mpr some
  have log : number.sqrt.log2 < 26 := (Nat.log2_lt positive.ne').mpr (Nat.sqrt_lt.mpr small)
  have middle : (2 * number.sqrt + 1) * 2 ^ (51 - number.sqrt.log2) ≤
      nearestRoot (number * 4 ^ (52 - number.sqrt.log2)) ↔
        number.sqrt * number.sqrt + number.sqrt < number ∨
          number = number.sqrt * number.sqrt + number.sqrt ∧ 2 ^ 25 ≤ number.sqrt :=
    middle_reached_iff (Nat.log2_self_le positive.ne') Nat.lt_log2_self (Nat.le_of_lt_succ log)
  have halves : 2 ^ (52 - number.sqrt.log2) = 2 * 2 ^ (51 - number.sqrt.log2) := by
    rw [← pow_succ']
    congr 1
    omega
  have units : 0 < 2 ^ (51 - number.sqrt.log2) := by positivity
  have fours : 4 ^ (52 - number.sqrt.log2) =
      2 * 2 ^ (51 - number.sqrt.log2) * (2 * 2 ^ (51 - number.sqrt.log2)) := by
    rw [← halves]
    exact mul_pow 2 2 (52 - number.sqrt.log2)
  have least : number.sqrt * (2 * 2 ^ (51 - number.sqrt.log2)) ≤
      nearestRoot (number * 4 ^ (52 - number.sqrt.log2)) := by
    rw [le_nearestRoot_iff (by positivity), fours]
    nlinarith
  have most : nearestRoot (number * 4 ^ (52 - number.sqrt.log2)) ≤
      (number.sqrt + 1) * (2 * 2 ^ (51 - number.sqrt.log2)) := by
    rw [← Nat.lt_succ_iff, ← Nat.not_le, le_nearestRoot_iff (Nat.succ_pos _), fours]
    nlinarith
  unfold Double.ofUInt64 Double.sqrt Double.round Double.toUInt64
  simp only [pow_zero, Nat.mul_one, Nat.div_one, Nat.zero_add]
  rw [halves, rounded_eq units least most]
  simp only [middle]

theorem results_nearest : ∀ number < 32,
    number ≤ results.getD number 0 * results.getD number 0 + results.getD number 0 ∧
      results.getD number 0 * results.getD number 0 ≤ number + (results.getD number 0 - 1) := by
  decide

theorem nearest_le (nearest : IsNearestRoot number root) : root ≤ number := by
  have products := (isNearestRoot_iff_mul.mp nearest).2
  by_contra large
  have square := Nat.mul_le_mul (Nat.lt_of_not_le large) (Nat.le_refl root)
  have once := Nat.le_mul_of_pos_right number (by omega : 0 < root)
  rw [Nat.succ_mul] at square
  omega

theorem nearest_fits {value : BitVec W} (nearest : IsNearestRoot value.toNat root) :
    (BitVec.ofNat W root).toNat = root := by
  rw [BitVec.toNat_ofNat, Nat.mod_eq_of_lt ((nearest_le nearest).trans_lt value.isLt)]

theorem sqrt_small (NDEBUG : Bool) (rounds : Nat) {value : BitVec W} (small : getActiveBits value < 52) :
    ∃ root, sqrt NDEBUG rounds value = some root ∧ (IsNearestRoot value.toNat root.toNat ↔
      (value.toNat = value.toNat.sqrt * value.toNat.sqrt + value.toNat.sqrt → value.toNat.sqrt < 2 ^ 25)) := by
  have bound : value.toNat < 2 ^ 52 := (getActiveBits_le_iff value 52).mp (Nat.le_of_lt small)
  have word : (getRawData value).getD 0 0 = value.toNat := getRawData_zero (bound.trans (by decide))
  unfold sqrt
  simp only [word]
  by_cases tabled : getActiveBits value ≤ 5
  · have few := (getActiveBits_le_iff value 5).mp tabled
    have nearest := isNearestRoot_iff_mul.mpr (results_nearest value.toNat few)
    have root := Nat.sqrt_le_self value.toNat
    rw [if_pos tabled]
    refine ⟨_, rfl, ?_⟩
    rw [nearest_fits nearest]
    exact iff_of_true nearest fun _ => by omega
  · have above := getActiveBits_le_iff value 5
    have many : 1 < value.toNat := by omega
    have root := Nat.sqrt_lt_self many
    rw [if_neg tabled, if_pos small, libraryRoot_eq (Nat.zero_lt_of_lt many) bound]
    refine ⟨_, rfl, ?_⟩
    rw [BitVec.toNat_ofNat]
    split
    · rw [Nat.mod_eq_of_lt (by omega), isNearestRoot_succ_sqrt]
      omega
    · rw [Nat.mod_eq_of_lt (by omega), isNearestRoot_sqrt]
      omega

section Babylonian

variable {value : BitVec W} (large : 52 ≤ getActiveBits value)

include large

theorem large_bounds : 52 ≤ W ∧ 2 ^ 51 ≤ value.toNat := by
  have within := getActiveBits_le value
  have above := getActiveBits_le_iff value 51
  omega

theorem startingValue_spec {i : Nat} {testy : BitVec W} (even : i % 2 = 0) (least : 2 ≤ i)
    (within : i ≤ W + 1) (power : i < W → testy.toNat = 2 ^ i) (enough : W + 1 < i + rounds) :
    ∃ x_old, startingValue value rounds i testy = some x_old ∧ value.toNat.sqrt ≤ x_old.toNat ∧
      x_old.toNat ≤ 2 ^ (W - 2) := by
  obtain ⟨wide, _⟩ := large_bounds large
  have positive : 0 < W := by omega
  induction rounds generalizing i testy with
  | zero => omega
  | succ rounds ih =>
      unfold startingValue
      by_cases stops : W ≤ i ∨ value ≤ testy
      · have start : ((1 : BitVec W) <<< (i / 2)).toNat = 2 ^ (i / 2) := by
          rw [BitVec.toNat_shiftLeft, Nat.shiftLeft_eq, toNat_one positive, Nat.one_mul, Nat.mod_eq_of_lt]
          exact Nat.pow_lt_pow_right (by decide) (by omega)
        have square : 2 ^ (i / 2) * 2 ^ (i / 2) = 2 ^ i := by
          rw [← pow_add]
          congr 1
          omega
        have covered : value.toNat ≤ 2 ^ i := by
          by_cases beyond : W ≤ i
          · exact (Nat.le_of_lt value.isLt).trans (Nat.pow_le_pow_right (by decide) beyond)
          · rw [← power (Nat.lt_of_not_le beyond)]
            exact BitVec.le_def.mp (stops.resolve_left beyond)
        refine ⟨_, if_pos stops, ?_, ?_⟩
        · rw [start, ← Nat.lt_succ_iff, Nat.sqrt_lt]
          have next := Nat.mul_self_lt_mul_self (Nat.lt_succ_self (2 ^ (i / 2)))
          omega
        · rw [start]
          exact Nat.pow_le_pow_right (by decide) (by omega)
      · rw [if_neg stops]
        rw [not_or, Nat.not_le] at stops
        apply ih (by omega) (by omega) (by omega) _ (by omega)
        intro below
        have fits : 2 ^ (i + 2) < 2 ^ W := Nat.pow_lt_pow_right (by decide) below
        rw [pow_add] at fits
        rw [BitVec.toNat_shiftLeft, Nat.shiftLeft_eq, power stops.1, Nat.mod_eq_of_lt fits, pow_add]

theorem babylonian_step {x_old : BitVec W} (above : value.toNat.sqrt ≤ x_old.toNat)
    (room : x_old.toNat ≤ 2 ^ (W - 2)) :
    ∃ quotient x_new, udiv value x_old = some quotient ∧ udiv (quotient + x_old) 2 = some x_new ∧
      x_new.toNat = newtonStep value.toNat x_old.toNat := by
  obtain ⟨wide, least⟩ := large_bounds large
  have root : 2 ≤ value.toNat.sqrt := Nat.le_sqrt.mpr (by omega)
  have quarter : 2 ^ W = 4 * 2 ^ (W - 2) := by
    have exponent : W = 2 + (W - 2) := by omega
    rw [exponent, pow_add, Nat.add_sub_cancel_left]
    rfl
  have half : value.toNat / x_old.toNat ≤ value.toNat / 2 :=
    Nat.div_le_div_left (root.trans above) (by decide)
  have small : 2 < 2 ^ W := by omega
  have two : (2 : BitVec W).toNat = 2 := Nat.mod_eq_of_lt small
  have someOld : x_old ≠ 0 := ne_zero_of_toNat (by omega)
  have someTwo : (2 : BitVec W) ≠ 0 := ne_zero_of_toNat (by omega)
  refine ⟨_, _, udiv_eq someOld, udiv_eq someTwo, ?_⟩
  have sum : value.toNat / x_old.toNat + x_old.toNat < 2 ^ W := by
    omega
  rw [BitVec.toNat_udiv, BitVec.toNat_add, BitVec.toNat_udiv, two, Nat.mod_eq_of_lt sum]
  rfl

theorem babylonian_spec {x_old : BitVec W} (above : value.toNat.sqrt ≤ x_old.toNat)
    (room : x_old.toNat ≤ 2 ^ (W - 2)) (enough : x_old.toNat < rounds) :
    ∃ root, babylonian value rounds x_old = some root ∧ root.toNat = value.toNat.sqrt := by
  induction rounds generalizing x_old with
  | zero => exact absurd enough (Nat.not_lt_zero _)
  | succ rounds ih =>
      obtain ⟨quotient, x_new, divided, halved, step⟩ := babylonian_step large above room
      have least := (large_bounds large).2
      have root : 2 ≤ value.toNat.sqrt := Nat.le_sqrt.mpr (by omega)
      have next := sqrt_le_newtonStep value.toNat (by omega : 0 < x_old.toNat)
      rw [← step] at next
      unfold babylonian
      simp only [divided, halved, bind_eq_bind, bind_some]
      by_cases stops : x_old ≤ x_new
      · rw [if_pos stops]
        rw [BitVec.le_def, step] at stops
        exact ⟨x_old, rfl, Nat.le_antisymm (le_sqrt_of_le_newtonStep stops) above⟩
      · rw [if_neg stops]
        rw [BitVec.le_def] at stops
        exact ih next (by omega) (by omega)

theorem toNat_succ_root {root : BitVec W} (floor : root.toNat = value.toNat.sqrt) :
    (root + 1).toNat = root.toNat + 1 := by
  obtain ⟨wide, least⟩ := large_bounds large
  have smaller := Nat.sqrt_lt_self (by omega : 1 < value.toNat)
  have fits : root.toNat + 1 < 2 ^ W := by omega
  rw [BitVec.toNat_add, toNat_one (by omega), Nat.mod_eq_of_lt fits]

theorem closest_eq (NDEBUG : Bool) {root : BitVec W} (floor : root.toNat = value.toNat.sqrt) :
    closest NDEBUG value root =
      if NDEBUG ∨ (root.toNat + 1) * (root.toNat + 1) < 2 ^ W then
        some (if value.toNat < root.toNat * root.toNat + root.toNat then root else root + 1)
      else none := by
  obtain ⟨wide, least⟩ := large_bounds large
  have bound := value.isLt
  have low := Nat.sqrt_le value.toNat
  have high := Nat.lt_succ_sqrt value.toNat
  have many : 3 ≤ value.toNat.sqrt := Nat.le_sqrt.mpr (by omega)
  rw [← floor] at low high many
  have thrice := Nat.mul_le_mul_right root.toNat many
  have next : (root.toNat + 1) * (root.toNat + 1) = root.toNat * root.toNat + (2 * root.toNat + 1) := by ring
  rw [Nat.succ_eq_add_one, next] at high
  have square : (root * root).toNat = root.toNat * root.toNat := by
    rw [BitVec.toNat_mul, Nat.mod_eq_of_lt (low.trans_lt bound)]
  have succ := toNat_succ_root large floor
  have nextSquare : ((root + 1) * (root + 1)).toNat =
      (root.toNat * root.toNat + (2 * root.toNat + 1)) % 2 ^ W := by
    rw [BitVec.toNat_mul, succ, next]
  have distance : ((root + 1) * (root + 1) - root * root).toNat = 2 * root.toNat + 1 := by
    have whole : 2 ^ W - root.toNat * root.toNat + (root.toNat * root.toNat + (2 * root.toNat + 1)) =
        2 ^ W + (2 * root.toNat + 1) := by omega
    have fits : 2 * root.toNat + 1 < 2 ^ W := by omega
    rw [BitVec.toNat_sub, nextSquare, square, Nat.add_mod_mod, whole, Nat.add_mod_left, Nat.mod_eq_of_lt fits]
  have asserted : value ≤ (root + 1) * (root + 1) ↔ (root.toNat + 1) * (root.toNat + 1) < 2 ^ W := by
    rw [BitVec.le_def, nextSquare, next]
    by_cases fits : root.toNat * root.toNat + (2 * root.toNat + 1) < 2 ^ W
    · rw [Nat.mod_eq_of_lt fits]
      omega
    · rw [Nat.mod_eq_sub_mod (Nat.le_of_not_lt fits), Nat.mod_eq_of_lt (by omega)]
      omega
  have two : (2 : BitVec W).toNat = 2 := Nat.mod_eq_of_lt (by omega : 2 < 2 ^ W)
  have someTwo : (2 : BitVec W) ≠ 0 := ne_zero_of_toNat (by omega)
  have half : value - root * root < ((root + 1) * (root + 1) - root * root) / 2 ↔
      value.toNat < root.toNat * root.toNat + root.toNat := by
    have below : root * root ≤ value := by
      rw [BitVec.le_def, square]
      exact low
    rw [BitVec.lt_def, BitVec.toNat_sub_of_le below, square, BitVec.toNat_udiv, distance, two]
    omega
  have floored : ¬ value < root * root := by
    rw [BitVec.lt_def, square]
    exact Nat.not_lt.mpr low
  unfold closest
  simp only [if_neg floored, asserted, udiv_eq someTwo, half, bind_eq_bind, bind_some]
  by_cases passes : NDEBUG = true ∨ (root.toNat + 1) * (root.toNat + 1) < 2 ^ W
  · rw [if_pos passes, (guard_eq_some' ()).mpr passes, bind_some]
    split
    · rfl
    · rfl
  · rw [if_neg passes, bind_eq_none_iff]
    intro _ held
    exact absurd ((guard_eq_some' _).mp held) passes

theorem sqrt_large (NDEBUG : Bool) (enough : 2 ^ W ≤ rounds) :
    ∃ root, root.toNat = value.toNat.sqrt ∧ sqrt NDEBUG rounds value = closest NDEBUG value root := by
  obtain ⟨wide, _⟩ := large_bounds large
  have power : W < 2 ^ W := Nat.lt_two_pow_self
  have start : 4 < W → (16 : BitVec W).toNat = 2 ^ 4 := fun _ =>
    Nat.mod_eq_of_lt (Nat.pow_lt_pow_right (by decide) (by omega) : 2 ^ 4 < 2 ^ W)
  obtain ⟨x_old, started, above, room⟩ := startingValue_spec large rfl (by decide)
    (by omega) start (by omega : W + 1 < 4 + rounds)
  obtain ⟨root, iterated, floor⟩ := babylonian_spec large above room (x_old.isLt.trans_le enough)
  refine ⟨root, floor, ?_⟩
  unfold sqrt
  simp only [started, iterated, bind_eq_bind, bind_some]
  rw [if_neg (by omega), if_neg (by omega)]

end Babylonian

def RootIsNearest (NDEBUG : Bool) (rounds : Nat) (value : BitVec W) : Prop :=
  ∃ root, sqrt NDEBUG rounds value = some root ∧ IsNearestRoot value.toNat root.toNat

/-- The product of 2^26 and the next number. -/
theorem tie_not_nearest :
    ¬ RootIsNearest false (2 ^ 64) (0x10000004000000 : BitVec 64) := by
  rintro ⟨root, computed, nearest⟩
  have upper : sqrt false (2 ^ 64) (0x10000004000000 : BitVec 64) = some 0x4000001 := by
    decide +kernel
  rw [upper, Option.some.injEq] at computed
  rw [← computed, isNearestRoot_iff_mul] at nearest
  exact absurd nearest (by decide)

/-- The result is nearest but for the products of neighbours from 2^25 on, unless the
assertion fails for want of a square. -/
theorem sqrt_nearest_iff (NDEBUG : Bool) (enough : 2 ^ W ≤ rounds) (value : BitVec W) :
    RootIsNearest NDEBUG rounds value ↔
      (value.toNat = value.toNat.sqrt * value.toNat.sqrt + value.toNat.sqrt → value.toNat.sqrt < 2 ^ 25) ∧
        (getActiveBits value < 52 ∨ NDEBUG ∨ (value.toNat.sqrt + 1) * (value.toNat.sqrt + 1) < 2 ^ W) := by
  by_cases small : getActiveBits value < 52
  · obtain ⟨root, computed, nearest⟩ := sqrt_small NDEBUG rounds small
    unfold RootIsNearest
    rw [computed, and_iff_left (.inl small), ← nearest]
    simp only [Option.some.injEq, exists_eq_left']
  · have large := Nat.le_of_not_lt small
    obtain ⟨root, floor, computed⟩ := sqrt_large large NDEBUG enough
    have succ := toNat_succ_root large floor
    unfold RootIsNearest
    have wide : ¬ value.toNat.sqrt < 2 ^ 25 := by
      have least := (large_bounds large).2
      exact Nat.not_lt.mpr (Nat.le_sqrt.mpr (by omega))
    rw [computed, closest_eq large NDEBUG floor, or_iff_right small, imp_iff_not wide, ← floor]
    by_cases passes : NDEBUG = true ∨ (root.toNat + 1) * (root.toNat + 1) < 2 ^ W
    · have lower : IsNearestRoot value.toNat root.toNat ↔
          value.toNat ≤ root.toNat * root.toNat + root.toNat := by
        rw [floor, isNearestRoot_sqrt]
      have upper : IsNearestRoot value.toNat (root + 1).toNat ↔
          root.toNat * root.toNat + root.toNat < value.toNat := by
        rw [succ, floor, isNearestRoot_succ_sqrt]
      rw [if_pos passes, and_iff_left passes]
      simp only [Option.some.injEq, exists_eq_left']
      by_cases below : value.toNat < root.toNat * root.toNat + root.toNat
      · rw [if_pos below, lower]
        omega
      · rw [if_neg below, upper]
        omega
    · rw [if_neg passes]
      constructor
      · rintro ⟨_, none, _⟩
        cases none
      · rintro ⟨_, held⟩
        exact absurd held passes

theorem thousand_nearest : RootIsNearest false (2 ^ 32) (1000 : BitVec 32) :=
  (sqrt_nearest_iff false (le_refl _) 1000).mpr ⟨fun _ => by decide +kernel, .inl (by decide)⟩

end EvmBackend.APInt
