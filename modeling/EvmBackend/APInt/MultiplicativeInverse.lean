/-
The multiplicative inverse by the extended Euclidean algorithm.

The remainders take each other's place in an array of two, and every remainder
is put where the dividend was. The division of a remainder by one then gives the
quotient zero in wide integers; but one is the last remainder that is divided
by, and the coefficient made of that quotient is not read.
-/

import EvmBackend.APInt.DivRem
import EvmBackend.Library.Coefficients

namespace EvmBackend.APInt

open Coefficients

variable {W : Nat}

inductive InverseVariable
  | r (index : Bool)
  | q
  deriving DecidableEq

def inverseLoop (memory : (W : Nat) → BitVec W) : Nat → Bool → Variables InverseVariable →
    (Bool → BitVec W) → Option (Bool × Variables InverseVariable × (Bool → BitVec W))
  | 0, _, _, _ => none
  | rounds + 1, i, vars, t =>
      if (vars (.r !i)).value ≠ 0 then do
        let vars ← udivrem memory (.r i) (.r !i) .q (.r i) vars
        let q := BitVec.ofNat W (vars .q).value
        inverseLoop memory rounds (!i) vars (Function.update t i (t i - t (!i) * q))
      else some (i, vars, t)

def multiplicativeInverse (memory : (W : Nat) → BitVec W) (rounds : Nat) (value modulo : BitVec W) :
    Option (BitVec W) :=
  if value < modulo then do
    let r : Variables InverseVariable
      | .r false => ⟨W, modulo⟩
      | .r true => ⟨W, value⟩
      | .q => ⟨W, 0⟩
    let (i, r, t) ← inverseLoop memory rounds false r fun index => if index then 1 else 0
    if (r (.r i)).value ≠ 1 then some 0
    else if isNegative (t i) then some (t i + modulo)
    else some (t i)
  else none

section Division

variable {memory : (W : Nat) → BitVec W} {vars : Variables InverseVariable} {i : Bool} {u l q : BitVec W}

/-- The remainders after a division; the quotient is right unless it is by one. -/
structure DividedInPlace (i : Bool) (u l : BitVec W)
    (after : Variables InverseVariable) : Prop where
  remainder : after (.r i) = ⟨W, u % l⟩
  divisor : after (.r !i) = ⟨W, l⟩
  quotient : l.toNat ≠ 1 → after .q = ⟨W, u / l⟩

theorem other_ne (i : Bool) : InverseVariable.r (!i) ≠ .r i := by
  intro same
  cases i <;> cases same

theorem inverse_divided (memory : (W : Nat) → BitVec W) (isU : vars (.r i) = ⟨W, u⟩)
    (isL : vars (.r !i) = ⟨W, l⟩) (some : l.toNat ≠ 0) :
    ∃ after, udivrem memory (.r i) (.r !i) .q (.r i) vars = Option.some after ∧
      DividedInPlace i u l after := by
  have nonzero : l ≠ 0 := by
    intro zero
    apply some
    rw [zero]
    exact BitVec.toNat_ofNat 0 W
  have different : InverseVariable.q ≠ .r i := fun same => by cases same
  by_cases late : W ≤ 64 ∨ u.toNat = 0 ∨ l.toNat ≠ 1
  · obtain ⟨after, done, results⟩ :=
      udivrem_spec_of_not_early memory isU isL nonzero different late
    refine ⟨after, done, results.remainder, ?_, fun _ => results.quotient⟩
    rw [results.others _ (fun same => by cases same) (other_ne i), isL]
  · rw [not_or, not_or, not_not, Nat.not_le] at late
    obtain ⟨wide, large, one⟩ := late
    have zeroed : assign W (.r i) 0 (copy .q (.r i) vars) (.r i) = ⟨W, BitVec.ofNat W 0⟩ := assign_same 0
    have kept : assign W (.r i) 0 (copy .q (.r i) vars) (.r !i) = ⟨W, l⟩ := by
      rw [assign_ne _ (other_ne i), copy_ne _ (fun same => by cases same), isL]
    have none : (BitVec.ofNat W 0).toNat = 0 := BitVec.toNat_ofNat 0 W
    rw [udivrem_one memory wide isU isL large one]
    unfold divremFrom
    simp only [zeroed, kept, Variable.value_mk, none]
    rw [if_pos (.inr (by omega))]
    refine ⟨_, rfl, ?_, ?_, fun other => absurd one other⟩
    · rw [assign_ne _ different.symm, copy_same, zeroed, ← ofNat_mod, one, Nat.mod_one]
    · rw [assign_ne _ (fun same => by cases same), copy_ne _ (other_ne i), kept]

end Division

structure Computes (modulo value : BitVec W) (i : Bool) (vars : Variables InverseVariable)
    (t : Bool → BitVec W) (u l : BitVec W) (first second : Int) : Prop where
  upper : vars (.r i) = ⟨W, u⟩
  lower : vars (.r !i) = ⟨W, l⟩
  firstIs : t i = BitVec.ofInt W first
  secondIs : t (!i) = BitVec.ofInt W second
  remainders : Remainders modulo.toNat value.toNat u.toNat l.toNat first second

structure Ends (modulo value : BitVec W) (i : Bool) (vars : Variables InverseVariable)
    (t : Bool → BitVec W) (first : Int) : Prop where
  gcd : (vars (.r i)).value = modulo.toNat.gcd value.toNat
  coefficient : t i = BitVec.ofInt W first
  divides : (modulo.toNat : Int) ∣ value.toNat * first - (modulo.toNat.gcd value.toNat : Nat)
  half : 2 * first.natAbs ≤ modulo.toNat

section Loop

variable {memory : (W : Nat) → BitVec W} {modulo value u l : BitVec W} {i : Bool}
  {vars : Variables InverseVariable} {t : Bool → BitVec W} {first second : Int}

theorem Computes.ends (computes : Computes modulo value i vars t u l first second) (zero : l.toNat = 0) :
    Ends modulo value i vars t first := by
  have gcd := computes.remainders.gcd
  rw [zero, Nat.gcd_zero_right] at gcd
  refine ⟨?_, computes.firstIs, ?_, computes.remainders.half⟩
  · rw [computes.upper, Variable.value_mk, gcd]
  · rw [← gcd]
    exact computes.remainders.upperIs

theorem Computes.step {after : Variables InverseVariable}
    (computes : Computes modulo value i vars t u l first second)
    (divided : DividedInPlace i u l after) (some : l.toNat ≠ 0) (other : l.toNat ≠ 1) :
    Computes modulo value (!i) after
      (Function.update t i (t i - t (!i) * BitVec.ofNat W (after .q).value)) l (u % l) second
      (first - (u.toNat / l.toNat : Nat) * second) := by
  have apart : (!i) ≠ i := by cases i <;> decide
  have quotient : BitVec.ofNat W (after .q).value = BitVec.ofInt W (u.toNat / l.toNat : Nat) := by
    rw [divided.quotient other, Variable.value_mk, BitVec.toNat_udiv, BitVec.ofInt_natCast]
  constructor
  · exact divided.divisor
  · rw [Bool.not_not]
    exact divided.remainder
  · rw [Function.update_of_ne apart, computes.secondIs]
  · rw [Bool.not_not, Function.update_self, quotient, computes.firstIs, computes.secondIs, Int.sub_eq_add_neg,
      BitVec.ofInt_add, BitVec.ofInt_neg, ← BitVec.sub_eq_add_neg, ← BitVec.ofInt_mul, Int.mul_comm]
  · rw [BitVec.toNat_umod]
    exact Coefficients.step computes.remainders (Nat.pos_of_ne_zero some)

theorem Computes.last {after : Variables InverseVariable} (next : Bool → BitVec W)
    (computes : Computes modulo value i vars t u l first second) (divided : DividedInPlace i u l after)
    (one : l.toNat = 1) (same : next (!i) = t (!i)) : Ends modulo value (!i) after next second := by
  have remainders := computes.remainders
  have positive : 0 < l.toNat := by omega
  have gcd := remainders.gcd
  rw [one, Nat.gcd_one_right] at gcd
  refine ⟨?_, ?_, ?_, half_next remainders positive⟩
  · rw [divided.divisor, Variable.value_mk, ← gcd, one]
  · rw [same, computes.secondIs]
  · rw [← gcd, ← one]
    exact remainders.lowerIs

theorem inverseLoop_ends (memory : (W : Nat) → BitVec W) (rounds : Nat)
    (computes : Computes modulo value i vars t u l first second)
    (enough : l.toNat < rounds) :
    ∃ j after next last, inverseLoop memory rounds i vars t = some (j, after, next) ∧
      Ends modulo value j after next last := by
  induction rounds generalizing i vars t u l first second with
  | zero => exact absurd enough (Nat.not_lt_zero _)
  | succ rounds ih =>
      rw [inverseLoop, computes.lower, Variable.value_mk]
      by_cases zero : l.toNat = 0
      · rw [if_neg (not_not.mpr zero)]
        exact ⟨_, _, _, _, rfl, computes.ends zero⟩
      · obtain ⟨after, done, divided⟩ := inverse_divided memory computes.upper computes.lower zero
        have apart : (!i) ≠ i := by cases i <;> decide
        rw [if_pos zero, done]
        simp only [Option.bind_eq_bind, Option.bind_some]
        by_cases one : l.toNat = 1
        · obtain ⟨rounds, rfl⟩ : ∃ fewer, rounds = fewer + 1 := ⟨rounds - 1, by omega⟩
          have remainder : (u % l).toNat = 0 := by rw [BitVec.toNat_umod, one, Nat.mod_one]
          rw [inverseLoop, Bool.not_not, divided.remainder, Variable.value_mk, if_neg (not_not.mpr remainder)]
          exact ⟨_, _, _, _, rfl, computes.last _ divided one (Function.update_of_ne apart ..)⟩
        · apply ih (computes.step divided zero one)
          have smaller := Nat.mod_lt u.toNat (Nat.pos_of_ne_zero zero)
          rw [BitVec.toNat_umod]
          omega

/-- The inverse of a value below the modulus, and zero where there is none. -/
theorem multiplicativeInverse_spec (memory : (W : Nat) → BitVec W) {rounds : Nat} (below : value < modulo)
    (enough : value.toNat < rounds) :
    ∃ x, multiplicativeInverse memory rounds value modulo = some x ∧
      (value.toNat.gcd modulo.toNat = 1 → 1 < modulo.toNat →
        x < modulo ∧ value.toNat * x.toNat % modulo.toNat = 1) ∧
      (value.toNat.gcd modulo.toNat ≠ 1 → x = 0) := by
  have positive : 0 < W := by
    by_contra none
    have zero : W = 0 := by omega
    subst zero
    exact absurd below (by simp [BitVec.eq_nil value, BitVec.eq_nil modulo])
  have less : value.toNat < modulo.toNat := BitVec.lt_def.mp below
  have computes : Computes modulo value false
      (fun | .r false => ⟨W, modulo⟩ | .r true => ⟨W, value⟩ | .q => ⟨W, 0⟩)
      (fun index => if index then 1 else 0) modulo value 0 1 :=
    ⟨rfl, rfl, rfl, rfl, start less⟩
  obtain ⟨j, after, next, last, done, ends⟩ := inverseLoop_ends memory rounds computes enough
  unfold multiplicativeInverse
  rw [if_pos below]
  simp only [done, Option.bind_eq_bind, Option.bind_some]
  rw [ends.gcd, Nat.gcd_comm]
  by_cases coprime : value.toNat.gcd modulo.toNat = 1
  · rw [if_neg (not_not.mpr coprime), ends.coefficient]
    have half := ends.half
    have double := two_pow_pred positive
    have signed : (BitVec.ofInt W last).toInt = last :=
      toInt_ofInt_of_range positive (by omega) (by omega)
    rw [isNegative_eq, signed]
    have result : (if decide (last < 0) = true then some (BitVec.ofInt W last + modulo)
        else some (BitVec.ofInt W last)) =
          some (BitVec.ofInt W (if last < 0 then last + modulo.toNat else last)) := by
      by_cases negative : last < 0
      · rw [if_pos (decide_eq_true negative), if_pos negative, BitVec.ofInt_add, BitVec.ofInt_natCast,
          BitVec.ofNat_toNat, BitVec.setWidth_eq]
      · rw [if_neg (by rw [decide_eq_true_eq]; exact negative), if_neg negative]
    refine ⟨_, result, fun _ large => ?_, fun other => absurd coprime other⟩
    have divides := ends.divides
    rw [Nat.gcd_comm, coprime] at divides
    obtain ⟨inverse, same, small, exact⟩ := Coefficients.inverse divides half large
    rw [← same, BitVec.ofInt_natCast, BitVec.lt_def, BitVec.toNat_ofNat, Nat.mod_eq_of_lt (by omega)]
    exact ⟨small, exact⟩
  · rw [if_pos coprime]
    exact ⟨0, rfl, fun one => absurd one coprime, fun _ => rfl⟩

end Loop

theorem fiveModuloTwelve_inverse :
    ∃ x, multiplicativeInverse (fun _ => 0) 6 (5 : BitVec 70) 12 = some x ∧ 5 * x.toNat % 12 = 1 := by
  obtain ⟨x, found, exact, _⟩ := multiplicativeInverse_spec (fun _ => 0)
    (by decide : (5 : BitVec 70) < 12) (by decide : (5 : BitVec 70).toNat < 6)
  exact ⟨x, found, (exact (by decide) (by decide)).2⟩

end EvmBackend.APInt
