/-
Divisions by constants, signed and unsigned: when the expressions that are built
for all the elements are the quotients.
-/

import EvmBackend.TargetLowering.SignedDivision

namespace EvmBackend.TargetLowering

open APInt

variable {W : Nat}

/-- The searches end, the shifts are in range, a numerator that is shifted first
needs no other fix, and every expression is the quotient. -/
structure DividesByConstant (rounds : Nat) (N1 : Constant W) : Prop where
  terminates : ∀ d ∈ N1.elements,
    (∃ magics, magic rounds d = some magics) ∧ ∃ magics, magicu rounds 0 d = some magics
  preShifted : ∀ d ∈ N1.elements, ∃ element, BuildUDIVPattern rounds d = some (some element) ∧
    element.PreShift < W ∧ element.PostShift < W ∧
      (element.PreShift ≠ 0 → ∃ magics,
        magicu rounds element.PreShift (d >>> element.PreShift) = some magics ∧ magics.a = false)
  unsigned : ∀ (target : Target) (IsAfterLegalization : Bool), target.isTypeLegal →
    target.supports IsAfterLegalization .MULHU ∨ target.supports IsAfterLegalization .UMUL_LOHI →
      ∃ node, BuildUDIV rounds target IsAfterLegalization N1 = some (some node) ∧
        ∀ element d, N1.elements[element]? = some d → ∀ operand,
          node.value operand element = some (operand / d)
  signed : ∀ (target : Target) (IsAfterLegalization : Bool), target.isTypeLegal →
    target.supports IsAfterLegalization .MULHS ∨ target.supports IsAfterLegalization .SMUL_LOHI →
      ∃ node, BuildSDIV rounds target IsAfterLegalization N1 = some (some node) ∧
        ∀ element d, N1.elements[element]? = some d → d ≠ 1 → d ≠ -1 → ∀ operand,
          node.value operand element = some (operand.sdiv d)

/-- Seven divided by minus seven, in 128 bits. -/
theorem sevenBySeven_wrong : ¬ DividesByConstant 129 (Constant.ofScalar (-7 : BitVec 128)) := by
  intro divides
  obtain ⟨node, built, exact⟩ := divides.signed everythingLegal true rfl (.inl rfl)
  have quotient := exact 0 (-7) rfl (by decide) (by decide) 7
  have computed : ((BuildSDIV 129 everythingLegal true (Constant.ofScalar (-7 : BitVec 128))).bind
      fun node => node.bind fun node => node.value 7 0) = some 32281802128991715326 := by
    decide +kernel
  rw [built, Option.bind_some, Option.bind_some, quotient] at computed
  exact absurd computed (by decide)

/-- The divisions are exact where every constant that is added is kept: at widths
up to 64, for the divisors that are not negative, and for those whose multiplier
leaves the top bit free. -/
theorem dividesByConstant_iff {rounds : Nat} {N1 : Constant W} (wide : 3 ≤ W) (enough : W + 1 ≤ rounds)
    (nonzero : ∀ d ∈ N1.elements, d ≠ 0) :
    DividesByConstant rounds N1 ↔ ∀ d ∈ N1.elements, d ≠ 1 → d ≠ -1 → Kept d := by
  constructor
  · intro divides d member one minusOne
    obtain ⟨node, built, exact⟩ := divides.signed everythingLegal true rfl (.inl rfl)
    obtain ⟨computed, same, values⟩ := BuildSDIV_value everythingLegal true wide
      (by omega : W ≤ rounds) rfl (.inl rfl) nonzero
    obtain rfl : node = computed := by
      rw [built] at same
      exact Option.some.inj (Option.some.inj same)
    obtain ⟨element, found⟩ := List.getElem?_of_mem member
    obtain ⟨magics, holds, quotient⟩ := values element d found one minusOne
    rw [kept_iff wide (nonzero d member) holds]
    by_contra lost
    have long : 64 < W := by omega
    have factor : numeratorFactor d magics.m = -1 := by omega
    have agree := exact element d found one minusOne (BitVec.ofNat W (2 ^ (W - 65)))
    rw [quotient] at agree
    exact quotient_ne wide (nonzero d member) holds long factor (Option.some.inj agree)
  · intro kept
    constructor
    · intro d member
      have bounded : d.toNat < 2 ^ (W - 0) := d.isLt
      obtain ⟨magics, found, _⟩ := magic_terminates wide (nonzero d member) (by omega : W ≤ rounds)
      obtain ⟨magicsUp, foundUp, _⟩ := magicu_terminates wide (nonzero d member) bounded (by omega) enough
      exact ⟨⟨magics, found⟩, magicsUp, foundUp⟩
    · intro d member
      obtain ⟨element, built, divides, fits⟩ := BuildUDIVPattern_spec wide enough (nonzero d member)
      exact ⟨element, built, divides.pre, divides.post, fits⟩
    · intro target IsAfterLegalization typeLegal legal
      exact BuildUDIV_exact wide enough typeLegal legal nonzero
    · intro target IsAfterLegalization typeLegal legal
      obtain ⟨node, built, values⟩ := BuildSDIV_value target IsAfterLegalization wide
        (by omega : W ≤ rounds) typeLegal legal nonzero
      refine ⟨node, built, fun element d found one minusOne operand => ?_⟩
      obtain ⟨magics, holds, quotient⟩ := values element d found one minusOne
      have member := List.mem_of_getElem? found
      have keeps := (kept_iff wide (nonzero d member) holds).mp (kept d member one minusOne)
      rw [quotient, quotient_eq wide (nonzero d member) holds keeps]

theorem byMinusSeven_divided : DividesByConstant 33 (Constant.ofScalar (-7 : BitVec 32)) :=
  (dividesByConstant_iff (by decide) (by decide) fun d member => by
    rw [List.mem_singleton.mp member]
    decide).mpr fun _ _ _ _ => .inl (by decide)

end EvmBackend.TargetLowering
