/-
The unsigned division by a constant is exact.

A multiplier of one more bit than the words have is handled in two ways: an even
divisor shifts the numerator first, so that the multiplier of the odd part fits;
for an odd divisor the missing bit adds the numerator once more.
-/

import EvmBackend.TargetLowering.DivideByConstant
import Mathlib.Data.List.Forall2

namespace EvmBackend.TargetLowering

open APInt Reciprocals List Option

variable {W : Nat}

/-! ### Elements -/

theorem matchUnaryPredicate_built {Element : Type} {Match : BitVec W → Option (Option Element)}
    {Good : BitVec W → Element → Prop} {elements : List (BitVec W)}
    (each : ∀ element ∈ elements, ∃ built, Match element = some (some built) ∧ Good element built) :
    ∃ built, matchUnaryPredicate Match elements = some (some built) ∧
      List.Forall₂ Good elements built := by
  induction elements with
  | nil => exact ⟨[], rfl, .nil⟩
  | cons element rest ih =>
      obtain ⟨first, matched, good⟩ := each element (mem_cons_self ..)
      obtain ⟨others, rested, all⟩ := ih fun later member => each later (mem_cons_of_mem _ member)
      refine ⟨first :: others, ?_, .cons good all⟩
      simp [matchUnaryPredicate, matched, rested]

theorem forall₂_getElem {First Second : Type} {Good : First → Second → Prop} {left : List First}
    {right : List Second} (all : List.Forall₂ Good left right) {index : Nat} {first : First}
    (found : left[index]? = some first) : ∃ second, right[index]? = some second ∧ Good first second := by
  induction all generalizing index with
  | nil => cases found
  | cons good _ ih =>
      cases index with
      | zero =>
          cases found
          exact ⟨_, rfl, good⟩
      | succ index => exact ih found

/-- The shifts of an element are in range, and the numbers it stands for are the
quotients: the high half of the product shifted, or the mean of the numerator
and the high half shifted. -/
structure Divides (d : BitVec W) (element : UDIVElement W) : Prop where
  pre : element.PreShift < W
  post : element.PostShift < W
  plain : element.SelNPQ = false → d ≠ 1 → ∀ number < 2 ^ W,
    number / 2 ^ element.PreShift * element.MagicFactor.toNat / 2 ^ W / 2 ^ element.PostShift =
      number / d.toNat
  fixed : element.SelNPQ = true → element.PreShift = 0 ∧ d ≠ 1 ∧ ∀ number < 2 ^ W,
    ((number - number * element.MagicFactor.toNat / 2 ^ W) / 2 +
      number * element.MagicFactor.toNat / 2 ^ W) / 2 ^ element.PostShift = number / d.toNat

section Elements

variable {d : BitVec W} {magics : mu W} (wide : 3 ≤ W)

theorem divides_of_fits {LeadingZeros : Nat} (holds : UnsignedMagic LeadingZeros d magics)
    (fits : magics.a = false) (number : Nat) (small : number < 2 ^ (W - LeadingZeros)) :
    number * magics.m.toNat / 2 ^ W / 2 ^ magics.s = number / d.toNat := by
  have flag := holds.flag
  rw [fits] at flag
  have bounded := of_decide_eq_false flag.symm
  rw [holds.word, toNat_ofNat_lt (Nat.lt_of_not_le bounded), Nat.div_div_eq_div_mul, ← pow_add,
    Nat.mul_comm, holds.exact number small]

include wide

theorem UDIVPattern_odd (holds : UnsignedMagic 0 d magics) (more : magics.a = true) (large : 2 ≤ d.toNat) :
    0 < magics.s ∧ ∀ number < 2 ^ W,
      ((number - number * magics.m.toNat / 2 ^ W) / 2 + number * magics.m.toNat / 2 ^ W) /
        2 ^ (magics.s - 1) = number / d.toNat := by
  have flag := holds.flag
  rw [more] at flag
  have above := of_decide_eq_true flag.symm
  have some := Nat.two_pow_pos W
  rcases holds.multiplier_lt wide large with double | ⟨zero, small⟩
  · rw [Nat.sub_zero, pow_succ] at double
    have positive : 0 < magics.s := by
      apply Nat.pos_of_ne_zero
      intro zero
      have small := multiplierFor_width wide large
      rw [zero] at above
      exact Nat.not_le_of_lt small above
    refine ⟨positive, fun number small => ?_⟩
    have word : magics.m.toNat = multiplierFor (2 ^ (W + magics.s)) d.toNat - 2 ^ W := by
      rw [holds.word, BitVec.toNat_ofNat, Nat.mod_eq_sub_mod above, Nat.mod_eq_of_lt (by omega)]
    have exact := holds.exact number (by rw [Nat.sub_zero]; exact small)
    obtain ⟨rest, whole⟩ := Nat.exists_eq_add_of_le above
    rw [whole] at word exact
    rw [Nat.add_sub_cancel_left] at word
    have high : (2 ^ W + rest) * number / 2 ^ W = number + number * rest / 2 ^ W := by
      rw [Nat.add_mul, Nat.add_comm, Nat.add_mul_div_left _ _ some, Nat.mul_comm rest, Nat.add_comm]
    have below : number * rest / 2 ^ W ≤ number := by
      apply Nat.div_le_of_le_mul
      rw [Nat.mul_comm]
      exact Nat.mul_le_mul_right _ (by omega)
    have exponent : W + magics.s = W + 1 + (magics.s - 1) := by omega
    rw [exponent, pow_add, pow_succ, ← Nat.div_div_eq_div_mul, ← Nat.div_div_eq_div_mul, high] at exact
    have mean : (number - number * rest / 2 ^ W) / 2 + number * rest / 2 ^ W =
        (number + number * rest / 2 ^ W) / 2 := by omega
    rw [word, mean, exact]
  · rw [zero, Nat.add_zero] at above
    exact absurd above (Nat.not_le_of_lt small)

omit wide in
theorem getLsbD_zero_iff (value : BitVec W) : value.getLsbD 0 = true ↔ value.toNat % 2 = 1 := by
  rw [BitVec.getLsbD, Nat.testBit_zero, decide_eq_true_eq]

theorem UDIVPattern_even {rounds : Nat} (enough : W + 1 ≤ rounds) (nonzero : d ≠ 0)
    (holds : UnsignedMagic 0 d magics) (more : magics.a = true) (even : d.toNat % 2 = 0) :
    ∃ shifted, magicu rounds (countTrailingZeros d) (d >>> countTrailingZeros d) = some shifted ∧
      shifted.a = false ∧ shifted.s < W ∧ ∀ number < 2 ^ W,
        number / 2 ^ countTrailingZeros d * shifted.m.toNat / 2 ^ W / 2 ^ shifted.s =
          number / d.toNat := by
  have some := toNat_ne_zero nonzero
  obtain ⟨below, divides, odd⟩ := trailingZeros_spec W d.toNat some d.isLt
  have below : countTrailingZeros d < W := below
  have divides : 2 ^ countTrailingZeros d ∣ d.toNat := divides
  have odd : d.toNat / 2 ^ countTrailingZeros d % 2 = 1 := odd
  generalize countTrailingZeros d = PreShift at below divides odd ⊢
  have word : (d >>> PreShift).toNat = d.toNat / 2 ^ PreShift := by
    rw [BitVec.toNat_ushiftRight, Nat.shiftRight_eq_div_pow]
  have positive : 0 < PreShift := by
    apply Nat.pos_of_ne_zero
    intro zero
    rw [zero, pow_zero, Nat.div_one] at odd
    omega
  have notPower : d.toNat / 2 ^ PreShift ≠ 1 := by
    intro one
    have power : d.toNat = 2 ^ PreShift := by
      rw [← Nat.div_mul_cancel divides, one, Nat.one_mul]
    have zero := holds.shift_eq_zero wide below power
    have large : 2 ≤ d.toNat := by omega
    have small := multiplierFor_width wide large
    have flag := holds.flag
    rw [more, zero] at flag
    exact Nat.not_le_of_lt small (of_decide_eq_true flag.symm)
  have bounded : d.toNat / 2 ^ PreShift < 2 ^ (W - PreShift) := by
    apply (Nat.div_lt_iff_lt_mul (Nat.two_pow_pos _)).mpr
    rw [← pow_add, Nat.sub_add_cancel below.le]
    exact d.isLt
  have two : PreShift + 2 ≤ W := by
    by_contra narrow
    have small : 2 ^ (W - PreShift) ≤ 2 ^ 1 := Nat.pow_le_pow_right (by decide) (by omega)
    omega
  have shiftedNonzero : d >>> PreShift ≠ 0 := by
    intro zero
    rw [zero] at word
    have none : (0 : BitVec W).toNat = 0 := BitVec.toNat_ofNat 0 W
    omega
  obtain ⟨shifted, found, spec⟩ := magicu_terminates wide shiftedNonzero (by rw [word]; exact bounded)
    two enough
  have fits : shifted.a = false := by
    rw [spec.flag]
    apply decide_eq_false
    apply Nat.not_le_of_lt
    rcases spec.multiplier_lt wide (by rw [word]; omega) with narrow | ⟨zero, small⟩
    · exact narrow.trans_le (Nat.pow_le_pow_right (by decide) (by omega))
    · rw [zero]
      exact small
  refine ⟨shifted, found, fits, spec.shift_lt shiftedNonzero fits, fun number small => ?_⟩
  have quotient : number / 2 ^ PreShift < 2 ^ (W - PreShift) := by
    apply (Nat.div_lt_iff_lt_mul (Nat.two_pow_pos _)).mpr
    rw [← pow_add, Nat.sub_add_cancel below.le]
    exact small
  rw [divides_of_fits spec fits _ quotient, word, Nat.div_div_eq_div_mul, Nat.mul_div_cancel' divides]

theorem BuildUDIVPattern_spec {rounds : Nat} (enough : W + 1 ≤ rounds) (nonzero : d ≠ 0) :
    ∃ element, BuildUDIVPattern rounds d = some (some element) ∧ Divides d element ∧
      (element.PreShift ≠ 0 → ∃ magics,
        magicu rounds element.PreShift (d >>> element.PreShift) = some magics ∧ magics.a = false) := by
  have some := toNat_ne_zero nonzero
  have bounded : d.toNat < 2 ^ (W - 0) := d.isLt
  obtain ⟨magics, found, holds⟩ := magicu_terminates wide nonzero bounded (by omega) enough
  have positiveWidth : 0 < W := by omega
  have one := APInt.toNat_one positiveWidth
  have unitIff : d = 1 ↔ d.toNat = 1 := by rw [BitVec.toNat_eq, one]
  unfold BuildUDIVPattern
  rw [if_neg nonzero]
  simp only [found, bind_eq_bind, bind_some]
  by_cases fits : magics.a = false
  · have shift := holds.shift_lt nonzero fits
    simp only [fits, Bool.false_and, Bool.false_eq_true, if_false, Bool.not_false, Bool.true_or,
      if_true, if_pos shift]
    refine ⟨_, rfl, ⟨positiveWidth, shift, ?_, ?_⟩, fun absent => absurd rfl absent⟩
    · intro _ _ number small
      simp only [pow_zero, Nat.div_one]
      exact divides_of_fits holds fits number small
    · intro selected
      cases selected
  · have more : magics.a = true := by
      cases flag : magics.a with
      | false => exact absurd flag fits
      | true => rfl
    cases parity : d.getLsbD 0 with
    | false =>
        have even : d.toNat % 2 = 0 := by
          have odd := getLsbD_zero_iff d
          rw [parity] at odd
          simp at odd
          omega
        obtain ⟨shifted, foundShifted, fitsShifted, shift, quotient⟩ :=
          UDIVPattern_even wide enough nonzero holds more even
        obtain ⟨below, _, _⟩ := trailingZeros_spec W d.toNat some d.isLt
        simp only [more, foundShifted, fitsShifted, Bool.not_false, Bool.and_true, if_true,
          bind_some, Bool.false_eq_true, if_false, Bool.true_or, if_pos shift]
        refine ⟨_, rfl, ⟨below, shift, ?_, ?_⟩, fun _ => ⟨shifted, foundShifted, fitsShifted⟩⟩
        · intro _ _ number small
          exact quotient number small
        · intro selected
          cases selected
    | true =>
        simp only [more, Bool.not_true, Bool.and_false, Bool.false_eq_true, if_false,
          Bool.false_or, beq_iff_eq]
        by_cases unit : d = 1
        · have power : d.toNat = 2 ^ 0 := unitIff.mp unit
          have zero := holds.shift_eq_zero wide positiveWidth power
          have shift : magics.s < W := by omega
          rw [if_pos unit, if_pos shift]
          refine ⟨_, rfl, ⟨positiveWidth, shift, ?_, ?_⟩, fun absent => absurd rfl absent⟩
          · intro _ other
            exact absurd unit other
          · intro selected
            cases selected
        · have large : 2 ≤ d.toNat := by
            have other : d.toNat ≠ 1 := fun same => unit (unitIff.mpr same)
            omega
          obtain ⟨positive, quotient⟩ := UDIVPattern_odd wide holds more large
          have most := holds.shift
          rw [if_neg unit, if_neg (by omega)]
          refine ⟨_, rfl, ⟨positiveWidth, ?_, ?_, ?_⟩, fun absent => absurd rfl absent⟩
          · change magics.s - 1 < W
            omega
          · intro selected
            cases selected
          · intro _
            exact ⟨rfl, unit, quotient⟩

end Elements

section HighHalf

variable {target : Target} {IsAfterLegalization : Bool} {single double : ISD}

theorem highHalf_value (product : BitVec W → BitVec W → BitVec W)
    (first : ∀ left right, single.value left right = some (product left right))
    (second : ∀ left right, double.value left right = some (product left right))
    (legal : target.supports IsAfterLegalization single ∨ target.supports IsAfterLegalization double)
    (X Y : SDNode W) :
    ∃ Q, highHalf target IsAfterLegalization single double X Y = some Q ∧
      ∀ operand element left right, X.value operand element = some left →
        Y.value operand element = some right → Q.value operand element = some (product left right) := by
  unfold highHalf
  by_cases taken : target.supports IsAfterLegalization single
  · rw [if_pos taken]
    refine ⟨_, rfl, fun operand element left right valueX valueY => ?_⟩
    rw [SDNode.value, valueX, valueY]
    exact first left right
  · rw [if_neg taken, if_pos (legal.resolve_left taken)]
    refine ⟨_, rfl, fun operand element left right valueX valueY => ?_⟩
    rw [SDNode.value, valueX, valueY]
    exact second left right

end HighHalf

def mulhu (left right : BitVec W) : BitVec W := BitVec.ofNat W (left.toNat * right.toNat / 2 ^ W)

theorem toNat_mulhu (left right : BitVec W) :
    (mulhu left right).toNat = left.toNat * right.toNat / 2 ^ W := by
  apply toNat_ofNat_lt
  apply (Nat.div_lt_iff_lt_mul (Nat.two_pow_pos W)).mpr
  exact Nat.mul_lt_mul_of_lt_of_lt left.isLt right.isLt

def UDIVElement.high (element : UDIVElement W) (operand : BitVec W) : BitVec W :=
  mulhu (operand >>> element.PreShift) element.MagicFactor

def UDIVElement.fixedUp (element : UDIVElement W) (operand : BitVec W) : BitVec W :=
  if element.SelNPQ then (operand - element.high operand) >>> 1 + element.high operand
  else element.high operand

theorem Divides.value {d : BitVec W} {element : UDIVElement W} (divides : Divides d element)
    (other : d ≠ 1) (operand : BitVec W) :
    element.fixedUp operand >>> element.PostShift = operand / d := by
  apply BitVec.eq_of_toNat_eq
  have high : (element.high operand).toNat =
      operand.toNat / 2 ^ element.PreShift * element.MagicFactor.toNat / 2 ^ W := by
    unfold UDIVElement.high
    rw [toNat_mulhu, BitVec.toNat_ushiftRight, Nat.shiftRight_eq_div_pow]
  rw [BitVec.toNat_ushiftRight, Nat.shiftRight_eq_div_pow, BitVec.toNat_udiv]
  unfold UDIVElement.fixedUp
  cases selected : element.SelNPQ with
  | false =>
      rw [if_neg Bool.false_ne_true, high]
      exact divides.plain selected other operand.toNat operand.isLt
  | true =>
      obtain ⟨unshifted, _, quotient⟩ := divides.fixed selected
      rw [unshifted, pow_zero, Nat.div_one] at high
      have below : (element.high operand).toNat ≤ operand.toNat := by
        rw [high]
        apply Nat.div_le_of_le_mul
        rw [Nat.mul_comm]
        exact Nat.mul_le_mul_right _ element.MagicFactor.isLt.le
      have half : ((operand - element.high operand) >>> 1).toNat =
          (operand.toNat - (element.high operand).toNat) / 2 := by
        rw [BitVec.toNat_ushiftRight, Nat.shiftRight_eq_div_pow, pow_one, toNat_sub_of_le below]
      rw [if_pos rfl, BitVec.toNat_add, half, Nat.mod_eq_of_lt (by omega), high]
      exact quotient operand.toNat operand.isLt

theorem value_NPQFactor (positive : 0 < W) (element : UDIVElement W) (operand : BitVec W) :
    mulhu operand element.NPQFactor =
      if element.SelNPQ then operand >>> 1 else 0 := by
  have double := two_pow_pred positive
  have some := Nat.two_pow_pos (W - 1)
  unfold UDIVElement.NPQFactor getOneBitSet
  cases element.SelNPQ with
  | false =>
      have none : (0 : BitVec W).toNat = 0 := BitVec.toNat_ofNat 0 W
      rw [if_neg Bool.false_ne_true, if_neg Bool.false_ne_true, mulhu, none, Nat.mul_zero, Nat.zero_div]
      rfl
  | true =>
      apply BitVec.eq_of_toNat_eq
      rw [if_pos rfl, if_pos rfl, toNat_mulhu, toNat_ofNat_lt (by omega), double,
        Nat.mul_div_mul_right _ _ some, BitVec.toNat_ushiftRight, Nat.shiftRight_eq_div_pow, pow_one]

theorem fixUp_value {target : Target} {IsAfterLegalization isVector : Bool} {Q : SDNode W}
    {built : List (UDIVElement W)} (wide : 1 < W)
    (legal : target.supports IsAfterLegalization .MULHU ∨ target.supports IsAfterLegalization .UMUL_LOHI)
    (scalar : isVector = false → built.length = 1)
    (high : ∀ operand element d chosen, built[element]? = some chosen → Divides d chosen →
      Q.value operand element = some (chosen.high operand)) :
    ∃ fixed : SDNode W,
      (if built.any (·.SelNPQ) then
        (if isVector then
          highHalf target IsAfterLegalization .MULHU .UMUL_LOHI (.node .SUB .operand Q)
            (.constant (built.map (·.NPQFactor)))
        else some (.shift .SRL (.node .SUB .operand Q) (built.map fun _ => 1))).map
          fun NPQ => .node .ADD NPQ Q
      else some Q) = some fixed ∧
      ∀ operand element d chosen, built[element]? = some chosen → Divides d chosen →
        fixed.value operand element = some (chosen.fixedUp operand) := by
  by_cases selected : built.any (·.SelNPQ) = true
  · rw [if_pos selected]
    cases isVector with
    | true =>
        obtain ⟨NPQ, multiplied, product⟩ := highHalf_value mulhu (fun _ _ => rfl)
          (fun _ _ => rfl) legal (.node .SUB .operand Q) (.constant (built.map (·.NPQFactor)))
        rw [if_pos rfl, multiplied, map_some]
        refine ⟨_, rfl, fun operand element d chosen found divides => ?_⟩
        have quotient := high operand element d chosen found divides
        have difference : (SDNode.node .SUB .operand Q).value operand element =
            some (operand - chosen.high operand) := by
          rw [SDNode.value, quotient]
          rfl
        have factor : (SDNode.constant (built.map (·.NPQFactor))).value operand element =
            some chosen.NPQFactor := by
          rw [SDNode.value, getElem?_map, found, map_some]
        have masked := product operand element _ _ difference factor
        rw [value_NPQFactor (by omega)] at masked
        rw [SDNode.value, masked, quotient]
        unfold UDIVElement.fixedUp
        cases chosen.SelNPQ with
        | true => rfl
        | false =>
            rw [if_neg Bool.false_ne_true, if_neg Bool.false_ne_true]
            exact congrArg some (BitVec.zero_add _)
    | false =>
        rw [if_neg Bool.false_ne_true, map_some]
        refine ⟨_, rfl, fun operand element d chosen found divides => ?_⟩
        have quotient := high operand element d chosen found divides
        have first : chosen.SelNPQ = true := by
          obtain ⟨only, rfl⟩ := length_eq_one_iff.mp (scalar rfl)
          have same := mem_singleton.mp (mem_of_getElem? found)
          rw [same]
          rw [any_cons, any_nil, Bool.or_false] at selected
          exact selected
        simp only [SDNode.value, quotient, bind_eq_bind, bind_some, ISD.value, ISD.shifted,
          getElem?_map, found, map_some]
        rw [if_pos wide, bind_some, UDIVElement.fixedUp, first, if_pos rfl]
  · rw [if_neg selected]
    refine ⟨Q, rfl, fun operand element d chosen found divides => ?_⟩
    have unselected : chosen.SelNPQ = false := by
      cases absent : chosen.SelNPQ with
      | false => rfl
      | true => exact absurd (List.any_eq_true.mpr ⟨chosen, mem_of_getElem? found, absent⟩) selected
    rw [high operand element d chosen found divides, UDIVElement.fixedUp, unselected,
      if_neg Bool.false_ne_true]

theorem BuildUDIV_exact {rounds : Nat} {target : Target} {IsAfterLegalization : Bool} {N1 : Constant W}
    (wide : 3 ≤ W) (enough : W + 1 ≤ rounds) (typeLegal : target.isTypeLegal)
    (legal : target.supports IsAfterLegalization .MULHU ∨ target.supports IsAfterLegalization .UMUL_LOHI)
    (nonzero : ∀ d ∈ N1.elements, d ≠ 0) :
    ∃ node, BuildUDIV rounds target IsAfterLegalization N1 = some (some node) ∧
      ∀ element d, N1.elements[element]? = some d → ∀ operand,
        node.value operand element = some (operand / d) := by
  have each : ∀ d ∈ N1.elements,
      ∃ element, BuildUDIVPattern rounds d = some (some element) ∧ Divides d element := by
    intro d member
    obtain ⟨element, made, divides, _⟩ := BuildUDIVPattern_spec wide enough (nonzero d member)
    exact ⟨element, made, divides⟩
  obtain ⟨built, matched, all⟩ := matchUnaryPredicate_built each
  obtain ⟨Q, multiplied, product⟩ := highHalf_value mulhu (fun _ _ => rfl) (fun _ _ => rfl) legal
    (.shift .SRL .operand (built.map (·.PreShift))) (.constant (built.map (·.MagicFactor)))
  have high : ∀ operand element d chosen, built[element]? = some chosen → Divides d chosen →
      Q.value operand element = some (chosen.high operand) := by
    intro operand element d chosen found divides
    apply product operand element
    · simp [SDNode.value, getElem?_map, found, ISD.shifted, divides.pre]
    · rw [SDNode.value, getElem?_map, found, map_some]
  have scalar : N1.isVector = false → built.length = 1 := fun single => by
    rw [← all.length_eq]
    exact N1.scalar single
  obtain ⟨fixed, fixes, fixedValue⟩ := fixUp_value (by omega) legal scalar high
  unfold BuildUDIV
  simp only [if_pos typeLegal, matched, bind_eq_bind, bind_some, multiplied, fixes,
    map_some]
  refine ⟨_, rfl, fun element d found operand => ?_⟩
  obtain ⟨chosen, foundBuilt, divides⟩ := forall₂_getElem all found
  have value := fixedValue operand element d chosen foundBuilt divides
  simp only [SDNode.value, found, getElem?_map, foundBuilt, value, map_some, bind_eq_bind,
    bind_some, ISD.shifted, if_pos divides.post, CondCode.decides, beq_iff_eq, Option.some.injEq]
  by_cases unit : d = 1
  · rw [if_pos unit, unit]
    exact BitVec.udiv_one.symm
  · rw [if_neg unit]
    exact divides.value unit operand

end EvmBackend.TargetLowering
