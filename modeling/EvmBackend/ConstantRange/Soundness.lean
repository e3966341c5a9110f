/-
Range arithmetic over-approximates the arithmetic on numbers.

One case is lost: the signed saturating product of -1 and -1 in width 1. Its
overflow check divides the product back, which succeeds there, so the number is
-1, while the range of products is saturated in twice the width and holds 0
alone.
-/

import EvmBackend.ConstantRange.Arithmetic

namespace EvmBackend.ConstantRange

open APInt

variable {W : Nat}

inductive BinaryOp where
  | add | sub | multiply | udiv | urem | shl | lshr | ashr | binaryAnd | binaryOr
  | smax | umax | smin | umin
  | uadd_sat | sadd_sat | usub_sat | ssub_sat | umul_sat | smul_sat | ushl_sat | sshl_sat
  deriving DecidableEq, Repr

namespace BinaryOp

def range (A B : ConstantRange W) : BinaryOp → ConstantRange W
  | .add => A.add B
  | .sub => A.sub B
  | .multiply => A.multiply B
  | .udiv => A.udiv B
  | .urem => A.urem B
  | .shl => A.shl B
  | .lshr => A.lshr B
  | .ashr => A.ashr B
  | .binaryAnd => A.binaryAnd B
  | .binaryOr => A.binaryOr B
  | .smax => A.smax B
  | .umax => A.umax B
  | .smin => A.smin B
  | .umin => A.umin B
  | .uadd_sat => A.uadd_sat B
  | .sadd_sat => A.sadd_sat B
  | .usub_sat => A.usub_sat B
  | .ssub_sat => A.ssub_sat B
  | .umul_sat => A.umul_sat B
  | .smul_sat => A.smul_sat B
  | .ushl_sat => A.ushl_sat B
  | .sshl_sat => A.sshl_sat B

def concrete (x y : BitVec W) : BinaryOp → BitVec W
  | .add => x + y
  | .sub => x - y
  | .multiply => x * y
  | .udiv => x / y
  | .urem => x % y
  | .shl => x <<< y
  | .lshr => x >>> y
  | .ashr => x.sshiftRight' y
  | .binaryAnd => x &&& y
  | .binaryOr => x ||| y
  | .smax => smaxOf x y
  | .umax => umaxOf x y
  | .smin => sminOf x y
  | .umin => uminOf x y
  | .uadd_sat => APInt.uadd_sat x y
  | .sadd_sat => APInt.sadd_sat x y
  | .usub_sat => APInt.usub_sat x y
  | .ssub_sat => APInt.ssub_sat x y
  | .umul_sat => APInt.umul_sat x y
  | .smul_sat => APInt.smul_sat x y
  | .ushl_sat => APInt.ushl_sat x y
  | .sshl_sat => APInt.sshl_sat x y

/-- Divisors are not zero and shift amounts are below the width. -/
def Defined (y : BitVec W) : BinaryOp → Prop
  | .udiv | .urem => 0 < y.toNat
  | .shl | .lshr | .ashr | .ushl_sat | .sshl_sat => y.toNat < W
  | _ => True

def MissedOverflow (x y : BitVec W) (op : BinaryOp) : Prop :=
  op = .smul_sat ∧ W = 1 ∧ x = -1#W ∧ y = -1#W

end BinaryOp

theorem missed_overflow_outside (A B : ConstantRange 1) (leftMember : A.contains (-1#1) = true)
    (rightMember : B.contains (-1#1) = true) :
    (A.smul_sat B).contains (APInt.smul_sat (-1#1) (-1#1)) = false := by
  obtain ⟨lowerA, upperA⟩ := A
  obtain ⟨lowerB, upperB⟩ := B
  revert leftMember rightMember
  revert lowerA upperA lowerB upperB
  decide

theorem range_contains_concrete_iff (positive : 0 < W) {A B : ConstantRange W} {x y : BitVec W}
    (leftMember : A.contains x = true) (rightMember : B.contains y = true) (op : BinaryOp)
    (defined : op.Defined y) :
    (op.range A B).contains (op.concrete x y) = true ↔ ¬ op.MissedOverflow x y := by
  by_cases missed : op.MissedOverflow x y
  · obtain ⟨rfl, rfl, rfl, rfl⟩ := missed
    have outside := missed_overflow_outside A B leftMember rightMember
    refine iff_of_false ?_ (not_not.mpr ⟨rfl, rfl, rfl, rfl⟩)
    rw [BinaryOp.range, BinaryOp.concrete, outside]
    exact Bool.false_ne_true
  · refine iff_of_true ?_ missed
    cases op with
    | add => exact contains_add positive leftMember rightMember
    | sub => exact contains_sub positive leftMember rightMember
    | multiply => exact contains_multiply positive leftMember rightMember
    | udiv => exact contains_udiv positive leftMember rightMember defined
    | urem => exact contains_urem positive leftMember rightMember defined
    | shl => exact contains_shl positive leftMember rightMember
    | lshr => exact contains_lshr positive leftMember rightMember
    | ashr => exact contains_ashr positive leftMember rightMember
    | binaryAnd => exact contains_binaryAnd positive leftMember rightMember
    | binaryOr => exact contains_binaryOr positive leftMember rightMember
    | smax => exact contains_smax positive leftMember rightMember
    | umax => exact contains_umax positive leftMember rightMember
    | smin => exact contains_smin positive leftMember rightMember
    | umin => exact contains_umin positive leftMember rightMember
    | uadd_sat => exact contains_uadd_sat positive leftMember rightMember
    | sadd_sat => exact contains_sadd_sat positive leftMember rightMember
    | usub_sat => exact contains_usub_sat positive leftMember rightMember
    | ssub_sat => exact contains_ssub_sat positive leftMember rightMember
    | umul_sat => exact contains_umul_sat positive leftMember rightMember
    | smul_sat =>
        apply contains_saturated_product positive leftMember rightMember
        exact toInt_smul_sat positive fun noticed => missed ⟨rfl, noticed⟩
    | ushl_sat => exact contains_ushl_sat positive leftMember rightMember defined
    | sshl_sat => exact contains_sshl_sat positive leftMember rightMember defined

/-- Extension and truncation keep every member, sums and differences that are not
full are exact, and every operation keeps its results but for the missed
overflow. -/
theorem over_approximates (positive : 0 < W) (A B : ConstantRange W) :
    (∀ x y, A.contains x = true → B.contains y = true → ∀ op : BinaryOp, op.Defined y →
      ((op.range A B).contains (op.concrete x y) = true ↔ ¬ op.MissedOverflow x y)) ∧
    (∀ x, A.contains x = true → ∀ D,
      (W < D → (A.zeroExtend D).contains (x.setWidth D) = true ∧
        (A.signExtend D).contains (x.signExtend D) = true) ∧
      (0 < D → D < W → (A.truncate D).contains (x.setWidth D) = true)) ∧
    (A.Proper → B.Proper →
      (¬ (A.add B).isFullSet = true → ∀ z, (A.add B).contains z = true ↔
        ∃ x y, A.contains x = true ∧ B.contains y = true ∧ x + y = z) ∧
      (¬ (A.sub B).isFullSet = true → ∀ z, (A.sub B).contains z = true ↔
        ∃ x y, A.contains x = true ∧ B.contains y = true ∧ x - y = z)) := by
  refine ⟨?_, ?_, ?_⟩
  · intro x y leftMember rightMember op defined
    exact range_contains_concrete_iff positive leftMember rightMember op defined
  · intro x member D
    refine ⟨fun wider => ⟨contains_zeroExtend positive wider member,
      contains_signExtend positive wider member⟩, fun some narrower => ?_⟩
    exact contains_truncate some narrower member
  · intro properA properB
    constructor
    · intro notFull z
      refine ⟨exists_of_contains_add positive properA properB notFull, ?_⟩
      rintro ⟨x, y, leftMember, rightMember, rfl⟩
      exact contains_add positive leftMember rightMember
    · intro notFull z
      refine ⟨exists_of_contains_sub positive properA properB notFull, ?_⟩
      rintro ⟨x, y, leftMember, rightMember, rfl⟩
      exact contains_sub positive leftMember rightMember

/-- A range that wraps through the signed minimum, and one with the end at zero. -/
theorem over_approximates_at_four_bits :
    ((BinaryOp.smul_sat.range (⟨6, 10⟩ : ConstantRange 4) ⟨14, 0⟩).contains
      (BinaryOp.smul_sat.concrete (9 : BitVec 4) 15) = true) ∧
    ∃ x y, (⟨6, 10⟩ : ConstantRange 4).contains x = true ∧
      (⟨14, 0⟩ : ConstantRange 4).contains y = true ∧ x + y = 8 :=
  ⟨(((over_approximates (by decide) ⟨6, 10⟩ ⟨14, 0⟩).1 9 15 (by decide) (by decide) .smul_sat
      trivial).mpr fun missed => absurd missed.2.1 (by decide)),
    (((over_approximates (by decide) ⟨6, 10⟩ ⟨14, 0⟩).2.2 (by unfold Proper; decide)
      (by unfold Proper; decide)).1 (by decide) 8).mp (by decide)⟩

/-- In width 1 the set of -1 alone, multiplied with itself. -/
theorem smul_sat_loses_square_of_minus_one :
    (⟨1, 0⟩ : ConstantRange 1).contains 1 = true ∧
      (BinaryOp.smul_sat.range (⟨1, 0⟩ : ConstantRange 1) ⟨1, 0⟩).contains
        (BinaryOp.smul_sat.concrete (1 : BitVec 1) 1) = false := by
  decide

end EvmBackend.ConstantRange
