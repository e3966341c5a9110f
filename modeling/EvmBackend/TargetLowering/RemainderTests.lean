/-
The comparisons that are put in place of remainders: the bound tells the
multiples of the divisor, for every operand.
-/

import EvmBackend.APInt.Magic
import EvmBackend.TargetLowering.RemainderByConstant
import EvmBackend.Library.InverseMultiples

namespace EvmBackend.TargetLowering

open APInt InverseMultiples

variable {W : Nat}

theorem toNat_rotateRight (word : BitVec W) {amount : Nat} (below : amount < W) :
    (word.rotateRight amount).toNat = rotated W amount word.toNat := by
  have split : 2 ^ W = 2 ^ amount * 2 ^ (W - amount) := by
    rw [← pow_add, Nat.add_sub_cancel' (Nat.le_of_lt below)]
  have high : word.toNat / 2 ^ amount < 2 ^ (W - amount) :=
    Nat.div_lt_of_lt_mul (by rw [← split]; exact word.isLt)
  have low : (word.toNat <<< (W - amount)) % 2 ^ W = (word.toNat % 2 ^ amount) <<< (W - amount) := by
    rw [Nat.shiftLeft_eq, Nat.shiftLeft_eq, split, Nat.mul_mod_mul_right]
  unfold rotated
  rw [BitVec.rotateRight_def, Nat.mod_eq_of_lt below, BitVec.toNat_or, BitVec.toNat_ushiftRight,
    BitVec.toNat_shiftLeft, low, Nat.or_comm, Nat.shiftRight_eq_div_pow,
    ← Nat.shiftLeft_add_eq_or_of_lt high, Nat.shiftLeft_eq, Nat.add_comm]

theorem rotated_zero (word : BitVec W) : rotated W 0 word.toNat = word.toNat := by
  unfold rotated
  rw [pow_zero, Nat.div_one, Nat.mod_one, Nat.zero_mul, Nat.add_zero]

theorem rotateEven_value {target : Target} {even : Bool} {node rotation : SDNode W} {amount : Nat}
    {operand product : BitVec W} (below : amount < W) (whole : even = false → amount = 0)
    (built : rotateEven target even node amount = some rotation)
    (value : node.value operand 0 = some product) :
    ∃ word, rotation.value operand 0 = some word ∧ word.toNat = rotated W amount product.toNat := by
  unfold rotateEven at built
  cases even with
  | false =>
      rw [if_neg Bool.false_ne_true, Option.some.injEq] at built
      rw [← built, whole rfl, rotated_zero]
      exact ⟨product, value, rfl⟩
  | true =>
      rw [if_pos rfl] at built
      by_cases legal : target.isOperationLegalOrCustom .ROTR = true
      · rw [if_pos legal, Option.some.injEq] at built
        rw [← built, ← toNat_rotateRight product below]
        refine ⟨product.rotateRight amount, ?_, rfl⟩
        simp only [SDNode.value, value]
        rfl
      · rw [if_neg legal] at built
        cases built

theorem boundCode_decides {word bound left right : BitVec W} {Cond : CondCode}
    (equality : Cond = .SETEQ ∨ Cond = .SETNE) (agree : word.toNat ≤ bound.toNat ↔ left = right) :
    (boundCode Cond).decides word bound = Cond.decides left right := by
  rcases equality with rfl | rfl
  · change (word.ule bound) = (left == right)
    rw [Bool.eq_iff_iff, BitVec.ule_eq_decide, decide_eq_true_iff, beq_iff_eq]
    exact agree
  · change (bound.ult word) = (left != right)
    rw [Bool.eq_iff_iff, BitVec.ult_eq_decide, decide_eq_true_iff, bne_iff_ne, ← Nat.not_le]
    exact not_congr agree

/-! ### The odd part of the divisor -/

/-- The divisor is the product of a power of two and of an odd number, of which
the inverse is known. -/
structure OddPart (D : BitVec W) (K : Nat) (D0 P : BitVec W) : Prop where
  below : K < W
  split : D0.toNat * 2 ^ K = D.toNat
  odd : D0.toNat % 2 = 1
  inverse : P.toNat * D0.toNat % 2 ^ W = 1 % 2 ^ W

theorem countTrailingZeros_spec {D : BitVec W} (nonzero : D ≠ 0) :
    countTrailingZeros D < W ∧ (D >>> countTrailingZeros D).toNat * 2 ^ countTrailingZeros D = D.toNat ∧
      (D >>> countTrailingZeros D).toNat % 2 = 1 := by
  obtain ⟨below, divides, odd⟩ := trailingZeros_spec W D.toNat (toNat_ne_zero nonzero) D.isLt
  have shifted : (D >>> countTrailingZeros D).toNat = D.toNat / 2 ^ countTrailingZeros D := by
    rw [BitVec.toNat_ushiftRight, Nat.shiftRight_eq_div_pow]
  rw [shifted]
  exact ⟨below, Nat.div_mul_cancel divides, odd⟩

theorem inverseOf_sound {memory : (W : Nat) → BitVec W} {rounds : Nat} {D0 P : BitVec W}
    (found : inverseOf memory rounds D0 = some P) : P.toNat * D0.toNat % 2 ^ W = 1 % 2 ^ W := by
  unfold inverseOf at found
  simp only [Option.bind_eq_bind, Option.bind_eq_some_iff, Option.guard_eq_some'] at found
  obtain ⟨inverse, _, _, _, _, one, same⟩ := found
  rw [Option.some.inj same] at one
  have product := congrArg BitVec.toNat one
  rw [BitVec.toNat_mul, Nat.mul_comm] at product
  rw [product]
  exact BitVec.toNat_ofNat 1 W

theorem inverseOf_total (memory : (W : Nat) → BitVec W) {rounds : Nat} {D0 : BitVec W} (positive : 0 < W)
    (odd : D0.toNat % 2 = 1) (enough : D0.toNat < rounds) : ∃ P, inverseOf memory rounds D0 = some P := by
  have least : (getSignedMinValue (W + 1)).toNat = 2 ^ W := by
    unfold getSignedMinValue
    rw [BitVec.toNat_intMin_of_pos (Nat.succ_pos W), Nat.succ_sub_one]
  have wide : (D0.setWidth (W + 1)).toNat = D0.toNat := by
    rw [BitVec.toNat_setWidth, Nat.mod_eq_of_lt]
    exact D0.isLt.trans (Nat.pow_lt_pow_succ (by omega))
  have coprime : D0.toNat.gcd (2 ^ W) = 1 := by
    apply Nat.Coprime.pow_right
    rw [Nat.coprime_two_right, Nat.odd_iff]
    exact odd
  have two : 1 < 2 ^ W := Nat.one_lt_two_pow (by omega)
  obtain ⟨inverse, computed, exact, _⟩ := multiplicativeInverse_spec memory
    (BitVec.lt_def.mpr (by rw [wide, least]; exact D0.isLt) :
      D0.setWidth (W + 1) < getSignedMinValue (W + 1)) (by rw [wide]; exact enough)
  rw [wide, least] at exact
  obtain ⟨_, product⟩ := exact coprime two
  have one : D0 * inverse.setWidth W = 1 := by
    apply BitVec.eq_of_toNat_eq
    rw [BitVec.toNat_mul, BitVec.toNat_setWidth, Nat.mul_mod_mod, product]
    exact (Nat.mod_eq_of_lt two).symm
  have some : inverse.setWidth W ≠ 0 := by
    intro zero
    have none : (D0 * inverse.setWidth W).toNat = 0 := by
      rw [zero, BitVec.toNat_mul]
      exact Nat.zero_mod _
    have value : (1 : BitVec W).toNat = 1 := Nat.mod_eq_of_lt two
    rw [one, value] at none
    cases none
  refine ⟨inverse.setWidth W, ?_⟩
  unfold inverseOf
  simp only [computed, Option.bind_eq_bind, Option.bind_some, (Option.guard_eq_some' ()).mpr some,
    (Option.guard_eq_some' ()).mpr one]

theorem countTrailingZeros_one (D : BitVec W) : D ≠ 1 ∨ countTrailingZeros D = 0 := by
  by_cases one : D = 1
  · right
    unfold countTrailingZeros
    rw [one]
    cases W with
    | zero => rfl
    | succ bits =>
        have value : (1 : BitVec (bits + 1)).toNat = 1 := Nat.mod_eq_of_lt (Nat.one_lt_two_pow (by omega))
        rw [value, trailingZeros, if_pos rfl]
  · exact .inl one

theorem bind_total {First Second : Type} {step : Option First} {rest : First → Option Second} {first : First}
    (computed : step = some first) (total : ∃ second, rest first = some second) :
    ∃ second, step.bind rest = some second := by
  rw [computed, Option.bind_some]
  exact total

section Unsigned

variable {memory : (W : Nat) → BitVec W} {rounds ShBits : Nat} {target : Target}
  {D Cmp D0 P : BitVec W} {Cond : CondCode}

def boundFor (D Cmp : BitVec W) : BitVec W :=
  if getMaxValue W % D < Cmp then getMaxValue W / D - 1 else getMaxValue W / D

theorem toNat_boundFor (less : Cmp < D) :
    (boundFor D Cmp).toNat = lastFactor (2 ^ W - 1) D.toNat Cmp.toNat := by
  have below := BitVec.lt_def.mp less
  have once : 1 ≤ (2 ^ W - 1) / D.toNat := (Nat.one_le_div_iff (by omega)).mpr (by omega)
  have quotient : (getMaxValue W / D).toNat = (2 ^ W - 1) / D.toNat := by
    rw [BitVec.toNat_udiv, toNat_getMaxValue]
  have rest : getMaxValue W % D < Cmp ↔ (2 ^ W - 1) % D.toNat < Cmp.toNat := by
    rw [BitVec.lt_def, BitVec.toNat_umod, toNat_getMaxValue]
  unfold boundFor lastFactor
  by_cases short : (2 ^ W - 1) % D.toNat < Cmp.toNat
  · have two : 1 < 2 ^ W := by omega
    have one : (1 : BitVec W).toNat = 1 := Nat.mod_eq_of_lt two
    rw [if_pos (rest.mpr short), if_pos short, BitVec.toNat_sub_of_le, quotient, one]
    rw [BitVec.le_def, one, quotient]
    exact once
  · rw [if_neg (mt rest.mp short), if_neg short, quotient]

def lessConstant (Cmp : BitVec W) : SDNode W :=
  if Cmp ≠ 0 then .node .SUB .operand (.constant [Cmp]) else .operand

theorem lessConstant_value (Cmp operand : BitVec W) :
    (lessConstant Cmp).value operand 0 = some (operand - Cmp) := by
  unfold lessConstant
  by_cases zero : Cmp = 0
  · rw [if_neg (not_not.mpr zero), zero]
    exact congrArg some (BitVec.sub_zero operand).symm
  · rw [if_pos zero]
    rfl

theorem OddPart.positive (part : OddPart D K D0 P) : 0 < D0.toNat := by
  have odd := part.odd
  omega

theorem OddPart.ne_zero (part : OddPart D K D0 P) : D0 ≠ 0 := by
  intro zero
  have positive := part.positive
  rw [zero] at positive
  exact absurd positive (by simp)

theorem OddPart.tests_remainder (part : OddPart D K D0 P) (less : Cmp < D) (operand : BitVec W) :
    rotated W K ((operand - Cmp) * P).toNat ≤ (boundFor D Cmp).toNat ↔ operand % D = Cmp := by
  have below := BitVec.lt_def.mp less
  rw [toNat_boundFor less, BitVec.toNat_mul, BitVec.toNat_sub, ← part.split,
    mod_eq_iff (Nat.le_of_lt part.below) part.inverse part.positive operand.isLt
      (by rw [part.split]; exact below) (by rw [part.split]; omega),
    part.split, ← BitVec.toNat_umod, BitVec.toNat_inj]

theorem OddPart.test_value (part : OddPart D K D0 P) (less : Cmp < D) (equality : Cond = .SETEQ ∨ Cond = .SETNE)
    {even : Bool} (whole : even = false → K = 0) {rotation : SDNode W}
    (built : rotateEven target even (.node .MUL (lessConstant Cmp) (.constant [P])) K = some rotation)
    (operand : BitVec W) :
    (SetCC.mk rotation (.constant [boundFor D Cmp]) (boundCode Cond)).value operand 0 =
      some (Cond.decides (operand % D) Cmp) := by
  have product : (SDNode.node .MUL (lessConstant Cmp) (.constant [P])).value operand 0 =
      some ((operand - Cmp) * P) := by
    simp only [SDNode.value, lessConstant_value]
    rfl
  obtain ⟨word, value, rotates⟩ := rotateEven_value part.below whole built product
  have agree := part.tests_remainder less operand
  rw [← rotates] at agree
  rw [← boundCode_decides equality agree]
  simp only [SetCC.value, value]
  rfl

theorem udivrem_fold (memory : (W : Nat) → BitVec W) {D : BitVec W} (nonzero : D ≠ 0) :
    ∃ after, udivrem memory .allOnes .D .Q .R (foldVariables D) = some after ∧
      BitVec.ofNat W (after .Q).value = getMaxValue W / D ∧
        (after .R).value = (getMaxValue W % D).toNat := by
  have isL : foldVariables D .allOnes = ⟨W, getMaxValue W⟩ := rfl
  have isR : foldVariables D .D = ⟨W, D⟩ := rfl
  obtain ⟨after, done, results⟩ := udivrem_spec memory isL isR nonzero
    (by decide : FoldVariable.Q ≠ .R) (by decide) (by decide) (by decide)
  refine ⟨after, done, ?_, ?_⟩
  · rw [results.quotient]
    exact (BitVec.ofNat_toNat ..).trans (BitVec.setWidth_eq _)
  · rw [results.remainder]
    rfl

theorem prepareUREMEqFold_sound {test : SetCC W}
    (found : prepareUREMEqFold memory rounds target ShBits D Cmp Cond = some (some test))
    (operand : BitVec W) : test.value operand 0 = some (Cond.decides (operand % D) Cmp) := by
  unfold prepareUREMEqFold at found
  simp only [Option.bind_eq_bind, Option.bind_eq_some_iff, Option.guard_eq_some'] at found
  obtain ⟨_, equality, found⟩ := found
  split at found
  · cases found
  · split at found
    · cases found
    · rename_i nonzero
      simp only [Option.bind_eq_some_iff, Option.guard_eq_some'] at found
      obtain ⟨_, _, P, inverse, after, divided, _, _, found⟩ := found
      split at found
      · cases found
      · rename_i lane
        split at found
        · cases found
        · split at found
          · cases found
          · split at found
            · cases found
            · rename_i rotation built
              simp only [Option.some.injEq] at found
              obtain ⟨below, split, odd⟩ := countTrailingZeros_spec nonzero
              obtain ⟨expected, same, quotient, rest⟩ := udivrem_fold memory nonzero
              obtain rfl : after = expected := Option.some.inj (divided.symm.trans same)
              have part : OddPart D (countTrailingZeros D) (D >>> countTrailingZeros D) P :=
                ⟨below, split, odd, inverseOf_sound inverse⟩
              have less : Cmp < D := by
                rw [Bool.or_eq_true, not_or, decide_eq_true_iff] at lane
                exact BitVec.not_le.mp lane.2
              have bound : (if (after .R).value < Cmp.toNat then BitVec.ofNat W (after .Q).value - 1
                  else BitVec.ofNat W (after .Q).value) = boundFor D Cmp := by
                rw [quotient, rest]
                rfl
              rw [← found, bound]
              exact part.test_value less equality (by simp) built operand

theorem prepareUREMEqFold_total (equality : Cond = .SETEQ ∨ Cond = .SETNE) (amounts : W < 2 ^ ShBits)
    (enough : 2 ^ W ≤ rounds) :
    ∃ fold, prepareUREMEqFold memory rounds target ShBits D Cmp Cond = some fold := by
  unfold prepareUREMEqFold
  refine bind_total ((Option.guard_eq_some' ()).mpr equality) ?_
  split
  · exact ⟨_, rfl⟩
  · split
    · exact ⟨_, rfl⟩
    · rename_i nonzero
      obtain ⟨below, split, odd⟩ := countTrailingZeros_spec nonzero
      have fits : countTrailingZeros D < 2 ^ ShBits - 1 := by omega
      obtain ⟨P, inverse⟩ := inverseOf_total memory (by omega : 0 < W) odd
        (Nat.lt_of_lt_of_le (BitVec.isLt _) enough)
      refine bind_total ((Option.guard_eq_some' ()).mpr (countTrailingZeros_one D)) ?_
      refine bind_total inverse ?_
      obtain ⟨after, divided, _⟩ := udivrem_fold memory nonzero
      refine bind_total divided ?_
      refine bind_total ((Option.guard_eq_some' ()).mpr fits) ?_
      split
      · exact ⟨_, rfl⟩
      · split
        · exact ⟨_, rfl⟩
        · split
          · exact ⟨_, rfl⟩
          · dsimp only
            generalize rotateEven target _ _ _ = rotated
            cases rotated with
            | none | some => exact ⟨_, rfl⟩

end Unsigned

section Signed

variable {memory : (W : Nat) → BitVec W} {rounds ShBits : Nat} {target : Target}
  {C CompTarget D D0 P : BitVec W} {Cond : CondCode} {K : Nat}

theorem toNat_clearLowBits (value : BitVec W) {loBits : Nat} (below : loBits ≤ W) :
    (clearLowBits value loBits).toNat = value.toNat / 2 ^ loBits * 2 ^ loBits := by
  have shifted : clearLowBits value loBits = (value >>> loBits) <<< loBits := by
    unfold clearLowBits getHighBitsSet getLowBitsSet
    rw [Nat.sub_sub_self below]
    apply BitVec.eq_of_getLsbD_eq
    intro bit inside
    rw [BitVec.getLsbD_and, BitVec.getLsbD_not, BitVec.getLsbD_ofNat, Nat.testBit_two_pow_sub_one,
      BitVec.getLsbD_shiftLeft, BitVec.getLsbD_ushiftRight, decide_eq_true inside]
    by_cases low : bit < loBits
    · simp [low]
    · rw [decide_eq_false low, Nat.add_sub_cancel' (Nat.le_of_not_lt low)]
      simp
  rw [shifted, BitVec.toNat_shiftLeft, BitVec.toNat_ushiftRight, Nat.shiftRight_eq_div_pow,
    Nat.shiftLeft_eq, Nat.mod_eq_of_lt]
  exact (Nat.div_mul_le_self _ _).trans_lt value.isLt

theorem OddPart.not_dvd (part : OddPart D K D0 P) (other : D0 ≠ 1) : ¬ D.toNat ∣ 2 ^ (W - 1) := by
  intro divides
  have positive := part.below
  have two : 1 < 2 ^ W := Nat.one_lt_two_pow (by omega)
  have whole : D0.toNat ∣ 2 ^ (W - 1) := (Dvd.intro _ part.split).trans divides
  have coprime : D0.toNat.Coprime (2 ^ (W - 1)) := by
    apply Nat.Coprime.pow_right
    rw [Nat.coprime_two_right, Nat.odd_iff]
    exact part.odd
  apply other
  apply BitVec.eq_of_toNat_eq
  rw [coprime.eq_one_of_dvd whole]
  exact (Nat.mod_eq_of_lt two).symm

theorem OddPart.toNat_offset (part : OddPart D K D0 P) :
    (clearLowBits (getSignedMaxValue W / D0) K).toNat = (2 ^ (W - 1) - 1) / D.toNat * 2 ^ K := by
  rw [toNat_clearLowBits _ (Nat.le_of_lt part.below), BitVec.toNat_udiv, Nat.div_div_eq_div_mul, part.split]
  unfold getSignedMaxValue
  rw [BitVec.toNat_intMax]

theorem srem_eq_zero_iff (left right : BitVec W) : left.srem right = 0 ↔ right.toInt ∣ left.toInt := by
  rw [← BitVec.toInt_inj, BitVec.toInt_srem]
  have zero : (0 : BitVec W).toInt = 0 := BitVec.toInt_zero
  rw [zero]
  exact Int.dvd_iff_tmod_eq_zero.symm

theorem abs_dvd_iff (value : Int) (C : BitVec W) : ((abs C).toNat : Int) ∣ value ↔ C.toInt ∣ value := by
  rw [toNat_abs]
  exact Int.natAbs_dvd

theorem abs_ne_zero (nonzero : C ≠ 0) : abs C ≠ 0 := by
  intro zero
  have value : (abs C).toNat = 0 := by
    rw [zero]
    exact BitVec.toNat_ofNat 0 W
  rw [toNat_abs] at value
  exact nonzero (BitVec.eq_of_toInt_eq ((Int.natAbs_eq_zero.mp value).trans BitVec.toInt_zero.symm))

theorem OddPart.tests_multiple (part : OddPart D K D0 P) (other : D0 ≠ 1) (operand : BitVec W)
    {A : BitVec W} (offset : A.toNat = (2 ^ (W - 1) - 1) / D.toNat * 2 ^ K) :
    rotated W K (operand * P + A).toNat ≤ 2 * ((2 ^ (W - 1) - 1) / D.toNat) ↔
      (D.toNat : Int) ∣ operand.toInt := by
  have positive := part.below
  have width := two_pow_pred (by omega : 0 < W)
  obtain ⟨low, high⟩ := toInt_bounds operand
  have some : 0 < D.toNat := by
    rw [← part.split]
    exact Nat.mul_pos part.positive (Nat.two_pow_pos K)
  rw [← shifted_multiple_iff some low high (part.not_dvd other)]
  have most := Nat.div_mul_le_self (2 ^ (W - 1) - 1) D.toNat
  generalize (2 ^ (W - 1) - 1) / D.toNat = last at offset most ⊢
  have product : (operand * P + A).toNat = (operand.toNat + last * D.toNat) % 2 ^ W * P.toNat % 2 ^ W := by
    have multiple : last * D.toNat * P.toNat = last * 2 ^ K * (P.toNat * D0.toNat) := by
      rw [← part.split]
      ring
    have unit : last * D.toNat * P.toNat % 2 ^ W = last * 2 ^ K % 2 ^ W := by
      rw [multiple, Nat.mul_mod, part.inverse, ← Nat.mul_mod, Nat.mul_one]
    rw [BitVec.toNat_add, BitVec.toNat_mul, offset, Nat.mod_mul_mod, Nat.add_mul,
      Nat.add_mod _ (last * D.toNat * P.toNat), unit, ← Nat.add_mod, Nat.mod_add_mod]
  have word : operand.toInt % (2 ^ W : Nat) = operand.toNat := by
    rw [BitVec.toInt_eq_toNat_bmod, Int.bmod_emod, ← Int.natCast_emod, Nat.mod_eq_of_lt operand.isLt]
  have moved : (operand.toInt + (last * D.toNat : Nat)) % (2 * 2 ^ (W - 1) : Nat) =
      ((operand.toNat + last * D.toNat) % 2 ^ W : Nat) := by
    rw [← width, ← Int.emod_add_emod, word]
    push_cast
    rfl
  rw [product, ← part.split, rotated_le_iff (Nat.le_of_lt part.below) part.inverse
    (Nat.mod_lt _ (Nat.two_pow_pos W)) (by rw [part.split, Nat.mul_assoc]; omega) part.positive,
    part.split, moved]
  simp only [Int.natCast_inj]

theorem offset_value {applied : Bool} {A : BitVec W} (none : applied = false → A = 0) (operand : BitVec W) :
    (if applied then SDNode.node .ADD (.node .MUL .operand (.constant [P])) (.constant [A])
      else SDNode.node .MUL .operand (.constant [P])).value operand 0 = some (operand * P + A) := by
  cases applied with
  | false =>
      rw [if_neg Bool.false_ne_true, none rfl]
      exact congrArg some (BitVec.add_zero (operand * P)).symm
  | true => rfl

theorem OddPart.not_minSigned (part : OddPart D K D0 P) (other : D0 ≠ 1) : isMinSignedValue D = false := by
  have positive := part.below
  unfold isMinSignedValue
  rw [beq_eq_false_iff_ne]
  intro least
  apply part.not_dvd other
  rw [least, getSignedMinValue, BitVec.toNat_intMin_of_pos (by omega)]

theorem toNat_getOneBitSet {bit : Nat} (below : bit < W) : (getOneBitSet W bit).toNat = 2 ^ bit := by
  unfold getOneBitSet
  rw [BitVec.toNat_ofNat, Nat.mod_eq_of_lt (Nat.pow_lt_pow_right (by omega) below)]

theorem getOneBitSet_ne_zero {bit : Nat} (below : bit < W) : getOneBitSet W bit ≠ 0 := by
  intro zero
  have value := toNat_getOneBitSet below
  rw [zero] at value
  have positive := Nat.two_pow_pos bit
  have none : (0 : BitVec W).toNat = 0 := BitVec.toNat_ofNat 0 W
  omega

theorem OddPart.offset_le (part : OddPart D K D0 P) :
    (2 ^ (W - 1) - 1) / D.toNat * 2 ^ K ≤ 2 ^ (W - 1) - 1 := by
  have power := Nat.le_mul_of_pos_left (2 ^ K) part.positive
  rw [part.split] at power
  exact (Nat.mul_le_mul_left _ power).trans (Nat.div_mul_le_self ..)

theorem OddPart.offset_small (part : OddPart D K D0 P) :
    clearLowBits (getSignedMaxValue W / D0) K < getMaxValue W := by
  have below := part.below
  have width := two_pow_pred (by omega : 0 < W)
  have positive := Nat.two_pow_pos (W - 1)
  have small := part.offset_le
  rw [BitVec.lt_def, toNat_getMaxValue, part.toNat_offset]
  omega

theorem OddPart.toNat_bound (part : OddPart D K D0 P) {A : BitVec W}
    (offset : A.toNat = (2 ^ (W - 1) - 1) / D.toNat * 2 ^ K) :
    (2 * A / getOneBitSet W K).toNat = 2 * ((2 ^ (W - 1) - 1) / D.toNat) := by
  have below := part.below
  have width := two_pow_pred (by omega : 0 < W)
  have two : (2 * A).toNat = 2 * A.toNat := by
    have small := part.offset_le
    have positive := Nat.two_pow_pos (W - 1)
    have value : (2 : BitVec W).toNat = 2 % 2 ^ W := BitVec.toNat_ofNat 2 W
    rw [BitVec.toNat_mul, value, Nat.mod_mul_mod, Nat.mod_eq_of_lt (by omega)]
  rw [BitVec.toNat_udiv, toNat_getOneBitSet below, two, offset, ← Nat.mul_assoc,
    Nat.mul_div_cancel _ (Nat.two_pow_pos K)]

theorem foldByMagnitude_sound {test : SetCC W} (equality : Cond = .SETEQ ∨ Cond = .SETNE)
    (nonzero : C ≠ 0) (found : foldByMagnitude memory rounds target ShBits (abs C) Cond = some (some test))
    (operand : BitVec W) : test.value operand 0 = some (Cond.decides (operand.srem C) 0) := by
  have some := abs_ne_zero nonzero
  unfold foldByMagnitude at found
  obtain ⟨_, _, found⟩ := Option.bind_eq_some_iff.mp found
  obtain ⟨P, inverse, found⟩ := Option.bind_eq_some_iff.mp found
  obtain ⟨quotient, divided, found⟩ := Option.bind_eq_some_iff.mp found
  obtain ⟨Q, bound, found⟩ := Option.bind_eq_some_iff.mp found
  obtain ⟨_, _, found⟩ := Option.bind_eq_some_iff.mp found
  obtain ⟨_, _, found⟩ := Option.bind_eq_some_iff.mp found
  obtain ⟨below, split, odd⟩ := countTrailingZeros_spec some
  have part : OddPart (abs C) (countTrailingZeros (abs C)) (abs C >>> countTrailingZeros (abs C)) P :=
    ⟨below, split, odd, inverseOf_sound inverse⟩
  generalize countTrailingZeros (abs C) = K at part found divided bound
  generalize abs C >>> K = D0 at part found divided bound
  split at found
  · cases found
  · split at found
    · cases found
    · rename_i other
      dsimp only at found
      rw [part.not_minSigned other] at found
      split at found
      · cases found
      · split at found
        · cases found
        · rename_i rotation built
          rw [if_neg Bool.false_ne_true, Option.some.injEq, Option.some.injEq] at found
          rw [udiv_eq part.ne_zero, Option.some.injEq] at divided
          rw [udiv_eq (getOneBitSet_ne_zero part.below), Option.some.injEq] at bound
          have offset := part.toNat_offset
          rw [divided] at offset
          have most := part.toNat_bound offset
          rw [bound] at most
          obtain ⟨word, value, rotates⟩ := rotateEven_value part.below (by simp) built
            (offset_value (by simp) operand)
          have agree := part.tests_multiple other operand offset
          rw [← rotates, ← most, abs_dvd_iff, ← srem_eq_zero_iff] at agree
          rw [← found, ← boundCode_decides equality agree]
          simp only [SetCC.value, value]
          rfl

theorem prepareSREMEqFold_sound {test : SetCC W}
    (found : prepareSREMEqFold memory rounds target ShBits C CompTarget Cond = some (some test)) :
    CompTarget = 0 ∧ ∀ operand, test.value operand 0 = some (Cond.decides (operand.srem C) 0) := by
  unfold prepareSREMEqFold at found
  obtain ⟨_, equality, found⟩ := Option.bind_eq_some_iff.mp found
  rw [Option.guard_eq_some'] at equality
  split at found
  · cases found
  · split at found
    · cases found
    · rename_i zero
      split at found
      · cases found
      · rename_i nonzero
        exact ⟨not_not.mp zero, foldByMagnitude_sound equality nonzero found⟩

theorem foldByMagnitude_total (nonzero : D ≠ 0) (amounts : W < 2 ^ ShBits) (enough : 2 ^ W ≤ rounds) :
    ∃ fold, foldByMagnitude memory rounds target ShBits D Cond = some fold := by
  obtain ⟨below, split, odd⟩ := countTrailingZeros_spec nonzero
  have fits : countTrailingZeros D < 2 ^ ShBits - 1 := by omega
  obtain ⟨P, inverse⟩ := inverseOf_total memory (by omega : 0 < W) odd
    (Nat.lt_of_lt_of_le (BitVec.isLt _) enough)
  have part : OddPart D (countTrailingZeros D) (D >>> countTrailingZeros D) P :=
    ⟨below, split, odd, inverseOf_sound inverse⟩
  unfold foldByMagnitude
  refine bind_total ((Option.guard_eq_some' ()).mpr (countTrailingZeros_one D)) ?_
  refine bind_total inverse ?_
  refine bind_total (udiv_eq part.ne_zero) ?_
  refine bind_total (udiv_eq (getOneBitSet_ne_zero below)) ?_
  refine bind_total ((Option.guard_eq_some' ()).mpr part.offset_small) ?_
  refine bind_total ((Option.guard_eq_some' ()).mpr fits) ?_
  split
  · exact ⟨_, rfl⟩
  · split
    · exact ⟨_, rfl⟩
    · rename_i other
      dsimp only
      rw [part.not_minSigned other]
      split
      · exact ⟨_, rfl⟩
      · generalize rotateEven target _ _ _ = rotated
        cases rotated with
        | none | some => exact ⟨_, rfl⟩

theorem prepareSREMEqFold_total (equality : Cond = .SETEQ ∨ Cond = .SETNE) (amounts : W < 2 ^ ShBits)
    (enough : 2 ^ W ≤ rounds) :
    ∃ fold, prepareSREMEqFold memory rounds target ShBits C CompTarget Cond = some fold := by
  unfold prepareSREMEqFold
  refine bind_total ((Option.guard_eq_some' ()).mpr equality) ?_
  split
  · exact ⟨_, rfl⟩
  · split
    · exact ⟨_, rfl⟩
    · split
      · exact ⟨_, rfl⟩
      · rename_i nonzero
        exact foldByMagnitude_total (abs_ne_zero nonzero) amounts enough

end Signed

/-- A comparison that is produced decides the remainder, for every operand, and
with enough rounds no assertion fails. -/
theorem remainderFolds_sound (memory : (W : Nat) → BitVec W) (target : Target) (rounds ShBits W : Nat) :
    (∀ (D Cmp : BitVec W) (Cond : CondCode) (test : SetCC W),
      prepareUREMEqFold memory rounds target ShBits D Cmp Cond = some (some test) →
        ∀ N, test.value N 0 = some (Cond.decides (N % D) Cmp)) ∧
    (∀ (C CompTarget : BitVec W) (Cond : CondCode) (test : SetCC W),
      prepareSREMEqFold memory rounds target ShBits C CompTarget Cond = some (some test) →
        CompTarget = 0 ∧ ∀ N, test.value N 0 = some (Cond.decides (N.srem C) 0)) ∧
    ∀ Cond, Cond = CondCode.SETEQ ∨ Cond = .SETNE → W < 2 ^ ShBits → 2 ^ W ≤ rounds →
      (∀ D Cmp : BitVec W, ∃ fold, prepareUREMEqFold memory rounds target ShBits D Cmp Cond = some fold) ∧
      ∀ C CompTarget : BitVec W, ∃ fold,
        prepareSREMEqFold memory rounds target ShBits C CompTarget Cond = some fold := by
  refine ⟨fun D Cmp Cond test found => prepareUREMEqFold_sound found,
    fun C CompTarget Cond test found => prepareSREMEqFold_sound found, ?_⟩
  intro Cond equality amounts enough
  constructor
  · intro D Cmp
    exact prepareUREMEqFold_total equality amounts enough
  · intro C CompTarget
    exact prepareSREMEqFold_total equality amounts enough

/-- Six is even: the product is rotated, and for a signed remainder moved up before. -/
theorem bySix_remainders :
    (∃ test, prepareUREMEqFold (fun _ => 0) 7 everythingLegal 4 (6 : BitVec 8) 2 .SETEQ = some (some test) ∧
      ∀ N, test.value N 0 = some (N % 6 == 2)) ∧
    ∃ test, prepareSREMEqFold (fun _ => 0) 7 everythingLegal 4 (-6 : BitVec 8) 0 .SETNE = some (some test) ∧
      ∀ N, test.value N 0 = some (N.srem (-6) != 0) := by
  have sound := remainderFolds_sound (fun _ => 0) everythingLegal 7 4 8
  constructor
  · refine ⟨⟨.shift .ROTR (.node .MUL (.node .SUB .operand (.constant [2])) (.constant [171])) [1],
      .constant [42], .SETULE⟩, by decide +kernel, ?_⟩
    exact sound.1 6 2 .SETEQ _ (by decide +kernel)
  · refine ⟨⟨.shift .ROTR (.node .ADD (.node .MUL .operand (.constant [171])) (.constant [42])) [1],
      .constant [42], .SETUGT⟩, by decide +kernel, ?_⟩
    exact (sound.2.1 (-6) 0 .SETNE _ (by decide +kernel)).2

end EvmBackend.TargetLowering
