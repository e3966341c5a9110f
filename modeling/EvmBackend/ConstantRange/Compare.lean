/-
The range of the values that compare with some value of a range or with all of
them, the comparison that a range stands for, and the range of the values with
some bits known.
-/

import EvmBackend.ConstantRange.Hulls
import EvmBackend.KnownBits.Sums

namespace EvmBackend

open APInt Arcs

inductive CmpPredicate where
  | ICMP_EQ
  | ICMP_NE
  | ICMP_UGT
  | ICMP_UGE
  | ICMP_ULT
  | ICMP_ULE
  | ICMP_SGT
  | ICMP_SGE
  | ICMP_SLT
  | ICMP_SLE
  deriving DecidableEq, Repr

namespace CmpPredicate

variable {W : Nat}

def getInversePredicate : CmpPredicate → CmpPredicate
  | ICMP_EQ => ICMP_NE
  | ICMP_NE => ICMP_EQ
  | ICMP_UGT => ICMP_ULE
  | ICMP_ULT => ICMP_UGE
  | ICMP_UGE => ICMP_ULT
  | ICMP_ULE => ICMP_UGT
  | ICMP_SGT => ICMP_SLE
  | ICMP_SLT => ICMP_SGE
  | ICMP_SGE => ICMP_SLT
  | ICMP_SLE => ICMP_SGT

def Holds (left right : BitVec W) : CmpPredicate → Prop
  | ICMP_EQ => left = right
  | ICMP_NE => left ≠ right
  | ICMP_UGT => right.toNat < left.toNat
  | ICMP_UGE => right.toNat ≤ left.toNat
  | ICMP_ULT => left.toNat < right.toNat
  | ICMP_ULE => left.toNat ≤ right.toNat
  | ICMP_SGT => right.toInt < left.toInt
  | ICMP_SGE => right.toInt ≤ left.toInt
  | ICMP_SLT => left.toInt < right.toInt
  | ICMP_SLE => left.toInt ≤ right.toInt

theorem holds_getInversePredicate (left right : BitVec W) (pred : CmpPredicate) :
    pred.getInversePredicate.Holds left right ↔ ¬ pred.Holds left right := by
  cases pred <;> simp [getInversePredicate, Holds]

end CmpPredicate

namespace KnownBits

variable {W : Nat} (known : KnownBits W)

def isUnknown : Bool := known.zero == 0 && known.one == 0

def signedMinValue : BitVec W := known.getMinValue ||| getSignedMinValue W

def signedMaxValue : BitVec W := known.getMaxValue &&& ~~~ getSignedMinValue W

/-! ### Bounds from known bits -/

theorem toNat_le_of_bits {left right : BitVec W} (bits : ∀ i, left.getLsbD i = true → right.getLsbD i = true) :
    left.toNat ≤ right.toNat := by
  have both : left &&& right = left := by
    apply BitVec.eq_of_getLsbD_eq
    intro i _
    rw [BitVec.getLsbD_and]
    cases bit : left.getLsbD i with
    | false => rw [Bool.false_and]
    | true => rw [bits i bit, Bool.true_and]
  rw [← both, BitVec.toNat_and]
  exact Nat.and_le_right

theorem Compatible.bounds {known : KnownBits W} {value : BitVec W} (compatible : known.Compatible value) :
    known.one.toNat ≤ value.toNat ∧ value.toNat + known.zero.toNat < 2 ^ W := by
  constructor
  · exact toNat_le_of_bits fun i => (compatible i).2
  · have free : value.toNat ≤ (~~~ known.zero).toNat := by
      apply toNat_le_of_bits
      intro i set
      have inside := BitVec.lt_of_getLsbD set
      rw [BitVec.getLsbD_not, decide_eq_true inside, Bool.true_and, Bool.not_eq_true']
      by_contra zero
      rw [Bool.not_eq_false] at zero
      rw [(compatible i).1 zero] at set
      cases set
    have limit := known.zero.isLt
    rw [BitVec.toNat_not] at free
    omega

theorem toNat_of_not_isUnknown {known : KnownBits W} (some : ¬ known.isUnknown = true) :
    0 < known.zero.toNat ∨ 0 < known.one.toNat := by
  by_contra none
  apply some
  rw [KnownBits.isUnknown, Bool.and_eq_true, beq_iff_eq, beq_iff_eq]
  constructor
  · exact BitVec.eq_of_toNat_eq (by rw [BitVec.ofNat_eq_ofNat, BitVec.toNat_ofNat, Nat.zero_mod]; omega)
  · exact BitVec.eq_of_toNat_eq (by rw [BitVec.ofNat_eq_ofNat, BitVec.toNat_ofNat, Nat.zero_mod]; omega)

theorem toNat_setSignBit (positive : 0 < W) {bits : BitVec W} (clear : bits.msb = false) :
    (bits ||| getSignedMinValue W).toNat = bits.toNat + 2 ^ (W - 1) := by
  rw [BitVec.msb_eq_decide, decide_eq_false_iff_not] at clear
  have whole := Nat.two_pow_add_eq_or_of_lt (i := W - 1) (b := bits.toNat) (by omega) 1
  rw [BitVec.toNat_or, getSignedMinValue, BitVec.toNat_intMin_of_pos positive, Nat.or_comm]
  rw [Nat.mul_one] at whole
  omega

theorem toNat_clearSignBit (positive : 0 < W) {bits : BitVec W} (set : bits.msb = true) :
    (bits &&& ~~~ getSignedMinValue W).toNat + 2 ^ (W - 1) = bits.toNat := by
  have back : (bits &&& ~~~ getSignedMinValue W) ||| getSignedMinValue W = bits := by
    apply BitVec.eq_of_getLsbD_eq
    intro i inside
    rw [BitVec.getLsbD_or, BitVec.getLsbD_and, BitVec.getLsbD_not, getSignedMinValue, BitVec.getLsbD_intMin,
      decide_eq_true inside, Bool.true_and]
    by_cases top : i + 1 = W
    · rw [decide_eq_true top, Bool.or_true]
      rw [BitVec.msb_eq_getLsbD_last, show W - 1 = i by omega] at set
      exact set.symm
    · rw [decide_eq_false top, Bool.not_false, Bool.and_true, Bool.or_false]
  have clear : (bits &&& ~~~ getSignedMinValue W).msb = false := by
    rw [BitVec.msb_and, BitVec.msb_not, getSignedMinValue, BitVec.msb_intMin, decide_eq_true positive]
    simp
  rw [← toNat_setSignBit positive clear, back]

end KnownBits

namespace ConstantRange

open CmpPredicate

variable {W : Nat}

def ofValue (value : BitVec W) : ConstantRange W := ⟨value, value + 1⟩

def fromKnownBits (known : KnownBits W) (isSigned : Bool) : Option (ConstantRange W) := do
  guard (!known.hasConflict)
  if known.isUnknown then some (getFull W)
  else if !isSigned || known.isNegative || known.isNonNegative then
    create known.getMinValue (known.getMaxValue + 1)
  else create known.signedMinValue (known.signedMaxValue + 1)

def getSingleElement (range : ConstantRange W) : Option (BitVec W) :=
  if range.Upper = range.Lower + 1 then some range.Lower else none

def getSingleMissingElement (range : ConstantRange W) : Option (BitVec W) :=
  if range.Lower = range.Upper + 1 then some range.Upper else none

def isSingleElement (range : ConstantRange W) : Bool := range.getSingleElement.isSome

def makeAllowedICmpRegion (pred : CmpPredicate) (range : ConstantRange W) : Option (ConstantRange W) :=
  if range.isEmptySet then some range
  else match pred with
    | ICMP_EQ => some range
    | ICMP_NE => if range.isSingleElement then create range.Upper range.Lower else some (getFull W)
    | ICMP_ULT =>
        if range.getUnsignedMax = 0 then some (getEmpty W) else create 0 range.getUnsignedMax
    | ICMP_SLT =>
        if isMinSignedValue range.getSignedMax then some (getEmpty W)
        else create (getSignedMinValue W) range.getSignedMax
    | ICMP_ULE => some (getNonEmpty 0 (range.getUnsignedMax + 1))
    | ICMP_SLE => some (getNonEmpty (getSignedMinValue W) (range.getSignedMax + 1))
    | ICMP_UGT =>
        if range.getUnsignedMin = getMaxValue W then some (getEmpty W)
        else create (range.getUnsignedMin + 1) 0
    | ICMP_SGT =>
        if range.getSignedMin = getSignedMaxValue W then some (getEmpty W)
        else create (range.getSignedMin + 1) (getSignedMinValue W)
    | ICMP_UGE => some (getNonEmpty range.getUnsignedMin 0)
    | ICMP_SGE => some (getNonEmpty range.getSignedMin (getSignedMinValue W))

def makeSatisfyingICmpRegion (pred : CmpPredicate) (range : ConstantRange W) : Option (ConstantRange W) := do
  let region ← makeAllowedICmpRegion pred.getInversePredicate range
  region.inverse

def makeExactICmpRegion (pred : CmpPredicate) (value : BitVec W) : Option (ConstantRange W) := do
  let allowed ← makeAllowedICmpRegion pred (ofValue value)
  let satisfying ← makeSatisfyingICmpRegion pred (ofValue value)
  guard (allowed = satisfying)
  some allowed

def equivalentICmp (range : ConstantRange W) : Option (CmpPredicate × BitVec W) :=
  if range.isFullSet || range.isEmptySet then
    some (if range.isEmptySet then ICMP_ULT else ICMP_UGE, 0)
  else match range.getSingleElement with
    | some element => some (ICMP_EQ, element)
    | none =>
        match range.getSingleMissingElement with
        | some missing => some (ICMP_NE, missing)
        | none =>
            if isMinSignedValue range.Lower || range.Lower == 0 then
              some (if isMinSignedValue range.Lower then ICMP_SLT else ICMP_ULT, range.Upper)
            else if isMinSignedValue range.Upper || range.Upper == 0 then
              some (if isMinSignedValue range.Upper then ICMP_SGE else ICMP_UGE, range.Lower)
            else none

def getEquivalentICmp (range : ConstantRange W) : Option (Option (CmpPredicate × BitVec W)) :=
  match range.equivalentICmp with
  | none => some none
  | some (pred, value) => do
      let region ← makeExactICmpRegion pred value
      guard (region = range)
      some (some (pred, value))

variable {range : ConstantRange W} {outcome : Option (ConstantRange W)} {values : BitVec W → Prop}
  {value lower upper : BitVec W}

theorem Exactly.getNonEmpty
    (same : ∀ value, (ConstantRange.getNonEmpty lower upper).contains value = true ↔ values value) :
    Exactly (some (ConstantRange.getNonEmpty lower upper)) values :=
  ⟨_, rfl, proper_getNonEmpty lower upper, same⟩

theorem contains_ofValue_iff (positive : 0 < W) {single : BitVec W} :
    (ofValue single).contains value = true ↔ value = single := by
  have next := toNat_add_one positive single
  have limit := value.isLt
  have two := Nat.one_lt_two_pow (n := W) (by omega)
  rw [ofValue, contains_mk_iff, ← BitVec.toNat_inj]
  omega

theorem ofValue_differ (positive : 0 < W) : (ofValue value).Lower.toNat ≠ (ofValue value).Upper.toNat := by
  have next := toNat_add_one positive value
  have two := Nat.one_lt_two_pow (n := W) (by omega)
  change value.toNat ≠ (value + 1).toNat
  omega

theorem eq_getFull (full : range.isFullSet = true) : range = getFull W := by
  rw [isFullSet, Bool.and_eq_true, beq_iff_eq, beq_iff_eq] at full
  calc range = ⟨range.Lower, range.Upper⟩ := rfl
    _ = getFull W := by rw [← full.1, full.2, getFull]

theorem eq_getEmpty (empty : range.isEmptySet = true) : range = getEmpty W := by
  rw [isEmptySet, Bool.and_eq_true, beq_iff_eq, beq_iff_eq] at empty
  calc range = ⟨range.Lower, range.Upper⟩ := rfl
    _ = getEmpty W := by rw [← empty.1, empty.2, getEmpty]

theorem Proper.ext {other : ConstantRange W} (positive : 0 < W) (proper : range.Proper)
    (otherProper : other.Proper)
    (same : ∀ value, range.contains value = true ↔ other.contains value = true) : range = other := by
  cases full : range.isFullSet with
  | true =>
      cases otherFull : other.isFullSet with
      | true => rw [eq_getFull full, eq_getFull otherFull]
      | false =>
          obtain ⟨value, misses⟩ := exists_not_contains positive otherProper otherFull
          exact absurd ((same value).mp (contains_of_isFullSet full)) misses
  | false =>
      obtain ⟨missing, misses⟩ := exists_not_contains positive proper full
      cases empty : range.isEmptySet with
      | true =>
          cases otherEmpty : other.isEmptySet with
          | true => rw [eq_getEmpty empty, eq_getEmpty otherEmpty]
          | false =>
              obtain ⟨value, member⟩ := exists_contains otherProper otherEmpty
              exact absurd ((same value).mpr member) (not_contains_of_isEmptySet positive empty)
      | false =>
          obtain ⟨member, inside⟩ := exists_contains proper empty
          have differ := (full_or_ne proper empty).resolve_left fun isFull => by
            rw [isFullSet_iff.mpr isFull] at full
            cases full
          have otherDiffer : other.Lower.toNat ≠ other.Upper.toNat := by
            rcases otherProper.toNat_cases with otherFull | otherEmpty | otherDiffer
            · exact absurd ((same missing).mpr (contains_of_isFullSet otherFull)) misses
            · exact absurd ((same member).mp inside) (not_contains_of_isEmptySet positive otherEmpty)
            · exact otherDiffer
          have round : ∀ point, Arc range.Lower.toFin range.Upper.toFin point ↔
              Arc other.Lower.toFin other.Upper.toFin point := by
            intro point
            have both := same ⟨point⟩
            rw [contains_iff_arc_of_ne differ, contains_iff_arc_of_ne otherDiffer] at both
            exact both
          have bounds := arc_injective (fun equal => differ (congrArg Fin.val equal))
            (fun equal => otherDiffer (congrArg Fin.val equal)) round
          obtain ⟨lower, upper⟩ := range
          obtain ⟨otherLower, otherUpper⟩ := other
          rw [BitVec.toFin_inj, BitVec.toFin_inj] at bounds
          obtain ⟨rfl, rfl⟩ := bounds
          rfl

theorem Exactly.eq_some (positive : 0 < W) (exact : Exactly outcome values) (proper : range.Proper)
    (same : ∀ value, range.contains value = true ↔ values value) : outcome = some range := by
  obtain ⟨result, produced, resultProper, members⟩ := exact
  rw [produced, resultProper.ext positive proper fun value => (members value).trans (same value).symm]

/-! ### Comparisons with some value -/

theorem exists_holds_iff {pred : CmpPredicate} {bound : BitVec W} (member : range.contains bound = true)
    (extreme : ∀ other, range.contains other = true → pred.Holds value other → pred.Holds value bound) :
    (∃ other, range.contains other = true ∧ pred.Holds value other) ↔ pred.Holds value bound :=
  ⟨fun ⟨other, inside, holds⟩ => extreme other inside holds, fun holds => ⟨bound, member, holds⟩⟩

section Bounds

variable (positive : 0 < W) (bound : BitVec W)

include positive

theorem unsigned_below : Exactly (if bound = 0 then some (getEmpty W) else ConstantRange.create 0 bound)
    (CmpPredicate.Holds · bound .ICMP_ULT) := by
  have zero : (0 : BitVec W).toNat = 0 := BitVec.toNat_ofNat 0 W
  simp only [← BitVec.toNat_inj, Holds]
  split
  · refine .empty positive fun value => ?_
    omega
  · refine .create (by omega) fun value => ?_
    rw [contains_mk_iff]
    omega

theorem unsigned_upto : Exactly (some (ConstantRange.getNonEmpty 0 (bound + 1)))
    (CmpPredicate.Holds · bound .ICMP_ULE) := by
  have zero : (0 : BitVec W).toNat = 0 := BitVec.toNat_ofNat 0 W
  refine .getNonEmpty fun value => ?_
  rw [contains_unsigned_iff positive (by omega), Holds]
  omega

theorem unsigned_above : Exactly (if bound = getMaxValue W then some (getEmpty W)
    else ConstantRange.create (bound + 1) 0) (CmpPredicate.Holds · bound .ICMP_UGT) := by
  have zero : (0 : BitVec W).toNat = 0 := BitVec.toNat_ofNat 0 W
  have next := toNat_add_one positive bound
  have limit := bound.isLt
  simp only [← BitVec.toNat_inj, Holds, toNat_getMaxValue]
  split
  · refine .empty positive fun value => ?_
    omega
  · refine .create (by omega) fun value => ?_
    have valueLimit := value.isLt
    rw [contains_mk_iff]
    omega

theorem unsigned_from : Exactly (some (ConstantRange.getNonEmpty bound 0))
    (CmpPredicate.Holds · bound .ICMP_UGE) := by
  have greatest := toNat_getMaxValue W
  have limit := bound.isLt
  have last : getMaxValue W + 1 = 0 := by
    have next := toNat_add_one positive (getMaxValue W)
    have zero : (0 : BitVec W).toNat = 0 := BitVec.toNat_ofNat 0 W
    apply BitVec.eq_of_toNat_eq
    omega
  refine .getNonEmpty fun value => ?_
  have valueLimit := value.isLt
  rw [← last, contains_unsigned_iff positive (by omega), Holds]
  omega

theorem signed_below : Exactly (if isMinSignedValue bound = true then some (getEmpty W)
    else ConstantRange.create (getSignedMinValue W) bound) (CmpPredicate.Holds · bound .ICMP_SLT) := by
  have halves := two_pow_pred positive
  have least := toInt_getSignedMinValue positive
  have leastSign := toInt_cases (getSignedMinValue W)
  have sign := toInt_cases bound
  have limit := bound.isLt
  simp only [isMinSignedValue_iff positive, Holds]
  split
  · refine .empty positive fun value => ?_
    have bounds := toInt_bounds value
    omega
  · refine .create (by omega) fun value => ?_
    have valueSign := toInt_cases value
    have valueLimit := value.isLt
    rw [contains_mk_iff]
    omega

theorem signed_upto : Exactly (some (ConstantRange.getNonEmpty (getSignedMinValue W) (bound + 1)))
    (CmpPredicate.Holds · bound .ICMP_SLE) := by
  have least := toInt_getSignedMinValue positive
  have bounds := toInt_bounds bound
  refine .getNonEmpty fun value => ?_
  have valueBounds := toInt_bounds value
  rw [contains_signed_iff positive (by omega), Holds]
  omega

theorem signed_above : Exactly (if bound = getSignedMaxValue W then some (getEmpty W)
    else ConstantRange.create (bound + 1) (getSignedMinValue W)) (CmpPredicate.Holds · bound .ICMP_SGT) := by
  have halves := two_pow_pred positive
  have least := toInt_getSignedMinValue positive
  have leastSign := toInt_cases (getSignedMinValue W)
  have greatest := toInt_getSignedMaxValue (W := W)
  have sign := toInt_cases bound
  have limit := bound.isLt
  have next := toNat_add_one positive bound
  simp only [← BitVec.toInt_inj, Holds]
  split
  · refine .empty positive fun value => ?_
    have bounds := toInt_bounds value
    omega
  · refine .create (by omega) fun value => ?_
    have valueSign := toInt_cases value
    have valueLimit := value.isLt
    rw [contains_mk_iff]
    omega

theorem signed_from : Exactly (some (ConstantRange.getNonEmpty bound (getSignedMinValue W)))
    (CmpPredicate.Holds · bound .ICMP_SGE) := by
  have halves := two_pow_pred positive
  have greatest := toInt_getSignedMaxValue (W := W)
  have greatestSign := toInt_cases (getSignedMaxValue W)
  have bounds := toInt_bounds bound
  have last : getSignedMaxValue W + 1 = getSignedMinValue W := by
    have next := toNat_add_one positive (getSignedMaxValue W)
    have least := toInt_getSignedMinValue positive
    have leastSign := toInt_cases (getSignedMinValue W)
    apply BitVec.eq_of_toNat_eq
    omega
  refine .getNonEmpty fun value => ?_
  have valueBounds := toInt_bounds value
  rw [← last, contains_signed_iff positive (by omega), Holds]
  omega

end Bounds

theorem isSingleElement_iff : range.isSingleElement = true ↔ range = ofValue range.Lower := by
  unfold isSingleElement getSingleElement ofValue
  split
  · rename_i single
    rw [← single]
    exact iff_of_true rfl rfl
  · rename_i several
    exact iff_of_false Bool.false_ne_true fun same => several (congrArg ConstantRange.Upper same)

section

variable (positive : 0 < W)

include positive

theorem exists_other_element (proper : range.Proper) (some : range.isEmptySet = false)
    (several : ¬ range.isSingleElement = true) (value : BitVec W) :
    ∃ other, range.contains other = true ∧ value ≠ other := by
  by_contra none
  push Not at none
  obtain ⟨member, inside⟩ := exists_contains proper some
  have only : range = ofValue value := by
    apply proper.ext positive (proper_of_ne (ofValue_differ positive))
    intro other
    rw [contains_ofValue_iff positive]
    constructor
    · exact fun inRange => (none other inRange).symm
    · rintro rfl
      rw [none member inside]
      exact inside
  apply several
  rw [isSingleElement_iff, only]
  rfl

theorem makeAllowedICmpRegion_exactly (proper : range.Proper) (pred : CmpPredicate) :
    Exactly (makeAllowedICmpRegion pred range)
      fun value => ∃ other, range.contains other = true ∧ pred.Holds value other := by
  unfold makeAllowedICmpRegion
  cases some : range.isEmptySet with
  | true =>
      rw [eq_getEmpty some]
      exact .empty positive fun value ⟨other, member, _⟩ => not_contains_getEmpty positive member
  | false =>
      have hasMax := contains_getUnsignedMax positive proper some
      have hasMin := contains_getUnsignedMin proper some
      have hasSignedMax := contains_getSignedMax positive proper some
      have hasSignedMin := contains_getSignedMin positive proper some
      cases pred with
      | ICMP_EQ => exact ⟨range, rfl, proper, fun value => by simp [Holds]⟩
      | ICMP_NE =>
          by_cases single : range.isSingleElement = true
          · have only := isSingleElement_iff.mp single
            dsimp only
            rw [if_pos single]
            refine .congr (fun value => ?_) (create_swapped_exactly (full_or_ne proper some |>.resolve_left ?_))
            · rw [only]
              simp only [contains_ofValue_iff positive, Holds, exists_eq_left]
            · rw [only]
              exact fun full => ofValue_differ positive full.1
          · dsimp only
            rw [if_neg single]
            exact .full fun value => exists_other_element positive proper some single value
      | ICMP_UGT =>
          exact .congr (fun value => exists_holds_iff hasMin fun other member =>
            Nat.lt_of_le_of_lt (getUnsignedMin_le member)) (unsigned_above positive _)
      | ICMP_UGE =>
          exact .congr (fun value => exists_holds_iff hasMin fun other member =>
            Nat.le_trans (getUnsignedMin_le member)) (unsigned_from positive _)
      | ICMP_ULT =>
          exact .congr (fun value => exists_holds_iff hasMax fun other member less =>
            Nat.lt_of_lt_of_le less (le_getUnsignedMax positive member)) (unsigned_below positive _)
      | ICMP_ULE =>
          exact .congr (fun value => exists_holds_iff hasMax fun other member below =>
            Nat.le_trans below (le_getUnsignedMax positive member)) (unsigned_upto positive _)
      | ICMP_SGT =>
          exact .congr (fun value => exists_holds_iff hasSignedMin fun other member =>
            Int.lt_of_le_of_lt (getSignedMin_le positive member)) (signed_above positive _)
      | ICMP_SGE =>
          exact .congr (fun value => exists_holds_iff hasSignedMin fun other member =>
            Int.le_trans (getSignedMin_le positive member)) (signed_from positive _)
      | ICMP_SLT =>
          exact .congr (fun value => exists_holds_iff hasSignedMax fun other member less =>
            Int.lt_of_lt_of_le less (le_getSignedMax positive member)) (signed_below positive _)
      | ICMP_SLE =>
          exact .congr (fun value => exists_holds_iff hasSignedMax fun other member below =>
            Int.le_trans below (le_getSignedMax positive member)) (signed_upto positive _)

theorem makeSatisfyingICmpRegion_exactly (proper : range.Proper) (pred : CmpPredicate) :
    Exactly (makeSatisfyingICmpRegion pred range)
      fun value => ∀ other, range.contains other = true → pred.Holds value other := by
  obtain ⟨region, produced, regionProper, members⟩ :=
    makeAllowedICmpRegion_exactly positive proper pred.getInversePredicate
  obtain ⟨result, inverted, resultProper, resultMembers⟩ := inverse_exactly positive regionProper
  refine ⟨result, ?_, resultProper, fun value => ?_⟩
  · rw [makeSatisfyingICmpRegion, produced]
    exact inverted
  · rw [resultMembers]
    simp only [members, holds_getInversePredicate, not_exists, not_and, not_not]

theorem ofValue_proper : (ofValue value).Proper := proper_of_ne (ofValue_differ positive)

theorem makeExactICmpRegion_exactly (pred : CmpPredicate) (single : BitVec W) :
    Exactly (makeExactICmpRegion pred single) (CmpPredicate.Holds · single pred) := by
  have one : ∀ value, (∃ other, (ofValue single).contains other = true ∧ pred.Holds value other) ↔
      pred.Holds value single := by
    intro value
    simp only [contains_ofValue_iff positive, exists_eq_left]
  obtain ⟨allowed, produced, proper, members⟩ :=
    Exactly.congr (fun value => (one value).symm)
      (makeAllowedICmpRegion_exactly positive (ofValue_proper positive) pred)
  have satisfying : makeSatisfyingICmpRegion pred (ofValue single) = some allowed := by
    refine (makeSatisfyingICmpRegion_exactly positive (ofValue_proper positive) pred).eq_some positive proper ?_
    intro value
    rw [members]
    simp only [contains_ofValue_iff positive, forall_eq]
  refine ⟨allowed, ?_, proper, members⟩
  simp [makeExactICmpRegion, produced, satisfying]

/-! ### The comparison of a range -/

theorem holds_of_full_or_empty (trivial : (range.isFullSet || range.isEmptySet) = true) :
    range.contains value = true ↔
      CmpPredicate.Holds value 0 (if range.isEmptySet then ICMP_ULT else ICMP_UGE) := by
  have zero : (0 : BitVec W).toNat = 0 := BitVec.toNat_ofNat 0 W
  cases empty : range.isEmptySet with
  | true =>
      refine iff_of_false (not_contains_of_isEmptySet positive empty) fun less => ?_
      change value.toNat < (0 : BitVec W).toNat at less
      omega
  | false =>
      rw [empty, Bool.or_false] at trivial
      refine iff_of_true (contains_of_isFullSet trivial) ?_
      change (0 : BitVec W).toNat ≤ value.toNat
      omega

theorem holds_of_lower (differ : range.Lower.toNat ≠ range.Upper.toNat)
    (start : (isMinSignedValue range.Lower || range.Lower == 0) = true) : range.contains value = true ↔
      CmpPredicate.Holds value range.Upper (if isMinSignedValue range.Lower then ICMP_SLT else ICMP_ULT) := by
  have valueLimit := value.isLt
  have upperLimit := range.Upper.isLt
  rw [contains_iff]
  by_cases signed : isMinSignedValue range.Lower = true
  · rw [if_pos signed, Holds]
    rw [isMinSignedValue_iff positive] at signed
    have valueSign := toInt_cases value
    have upperSign := toInt_cases range.Upper
    omega
  · rw [if_neg signed, Holds]
    have zero : range.Lower.toNat = 0 := by
      rw [(beq_iff_eq.mp ((Bool.or_eq_true_iff.mp start).resolve_left signed))]
      exact BitVec.toNat_ofNat 0 W
    omega

theorem holds_of_upper (differ : range.Lower.toNat ≠ range.Upper.toNat)
    (stop : (isMinSignedValue range.Upper || range.Upper == 0) = true) : range.contains value = true ↔
      CmpPredicate.Holds value range.Lower (if isMinSignedValue range.Upper then ICMP_SGE else ICMP_UGE) := by
  have valueLimit := value.isLt
  have lowerLimit := range.Lower.isLt
  rw [contains_iff]
  by_cases signed : isMinSignedValue range.Upper = true
  · rw [if_pos signed, Holds]
    rw [isMinSignedValue_iff positive] at signed
    have valueSign := toInt_cases value
    have lowerSign := toInt_cases range.Lower
    omega
  · rw [if_neg signed, Holds]
    have zero : range.Upper.toNat = 0 := by
      rw [(beq_iff_eq.mp ((Bool.or_eq_true_iff.mp stop).resolve_left signed))]
      exact BitVec.toNat_ofNat 0 W
    omega

theorem equivalentICmp_holds (proper : range.Proper) {pred : CmpPredicate} {single : BitVec W}
    (chosen : range.equivalentICmp = some (pred, single)) :
    range.contains value = true ↔ pred.Holds value single := by
  unfold equivalentICmp at chosen
  split at chosen
  · rename_i trivial
    cases chosen
    exact holds_of_full_or_empty positive trivial
  rename_i neither
  rw [Bool.or_eq_true, not_or] at neither
  have differ := (proper.toNat_cases.resolve_left neither.1).resolve_left neither.2
  split at chosen
  · rename_i element isElement
    cases chosen
    unfold getSingleElement at isElement
    split at isElement
    · rename_i single
      cases isElement
      have only : range = ofValue range.Lower := congrArg (ConstantRange.mk range.Lower) single
      rw [only]
      exact contains_ofValue_iff positive
    · cases isElement
  split at chosen
  · rename_i missing isMissing
    cases chosen
    unfold getSingleMissingElement at isMissing
    split at isMissing
    · rename_i single
      cases isMissing
      rw [contains_iff_arc_of_ne differ, ← not_arc_iff differ.symm]
      refine not_congr ?_
      rw [single]
      exact (contains_iff_arc_of_ne (ofValue_differ positive)).symm.trans (contains_ofValue_iff positive)
    · cases isMissing
  split at chosen
  · rename_i start
    cases chosen
    exact holds_of_lower positive differ start
  split at chosen
  · rename_i stop
    cases chosen
    exact holds_of_upper positive differ stop
  · cases chosen

theorem getEquivalentICmp_eq (proper : range.Proper) :
    range.getEquivalentICmp = some range.equivalentICmp := by
  unfold getEquivalentICmp
  cases chosen : range.equivalentICmp with
  | none => rfl
  | some choice =>
      obtain ⟨pred, single⟩ := choice
      have region := (makeExactICmpRegion_exactly positive pred single).eq_some positive proper
        fun value => equivalentICmp_holds positive proper chosen
      simp [region]

theorem fromKnownBits_contains {known : KnownBits W} (free : known.hasConflict = false)
    (isSigned : Bool) : ∃ result, fromKnownBits known isSigned = some result ∧ result.Proper ∧
      ∀ value, known.Compatible value → result.contains value = true := by
  have halves := two_pow_pred positive
  have lowest := (KnownBits.compatible_getMinValue free).bounds
  have greatest : known.getMaxValue.toNat + known.zero.toNat + 1 = 2 ^ W := by
    rw [KnownBits.getMaxValue, BitVec.toNat_not]
    omega
  unfold fromKnownBits
  rw [free]
  change ∃ result, (if known.isUnknown then _ else _) = some result ∧ _
  by_cases unknown : known.isUnknown = true
  · rw [if_pos unknown]
    exact ⟨_, rfl, proper_getFull, fun _ _ => contains_getFull⟩
  have some := KnownBits.toNat_of_not_isUnknown unknown
  rw [if_neg unknown]
  split
  · have next := toNat_add_one positive known.getMaxValue
    have differ : known.getMinValue.toNat ≠ (known.getMaxValue + 1).toNat := by
      unfold KnownBits.getMinValue at *
      omega
    refine ⟨_, create_of_ne differ, proper_of_ne differ, fun value compatible => ?_⟩
    have bounds := compatible.bounds
    rw [contains_mk_iff]
    unfold KnownBits.getMinValue at *
    omega
  · -- the sign is not known: the least value has it, the greatest one does not
    rename_i either
    simp only [Bool.or_eq_true, not_or, Bool.not_eq_true] at either
    have leastSign : known.getMinValue.msb = false := either.1.2
    have greatestSign : known.getMaxValue.msb = true := by
      rw [KnownBits.getMaxValue, BitVec.msb_not, decide_eq_true positive,
        show known.zero.msb = false from either.2]
      rfl
    have least := KnownBits.toNat_setSignBit positive leastSign
    have most := KnownBits.toNat_clearSignBit positive greatestSign
    have next := toNat_add_one positive known.signedMaxValue
    rw [BitVec.msb_eq_decide, decide_eq_false_iff_not] at leastSign
    change known.signedMinValue.toNat = known.one.toNat + 2 ^ (W - 1) at least
    change known.signedMaxValue.toNat + 2 ^ (W - 1) = known.getMaxValue.toNat at most
    have differ : known.signedMinValue.toNat ≠ (known.signedMaxValue + 1).toNat := by omega
    refine ⟨_, create_of_ne differ, proper_of_ne differ, fun value compatible => ?_⟩
    have sign := BitVec.msb_eq_decide value
    rw [contains_mk_iff]
    cases negative : value.msb with
    | true =>
        rw [negative, eq_comm, decide_eq_true_iff] at sign
        have above := (compatible.makeNegative negative).bounds.1
        change known.signedMinValue.toNat ≤ value.toNat at above
        omega
    | false =>
        rw [negative, eq_comm, decide_eq_false_iff_not] at sign
        have below := (compatible.makeNonNegative negative).bounds.2
        have zeroSign : known.zero.msb = false := either.2
        have raised := KnownBits.toNat_setSignBit positive zeroSign
        change value.toNat + (known.zero ||| getSignedMinValue W).toNat < 2 ^ W at below
        omega

end

/-- The regions of a comparison with some and with all values of a range are just
these values, the comparison found for a range is the range, and no value with the
known bits is missed. -/
theorem comparison_regions_exact (positive : 0 < W) :
    (∀ range : ConstantRange W, range.Proper →
      (∀ pred, Exactly (makeAllowedICmpRegion pred range)
        fun value => ∃ other, range.contains other = true ∧ pred.Holds value other) ∧
      (∀ pred, Exactly (makeSatisfyingICmpRegion pred range)
        fun value => ∀ other, range.contains other = true → pred.Holds value other) ∧
      ∃ choice, range.getEquivalentICmp = some choice ∧ ∀ pred single, choice = some (pred, single) →
        ∀ value, range.contains value = true ↔ pred.Holds value single) ∧
    ∀ known : KnownBits W, known.hasConflict = false → ∀ isSigned,
      ∃ result, fromKnownBits known isSigned = some result ∧ result.Proper ∧
        ∀ value, known.Compatible value → result.contains value = true :=
  ⟨fun _ proper => ⟨makeAllowedICmpRegion_exactly positive proper,
      makeSatisfyingICmpRegion_exactly positive proper,
      ⟨_, getEquivalentICmp_eq positive proper, fun _ _ chosen _ => equivalentICmp_holds positive proper chosen⟩⟩,
    fun _ free isSigned => fromKnownBits_contains positive free isSigned⟩

/-- A range around the signed minimum, and the sign as the only bit that is not known. -/
theorem comparison_regions_exact_at_four_bits :
    (Exactly (makeSatisfyingICmpRegion .ICMP_ULT (⟨6, 10⟩ : ConstantRange 4))
      fun value => ∀ other, (⟨6, 10⟩ : ConstantRange 4).contains other = true →
        CmpPredicate.Holds value other .ICMP_ULT) ∧
    (∃ result, fromKnownBits (⟨5, 2⟩ : KnownBits 4) true = some result ∧ result.Proper ∧
      ∀ value, (⟨5, 2⟩ : KnownBits 4).Compatible value → result.contains value = true) ∧
    makeSatisfyingICmpRegion .ICMP_ULT (⟨6, 10⟩ : ConstantRange 4) = some ⟨0, 6⟩ ∧
    fromKnownBits (⟨5, 2⟩ : KnownBits 4) true = some ⟨10, 3⟩ :=
  ⟨((comparison_regions_exact (by decide)).1 ⟨6, 10⟩ (by unfold Proper; decide)).2.1 .ICMP_ULT,
    (comparison_regions_exact (by decide)).2 ⟨5, 2⟩ (by decide) true, by decide, by decide⟩

end ConstantRange

end EvmBackend
