/-
Branch probabilities: fractions over 2 ^ 31 with one numerator set aside for the
unknown one. Scaling is exact although it works on 32-bit digits, and a normalised
list adds up to one but for the rounding of its entries.
-/

import EvmBackend.Library.Rounding
import Mathlib.Algebra.Group.Action.Defs
import Mathlib.Algebra.Order.BigOperators.Group.List

namespace EvmBackend

open List

structure BranchProbability where
  N : Nat
  deriving DecidableEq, Repr

namespace BranchProbability

open Rounding

def D : Nat := 2 ^ 31

def UnknownN : Nat := 2 ^ 32 - 1

def isUnknown (BP : BranchProbability) : Bool := BP.N = UnknownN

def getZero : BranchProbability := ⟨0⟩

def getRaw (N : Nat) : BranchProbability := ⟨N⟩

/-- The constructor from a numerator and a denominator, neither zero nor below the numerator. -/
def create (Numerator Denominator : Nat) : BranchProbability :=
  if Denominator = D then ⟨Numerator⟩
  else
    let Prob64 := (Numerator * D % 2 ^ 64 + Denominator / 2) % 2 ^ 64 / Denominator
    ⟨Prob64 % 2 ^ 32⟩

def scaleBy (ConstD Num N D : Nat) : Nat :=
  let D := if ConstD > 0 then ConstD else D
  -- fast path for multiplying by one
  if Num = 0 ∨ D = N then Num
  else
    let ProductHigh := Num / 2 ^ 32 * N % 2 ^ 64
    let ProductLow := Num % 2 ^ 32 * N % 2 ^ 64
    let Upper32 := ProductHigh / 2 ^ 32
    let Lower32 := ProductLow % 2 ^ 32
    let Mid32Partial := ProductHigh % 2 ^ 32
    let Mid32 := (Mid32Partial + ProductLow / 2 ^ 32) % 2 ^ 32
    let Upper32 := (Upper32 + if Mid32 < Mid32Partial then 1 else 0) % 2 ^ 32
    let Rem := Upper32 * 2 ^ 32 ||| Mid32
    let UpperQ := Rem / D
    if UpperQ > 2 ^ 32 - 1 then 2 ^ 64 - 1
    else
      let Rem := Rem % D * 2 ^ 32 % 2 ^ 64 ||| Lower32
      let LowerQ := Rem / D
      let Q := (UpperQ * 2 ^ 32 % 2 ^ 64 + LowerQ) % 2 ^ 64
      if Q < LowerQ then 2 ^ 64 - 1 else Q

def scale (BP : BranchProbability) (Num : Nat) : Nat := scaleBy D Num BP.N D

def scaleByInverse (BP : BranchProbability) (Num : Nat) : Nat := scaleBy 0 Num D BP.N

def accumulateEntry : Nat × Nat → BranchProbability → Nat × Nat
  | (S, UnknownProbCount), BP =>
      if BP.isUnknown then (S, (UnknownProbCount + 1) % 2 ^ 32) else ((S + BP.N) % 2 ^ 64, UnknownProbCount)

def accumulate (Probs : List BranchProbability) : Nat × Nat := Probs.foldl accumulateEntry (0, 0)

def rescaleEntry (Sum : Nat) (I : BranchProbability) : BranchProbability :=
  ⟨(I.N * D % 2 ^ 64 + Sum / 2) % 2 ^ 64 / Sum % 2 ^ 32⟩

def rescale (Sum : Nat) (Probs : List BranchProbability) : List BranchProbability :=
  if Sum = 0 then
    let BP := create 1 (Probs.length % 2 ^ 32)
    Probs.map fun _ => BP
  else Probs.map (rescaleEntry Sum)

def normalizeProbabilities (Probs : List BranchProbability) : List BranchProbability :=
  if Probs = [] then Probs
  else
    let (Sum, UnknownProbCount) := accumulate Probs
    if UnknownProbCount > 0 then
      let ProbForUnknown := if Sum < D then getRaw ((D - Sum) / UnknownProbCount % 2 ^ 32) else getZero
      let Probs := Probs.map fun BP => if BP.isUnknown then ProbForUnknown else BP
      if Sum ≤ D then Probs else rescale Sum Probs
    else rescale Sum Probs

variable {Num Numerator Denominator : Nat}

theorem or_digit (upper : Nat) {lower : Nat} (digit : lower < 2 ^ 32) :
    upper * 2 ^ 32 ||| lower = upper * 2 ^ 32 + lower := by
  rw [Nat.mul_comm upper, ← Nat.two_pow_add_eq_or_of_lt digit]

theorem carry_digits {high low : Nat} (highLe : high ≤ (2 ^ 32 - 1) * (2 ^ 32 - 1))
    (lowLe : low ≤ (2 ^ 32 - 1) * (2 ^ 32 - 1)) :
    ((high / 2 ^ 32 + if (high % 2 ^ 32 + low / 2 ^ 32) % 2 ^ 32 < high % 2 ^ 32 then 1 else 0) % 2 ^ 32
      * 2 ^ 32 +
        (high % 2 ^ 32 + low / 2 ^ 32) % 2 ^ 32) * 2 ^ 32 + low % 2 ^ 32 = high * 2 ^ 32 + low := by
  split
  · omega
  · omega

theorem divide_digits (upper : Nat) {lower : Nat} (digit : lower < 2 ^ 32) (positive : 0 < Denominator)
    (denominator : Denominator < 2 ^ 32) :
    (if upper / Denominator > 2 ^ 32 - 1 then 2 ^ 64 - 1
      else if (upper / Denominator * 2 ^ 32 % 2 ^ 64 + (upper % Denominator * 2 ^ 32 % 2 ^ 64 ||| lower) /
        Denominator) % 2 ^ 64 <
          (upper % Denominator * 2 ^ 32 % 2 ^ 64 ||| lower) / Denominator then 2 ^ 64 - 1
      else (upper / Denominator * 2 ^ 32 % 2 ^ 64 + (upper % Denominator * 2 ^ 32 % 2 ^ 64 ||| lower) /
        Denominator) % 2 ^ 64) =
    min (2 ^ 64 - 1) ((upper * 2 ^ 32 + lower) / Denominator) := by
  have rest : upper % Denominator < Denominator := Nat.mod_lt _ positive
  have second : (upper % Denominator * 2 ^ 32 + lower) / Denominator < 2 ^ 32 := lower_quotient_lt positive digit
  rw [Nat.mod_eq_of_lt (by omega : upper % Denominator * 2 ^ 32 < 2 ^ 64), or_digit _ digit,
    div_two_digits upper lower (2 ^ 32) positive]
  generalize upper / Denominator = UpperQ at second ⊢
  generalize (upper % Denominator * 2 ^ 32 + lower) / Denominator = LowerQ at second ⊢
  by_cases overflow : UpperQ > 2 ^ 32 - 1
  · rw [if_pos overflow]
    omega
  · rw [if_neg overflow, Nat.mod_eq_of_lt (by omega : UpperQ * 2 ^ 32 < 2 ^ 64),
      Nat.mod_eq_of_lt (by omega), if_neg (by omega)]
    omega

theorem scaleBy_eq (ConstD : Nat) (small : Num < 2 ^ 64) (digit : Numerator < 2 ^ 32) (positive : 0 < Denominator)
    (denominator : Denominator < 2 ^ 32) (const : ConstD = 0 ∨ ConstD = Denominator) :
    scaleBy ConstD Num Numerator Denominator = min (2 ^ 64 - 1) (Num * Numerator / Denominator) := by
  have used : (if ConstD > 0 then ConstD else Denominator) = Denominator := by
    rcases const with rfl | rfl
    · rfl
    · exact if_pos positive
  unfold scaleBy
  dsimp only
  rw [used]
  by_cases fast : Num = 0 ∨ Denominator = Numerator
  · rw [if_pos fast]
    rcases fast with rfl | rfl
    · simp
    · rw [Nat.mul_div_cancel _ positive]
      omega
  · rw [if_neg fast]
    have high : Num / 2 ^ 32 * Numerator ≤ (2 ^ 32 - 1) * (2 ^ 32 - 1) := Nat.mul_le_mul (by omega) (by omega)
    have low : Num % 2 ^ 32 * Numerator ≤ (2 ^ 32 - 1) * (2 ^ 32 - 1) := Nat.mul_le_mul (by omega) (by omega)
    have whole : Num * Numerator = Num / 2 ^ 32 * Numerator * 2 ^ 32 + Num % 2 ^ 32 * Numerator := by
      calc Num * Numerator = (2 ^ 32 * (Num / 2 ^ 32) + Num % 2 ^ 32) * Numerator := by rw [Nat.div_add_mod]
        _ = _ := by ring
    have digits := carry_digits high low
    rw [Nat.mod_eq_of_lt (by omega : Num / 2 ^ 32 * Numerator < 2 ^ 64),
      Nat.mod_eq_of_lt (by omega : Num % 2 ^ 32 * Numerator < 2 ^ 64),
      or_digit _ (Nat.mod_lt _ (by decide)), whole]
    rw [← digits]
    exact divide_digits _ (Nat.mod_lt _ (by decide)) positive denominator

/-- Scaling is exact in both directions; the inverse one stops at the largest number. -/
theorem scale_exact {BP : BranchProbability} (small : Num < 2 ^ 64) (positive : 1 ≤ BP.N)
    (probability : BP.N ≤ 2 ^ 31) :
    BP.scale Num = Num * BP.N / 2 ^ 31 ∧ BP.scaleByInverse Num = min (2 ^ 64 - 1) (Num * 2 ^ 31 / BP.N) := by
  constructor
  · have bounded : Num * BP.N / 2 ^ 31 ≤ Num := by
      rw [Nat.div_le_iff_le_mul_add_pred (by decide)]
      have product := Nat.mul_le_mul_left Num probability
      omega
    unfold scale D
    rw [scaleBy_eq _ small (by omega) (by decide) (by decide) (.inr rfl)]
    omega
  · unfold scaleByInverse D
    exact scaleBy_eq 0 small (by decide) positive (by omega) (.inl rfl)

theorem scale_exact_ofThird : (getRaw 715827883).scale (2 ^ 64 - 1) = (2 ^ 64 - 1) * 715827883 / 2 ^ 31 ∧
    (getRaw 715827883).scaleByInverse (2 ^ 64 - 1) = min (2 ^ 64 - 1) ((2 ^ 64 - 1) * 2 ^ 31 / 715827883) :=
  scale_exact (by decide) (by decide) (by decide)

/-! ### Normalising -/

variable {Probs : List BranchProbability} {Sum : Nat}

def Valid (BP : BranchProbability) : Prop := BP.isUnknown = true ∨ BP.N ≤ 2 ^ 31

def numerators (Probs : List BranchProbability) : List Nat := Probs.map BranchProbability.N

def known (Probs : List BranchProbability) : List Nat := numerators (Probs.filter fun BP => !BP.isUnknown)

def unknowns (Probs : List BranchProbability) : Nat := Probs.countP isUnknown

theorem not_isUnknown {BP : BranchProbability} (probability : BP.N ≤ 2 ^ 31) : BP.isUnknown = false := by
  unfold isUnknown UnknownN
  rw [decide_eq_false_iff_not]
  omega

theorem known_cons (BP : BranchProbability) (Probs : List BranchProbability) :
    known (BP :: Probs) = if BP.isUnknown then known Probs else BP.N :: known Probs := by
  unfold known numerators
  rw [filter_cons]
  cases BP.isUnknown with
  | true | false => rfl

theorem accumulate_eq (valid : ∀ BP ∈ Probs, Valid BP) (short : Probs.length < 2 ^ 31) :
    accumulate Probs = ((known Probs).sum, unknowns Probs) := by
  have each : ∀ (start count : Nat) (rest : List BranchProbability), (∀ BP ∈ rest, Valid BP) →
      start + rest.length * 2 ^ 31 < 2 ^ 64 → count + rest.length < 2 ^ 32 →
      rest.foldl accumulateEntry (start, count) = (start + (known rest).sum, count + unknowns rest) := by
    intro start count rest
    induction rest generalizing start count with
    | nil => exact fun _ _ _ => rfl
    | cons BP rest ih =>
        intro valid fits counts
        rw [length_cons, Nat.succ_mul] at fits
        rw [length_cons] at counts
        have next : count + 1 < 2 ^ 32 := by omega
        have less : start + rest.length * 2 ^ 31 < 2 ^ 64 :=
          Nat.lt_of_le_of_lt (Nat.add_le_add_left (Nat.le_add_right _ _) start) fits
        have still : count + 1 + rest.length < 2 ^ 32 := by omega
        have others := fun other member => valid other (mem_cons_of_mem BP member)
        rw [foldl_cons, known_cons, unknowns, countP_cons, accumulateEntry]
        rcases valid BP mem_cons_self with unknown | probability
        · rw [if_pos unknown, if_pos unknown, if_pos unknown, Nat.mod_eq_of_lt next,
            Nat.add_comm (List.countP _ rest), ← Nat.add_assoc]
          exact ih start (count + 1) others less still
        · rw [not_isUnknown probability, if_neg Bool.false_ne_true, if_neg Bool.false_ne_true,
            if_neg Bool.false_ne_true,
            Nat.mod_eq_of_lt (by omega), ih _ _ others (by omega) (by omega), sum_cons, Nat.add_assoc]
          rfl
  unfold accumulate
  rw [each 0 0 Probs valid (by omega) (by omega), Nat.zero_add, Nat.zero_add]

structure SumsToOne (Probs : List BranchProbability) : Prop where
  entries : ∀ BP ∈ Probs, BP.N ≤ 2 ^ 31
  above : 2 * (numerators Probs).sum ≤ 2 * 2 ^ 31 + 2 * Probs.length
  below : 2 * 2 ^ 31 ≤ 2 * (numerators Probs).sum + 2 * Probs.length

theorem create_one {count : Nat} (some : 0 < count) (short : count < 2 ^ 31) :
    create 1 (count % 2 ^ 32) = ⟨nearest (2 ^ 31) count⟩ := by
  have bounded : nearest (2 ^ 31) count ≤ 2 ^ 31 := nearest_le some (Nat.le_mul_of_pos_left _ some)
  unfold nearest at bounded
  unfold create D nearest
  rw [Nat.mod_eq_of_lt (by omega : count < 2 ^ 32), if_neg (by omega), Nat.one_mul]
  dsimp only
  rw [Nat.mod_eq_of_lt (by omega : 2 ^ 31 < 2 ^ 64), Nat.mod_eq_of_lt (by omega : 2 ^ 31 + count / 2 < 2 ^ 64),
    Nat.mod_eq_of_lt (by omega : (2 ^ 31 + count / 2) / count < 2 ^ 32)]

theorem rescaleEntry_N {I : BranchProbability} (probability : I.N ≤ 2 ^ 31) (le : I.N ≤ Sum) (positive : 0 < Sum)
    (small : Sum < 2 ^ 62) :
    (rescaleEntry Sum I).N = nearest (I.N * 2 ^ 31) Sum ∧ nearest (I.N * 2 ^ 31) Sum ≤ 2 ^ 31 := by
  have bounded := nearest_le positive (Nat.mul_le_mul_right (2 ^ 31) le)
  refine ⟨?_, bounded⟩
  unfold nearest at bounded ⊢
  unfold rescaleEntry D
  dsimp only
  rw [Nat.mod_eq_of_lt (by omega : I.N * 2 ^ 31 < 2 ^ 64),
    Nat.mod_eq_of_lt (by omega : I.N * 2 ^ 31 + Sum / 2 < 2 ^ 64),
    Nat.mod_eq_of_lt (by omega)]

theorem numerators_rescale (each : ∀ I ∈ Probs, (rescaleEntry Sum I).N = nearest (I.N * 2 ^ 31) Sum) :
    numerators (Probs.map (rescaleEntry Sum)) = (numerators Probs).map fun share =>
      nearest (share * 2 ^ 31) Sum := by
  unfold numerators
  rw [List.map_map, List.map_map]
  refine map_congr_left fun I inside => ?_
  rw [Function.comp_apply, Function.comp_apply, each I inside]

theorem rescale_sums (nonempty : Probs ≠ []) (short : Probs.length < 2 ^ 31)
    (entries : ∀ BP ∈ Probs, BP.N ≤ 2 ^ 31) :
    SumsToOne (rescale (numerators Probs).sum Probs) := by
  have some : 0 < Probs.length := length_pos_of_ne_nil nonempty
  have member : ∀ BP ∈ Probs, BP.N ≤ (numerators Probs).sum := fun BP member =>
    single_le_sum (fun _ _ => Nat.zero_le _) _ (List.mem_map_of_mem member)
  have total : (numerators Probs).sum ≤ Probs.length * 2 ^ 31 := by
    have bound := sum_le_card_nsmul (numerators Probs) (2 ^ 31) fun number inside => by
      obtain ⟨BP, inProbs, rfl⟩ := List.mem_map.mp inside
      exact entries BP inProbs
    rwa [numerators, length_map, smul_eq_mul] at bound
  unfold rescale
  by_cases zero : (numerators Probs).sum = 0
  · rw [if_pos zero, create_one some short]
    have bounded : nearest (2 ^ 31) Probs.length ≤ 2 ^ 31 := nearest_le some (Nat.le_mul_of_pos_left _ some)
    have sum : (numerators (Probs.map fun _ => BranchProbability.mk (nearest (2 ^ 31) Probs.length))).sum =
        Probs.length * nearest (2 ^ 31) Probs.length := by
      unfold numerators
      rw [List.map_map, Function.comp_def, map_const', sum_replicate, smul_eq_mul]
    obtain ⟨low, high⟩ := nearest_bounds (2 ^ 31) some
    refine ⟨fun BP inside => ?_, ?_, ?_⟩
    · obtain ⟨_, _, rfl⟩ := List.mem_map.mp inside
      exact bounded
    · rw [sum, length_map]
      omega
    · rw [sum, length_map]
      omega
  · rw [if_neg zero]
    have positive : 0 < (numerators Probs).sum := Nat.pos_of_ne_zero zero
    have small : (numerators Probs).sum < 2 ^ 62 := by omega
    have shares := numerators_rescale fun BP inside =>
      (rescaleEntry_N (entries BP inside) (member BP inside) positive small).1
    obtain ⟨low, high⟩ := sum_nearest_of_sum (numerators Probs) (2 ^ 31) positive rfl
    have length : (numerators Probs).length = Probs.length := length_map _
    refine ⟨fun BP inside => ?_, ?_, ?_⟩
    · obtain ⟨old, inProbs, rfl⟩ := List.mem_map.mp inside
      obtain ⟨value, bounded⟩ := rescaleEntry_N (entries old inProbs) (member old inProbs) positive small
      exact value.trans_le bounded
    · rw [shares, length_map]
      omega
    · rw [shares, length_map]
      omega

theorem sum_filled (fill : BranchProbability) (Probs : List BranchProbability) :
    (numerators (Probs.map fun BP => if BP.isUnknown then fill else BP)).sum =
    (known Probs).sum + unknowns Probs * fill.N := by
  induction Probs with
  | nil => simp [numerators, known, unknowns]
  | cons BP Probs ih =>
      unfold numerators at ih ⊢
      rw [map_cons, map_cons, sum_cons, ih, known_cons, unknowns, unknowns, countP_cons]
      cases unknown : BP.isUnknown with
      | true =>
          rw [if_pos rfl, if_pos rfl, if_pos rfl, Nat.succ_mul]
          exact Nat.add_left_comm _ _ _ |>.trans (congrArg _ (Nat.add_comm _ _))
      | false =>
          rw [if_neg Bool.false_ne_true, if_neg Bool.false_ne_true, if_neg Bool.false_ne_true,
            sum_cons, Nat.add_zero, Nat.add_assoc]

theorem filled_sums (some : 0 < unknowns Probs) (valid : ∀ BP ∈ Probs, Valid BP)
    (room : (known Probs).sum ≤ 2 ^ 31) :
    SumsToOne (Probs.map fun BP =>
      if BP.isUnknown then getRaw ((2 ^ 31 - (known Probs).sum) / unknowns Probs) else BP) := by
  have share := Nat.div_add_mod (2 ^ 31 - (known Probs).sum) (unknowns Probs)
  have rest := Nat.mod_lt (2 ^ 31 - (known Probs).sum) some
  have fewer : unknowns Probs ≤ Probs.length := List.countP_le_length
  have small : (2 ^ 31 - (known Probs).sum) / unknowns Probs ≤ 2 ^ 31 :=
    (Nat.div_le_self _ _).trans (Nat.sub_le _ _)
  have sum := sum_filled (getRaw ((2 ^ 31 - (known Probs).sum) / unknowns Probs)) Probs
  rw [getRaw] at sum
  refine ⟨fun BP inside => ?_, ?_, ?_⟩
  · obtain ⟨old, inProbs, rfl⟩ := List.mem_map.mp inside
    rcases valid old inProbs with unknown | probability
    · rw [if_pos unknown]
      exact small
    · rw [not_isUnknown probability, if_neg Bool.false_ne_true]
      exact probability
  · rw [getRaw, sum, length_map]
    dsimp only
    omega
  · rw [getRaw, sum, length_map]
    dsimp only
    omega

theorem known_eq_numerators (none : unknowns Probs = 0) : known Probs = numerators Probs := by
  unfold known
  rw [filter_eq_self.mpr fun BP inside => ?_]
  rw [Bool.not_eq_true']
  exact Bool.eq_false_iff.mpr (countP_eq_zero.mp none BP inside)

theorem normalizeProbabilities_eq (nonempty : Probs ≠ []) (valid : ∀ BP ∈ Probs, Valid BP)
    (short : Probs.length < 2 ^ 31) :
    normalizeProbabilities Probs =
      if 0 < unknowns Probs then
        if (known Probs).sum ≤ 2 ^ 31 then
          Probs.map fun BP => if BP.isUnknown then getRaw ((2 ^ 31 - (known Probs).sum) / unknowns Probs) else BP
        else rescale (known Probs).sum (Probs.map fun BP => if BP.isUnknown then getZero else BP)
      else rescale (known Probs).sum Probs := by
  unfold normalizeProbabilities
  rw [if_neg nonempty, accumulate_eq valid short]
  have whole : D = 2 ^ 31 := rfl
  dsimp only
  by_cases some : 0 < unknowns Probs
  · rw [if_pos some, if_pos some]
    rcases Nat.lt_trichotomy (known Probs).sum (2 ^ 31) with less | same | more
    · have share : (2 ^ 31 - (known Probs).sum) / unknowns Probs ≤ 2 ^ 31 :=
        (Nat.div_le_self _ _).trans (Nat.sub_le _ _)
      rw [if_pos (whole ▸ less.le), if_pos (whole ▸ less), if_pos less.le, whole, Nat.mod_eq_of_lt (by omega)]
    · rw [if_pos (same.trans whole.symm).le, if_neg (same.trans whole.symm).not_lt, if_pos same.le, same,
        Nat.sub_self, Nat.zero_div]
      rfl
    · rw [if_neg (whole ▸ more.not_ge), if_neg (whole ▸ more.not_gt), if_neg more.not_ge]
  · rw [if_neg some, if_neg some]

theorem normalizeProbabilities_sums (nonempty : Probs ≠ []) (short : Probs.length < 2 ^ 31)
    (valid : ∀ BP ∈ Probs, Valid BP) :
    SumsToOne (normalizeProbabilities Probs) ∧ (normalizeProbabilities Probs).length = Probs.length := by
  have rescaled : ∀ {list : List BranchProbability} (Sum : Nat), (rescale Sum list).length = list.length := by
    intro list Sum
    unfold rescale
    by_cases zero : Sum = 0
    · rw [if_pos zero, length_map]
    · rw [if_neg zero, length_map]
  rw [normalizeProbabilities_eq nonempty valid short]
  by_cases some : 0 < unknowns Probs
  · rw [if_pos some]
    by_cases room : (known Probs).sum ≤ 2 ^ 31
    · rw [if_pos room]
      exact ⟨filled_sums some valid room, length_map _⟩
    · -- the unknown entries get nothing
      have sum := sum_filled getZero Probs
      rw [if_neg room, rescaled, length_map]
      rw [getZero, Nat.mul_zero, Nat.add_zero] at sum
      rw [← sum]
      refine ⟨rescale_sums (fun empty => nonempty (map_eq_nil_iff.mp empty)) ?_ fun BP inside => ?_, rfl⟩
      · rw [length_map]
        exact short
      · obtain ⟨old, inProbs, rfl⟩ := List.mem_map.mp inside
        rcases valid old inProbs with unknown | probability
        · rw [if_pos unknown]
          exact Nat.zero_le _
        · rw [not_isUnknown probability, if_neg Bool.false_ne_true]
          exact probability
  · have none : unknowns Probs = 0 := Nat.eq_zero_of_not_pos some
    rw [if_neg some, rescaled, known_eq_numerators none]
    refine ⟨rescale_sums nonempty short fun BP inside => ?_, rfl⟩
    exact (valid BP inside).resolve_left (countP_eq_zero.mp none BP inside)

/-- The normalised list is known and sums to one up to its length, and known entries that leave room for the
unknown ones stay as they are. -/
theorem normalizeProbabilities_sum (nonempty : Probs ≠ []) (short : Probs.length < 2 ^ 31)
    (valid : ∀ BP ∈ Probs, Valid BP) :
    (∀ BP ∈ normalizeProbabilities Probs, BP.isUnknown = false ∧ BP.N ≤ 2 ^ 31) ∧
      |((numerators (normalizeProbabilities Probs)).sum : ℤ) - 2 ^ 31| ≤ (Probs.length : ℤ) ∧
        ((known Probs).sum ≤ 2 ^ 31 → (∃ BP ∈ Probs, BP.isUnknown = true) →
          ∀ (index : Nat) (BP : BranchProbability), Probs[index]? = some BP → BP.isUnknown = false →
            (normalizeProbabilities Probs)[index]? = some BP) := by
  obtain ⟨sums, length⟩ := normalizeProbabilities_sums nonempty short valid
  have above := sums.above
  have below := sums.below
  rw [length] at above below
  refine ⟨fun BP inside => ⟨not_isUnknown (sums.entries BP inside), sums.entries BP inside⟩, ?_,
    fun room unknown index BP entry isKnown => ?_⟩
  · rw [abs_le]
    constructor
    · omega
    · omega
  · have some : 0 < unknowns Probs := countP_pos_iff.mpr unknown
    rw [normalizeProbabilities_eq nonempty valid short, if_pos some, if_pos room, getElem?_map,
      entry, Option.map_some, isKnown, if_neg Bool.false_ne_true]

theorem normalizeProbabilities_sum_ofThirds :
    let Probs := [getRaw 715827883, ⟨UnknownN⟩, ⟨UnknownN⟩]
    (∀ BP ∈ normalizeProbabilities Probs, BP.isUnknown = false ∧ BP.N ≤ 2 ^ 31) ∧
      |((numerators (normalizeProbabilities Probs)).sum : ℤ) - 2 ^ 31| ≤ (Probs.length : ℤ) ∧
        ((known Probs).sum ≤ 2 ^ 31 → (∃ BP ∈ Probs, BP.isUnknown = true) →
          ∀ (index : Nat) (BP : BranchProbability), Probs[index]? = some BP → BP.isUnknown = false →
            (normalizeProbabilities Probs)[index]? = some BP) :=
  normalizeProbabilities_sum (by decide) (by decide) (by
    intro BP inside
    rcases mem_cons.mp inside with rfl | rest
    · exact .inr (by decide)
    · rcases mem_cons.mp rest with rfl | last
      · exact .inl rfl
      · rw [mem_singleton.mp last]
        exact .inl rfl)

end BranchProbability

end EvmBackend
