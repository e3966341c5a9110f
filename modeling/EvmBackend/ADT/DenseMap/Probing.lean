/-
The lookup of a key in a table, and the table after a key is put where the lookup
says.

A key sits where its probe sequence comes to before any empty bucket. Tombstones
keep that true when a key is erased, and an empty bucket somewhere in the table
stops every probe sequence.
-/

import EvmBackend.Library.TriangularProbe
import EvmBackend.ADT.DenseMap

namespace EvmBackend.DenseMap

open TriangularProbe List

variable {Key Value : Type} (info : DenseMapInfo Key)

def probed (buckets : List (Bucket Key Value)) (key : Key) (step : Nat) : Nat :=
  position (info.getHashValue key) buckets.length step

/-- The probe sequence of the key comes to the place before an empty bucket. -/
def Reaches (buckets : List (Bucket Key Value)) (key : Key) (index : Nat) : Prop :=
  ∃ step, probed info buckets key step = index ∧
    ∀ earlier, earlier < step → ∀ bucket, buckets[probed info buckets key earlier]? = some bucket →
      isEmptyBucket info bucket = false

def entryOf (bucket : Bucket Key Value) : Option (Key × Value) :=
  if hasValue info bucket then bucket.second.map fun value => (bucket.first, value) else none

def entries (buckets : List (Bucket Key Value)) : List (Key × Value) :=
  buckets.filterMap (entryOf info)

def Differ (left right : Key × Value) : Prop := info.isEqual left.1 right.1 = false

structure Sound (buckets : List (Bucket Key Value)) : Prop where
  power : ∃ bits, buckets.length = 2 ^ bits
  reachable : ∀ (index : Nat) (bucket : Bucket Key Value), buckets[index]? = some bucket →
    hasValue info bucket = true → Reaches info buckets bucket.first index
  distinct : (entries info buckets).Pairwise (Differ info)
  values : ∀ bucket ∈ buckets, bucket.second.isSome = hasValue info bucket

def Usable (key : Key) : Prop :=
  info.isEqual key info.getEmptyKey = false ∧ info.isEqual key info.getTombstoneKey = false

variable {info} {buckets : List (Bucket Key Value)} {key : Key}

theorem isEqual_congr {left right other : Key} (same : info.isEqual left right = true) :
    info.isEqual left other = info.isEqual right other := by
  rw [Bool.eq_iff_iff]
  exact ⟨info.trans (info.symm same), info.trans same⟩

theorem bucket_cases (info : DenseMapInfo Key) (bucket : Bucket Key Value) :
    (isEmptyBucket info bucket = true ∧ isTombstone info bucket = false ∧
        hasValue info bucket = false) ∨
      (isEmptyBucket info bucket = false ∧ isTombstone info bucket = true ∧
        hasValue info bucket = false) ∨
      (isEmptyBucket info bucket = false ∧ isTombstone info bucket = false ∧
        hasValue info bucket = true) := by
  unfold hasValue
  cases empty : isEmptyBucket info bucket with
  | true =>
      left
      have notTombstone : isTombstone info bucket = false := by
        unfold isEmptyBucket at empty
        unfold isTombstone
        rw [isEqual_congr empty]
        exact info.reserved
      exact ⟨rfl, notTombstone, rfl⟩
  | false =>
      right
      cases isTombstone info bucket with
      | true => exact Or.inl ⟨rfl, rfl, rfl⟩
      | false => exact Or.inr ⟨rfl, rfl, rfl⟩

theorem isEmptyBucket_of_hasValue {bucket : Bucket Key Value} (live : hasValue info bucket = true) :
    isEmptyBucket info bucket = false := by
  rw [hasValue, Bool.and_eq_true, Bool.not_eq_true'] at live
  exact live.1

theorem hasValue_of_isEqual (usable : Usable info key) {bucket : Bucket Key Value}
    (same : info.isEqual key bucket.first = true) : hasValue info bucket = true := by
  unfold hasValue isEmptyBucket isTombstone
  rw [← isEqual_congr same, ← isEqual_congr same, usable.1, usable.2]
  rfl

theorem usable_of_hasValue {bucket : Bucket Key Value} (live : hasValue info bucket = true) :
    Usable info bucket.first := by
  rw [hasValue, Bool.and_eq_true, Bool.not_eq_true', Bool.not_eq_true'] at live
  exact live

theorem hasValue_of_usable (usable : Usable info key) (value : Option Value) :
    hasValue info ⟨key, value⟩ = true :=
  hasValue_of_isEqual usable (info.refl key)

theorem probed_lt (sound : Sound info buckets) (key : Key) (step : Nat) :
    probed info buckets key step < buckets.length := by
  obtain ⟨bits, size⟩ := sound.power
  exact position_lt (size ▸ Nat.two_pow_pos bits) step

theorem probed_congr {other : Key} (same : info.isEqual key other = true) (step : Nat) :
    probed info buckets key step = probed info buckets other step := by
  rw [probed, probed, info.hash_eq same]

theorem and_pred_eq_mod (power : ∃ bits, buckets.length = 2 ^ bits) (number : Nat) :
    number &&& (buckets.length - 1) = number % buckets.length := by
  obtain ⟨bits, size⟩ := power
  rw [size]
  exact Nat.and_two_pow_sub_one_eq_mod number bits

/-! ### Lookup -/

structure Seen (info : DenseMapInfo Key) (buckets : List (Bucket Key Value)) (key : Key)
    (step : Nat) (tombstone : Option Nat) : Prop where
  passed : ∀ earlier, earlier < step → ∀ bucket,
    buckets[probed info buckets key earlier]? = some bucket →
      isEmptyBucket info bucket = false ∧ info.isEqual key bucket.first = false
  found : ∀ index, tombstone = some index → ∃ earlier bucket, earlier < step ∧
    probed info buckets key earlier = index ∧ buckets[index]? = some bucket ∧
      hasValue info bucket = false

/-- The result of a lookup: the bucket of the key, or one that its probe sequence reaches
and that has no value. -/
inductive Looked (info : DenseMapInfo Key) (buckets : List (Bucket Key Value)) (key : Key) :
    Bool → Nat → Prop where
  | found (index : Nat) (bucket : Bucket Key Value) (here : buckets[index]? = some bucket)
      (same : info.isEqual key bucket.first = true) : Looked info buckets key true index
  | free (index : Nat) (bucket : Bucket Key Value) (here : buckets[index]? = some bucket)
      (without : hasValue info bucket = false) (reaches : Reaches info buckets key index)
      (absent : ∀ other ∈ buckets, info.isEqual key other.first = false) :
      Looked info buckets key false index

theorem absent_of_empty (sound : Sound info buckets) (usable : Usable info key) {step : Nat}
    (passed : ∀ earlier, earlier < step → ∀ bucket,
      buckets[probed info buckets key earlier]? = some bucket →
        isEmptyBucket info bucket = false ∧ info.isEqual key bucket.first = false)
    {bucket : Bucket Key Value} (here : buckets[probed info buckets key step]? = some bucket)
    (empty : isEmptyBucket info bucket = true) :
    ∀ other ∈ buckets, info.isEqual key other.first = false := by
  intro other member
  by_contra same
  rw [Bool.not_eq_false] at same
  have live := hasValue_of_isEqual usable same
  obtain ⟨index, there⟩ := getElem?_of_mem member
  obtain ⟨reached, place, before⟩ := sound.reachable index other there live
  have samePlace : ∀ step, probed info buckets other.first step = probed info buckets key step :=
    fun step => (probed_congr same step).symm
  rw [samePlace] at place
  rcases Nat.lt_trichotomy reached step with less | equal | greater
  · have differs := (passed reached less other (place ▸ there)).2
    rw [same] at differs
    cases differs
  · rw [equal] at place
    rw [place, there] at here
    rw [← Option.some.inj here, isEmptyBucket_of_hasValue live] at empty
    cases empty
  · have filled := before step greater bucket ((samePlace step).symm ▸ here)
    rw [empty] at filled
    cases filled

theorem lookupFrom_looked (sound : Sound info buckets) (usable : Usable info key) {probes step : Nat}
    {tombstone : Option Nat} (seen : Seen info buckets key step tombstone)
    (stops : ∃ last bucket, step ≤ last ∧ last < step + probes ∧
      buckets[probed info buckets key last]? = some bucket ∧ isEmptyBucket info bucket = true) :
    ∃ found index, lookupFrom info buckets key probes (probed info buckets key step) (step + 1)
        tombstone = some (found, index) ∧ Looked info buckets key found index := by
  induction probes generalizing step tombstone with
  | zero =>
      obtain ⟨last, _, low, high, _⟩ := stops
      omega
  | succ probes ih =>
      obtain ⟨bucket, here⟩ : ∃ bucket, buckets[probed info buckets key step]? = some bucket :=
        ⟨_, List.getElem?_eq_getElem (probed_lt sound key step)⟩
      rw [lookupFrom, here]
      by_cases same : info.isEqual key bucket.first = true
      · simp only [if_pos same]
        exact ⟨true, _, rfl, Looked.found _ bucket here same⟩
      simp only [if_neg same]
      rw [Bool.not_eq_true] at same
      by_cases empty : isEmptyBucket info bucket = true
      · simp only [if_pos empty]
        refine ⟨false, _, rfl, ?_⟩
        have absent := absent_of_empty sound usable seen.passed here empty
        have before : ∀ earlier, earlier < step → ∀ bucket,
            buckets[probed info buckets key earlier]? = some bucket →
              isEmptyBucket info bucket = false := fun earlier less bucket there =>
          (seen.passed earlier less bucket there).1
        cases tombstone with
        | none =>
            have without : hasValue info bucket = false := by rw [hasValue, empty]; rfl
            exact Looked.free _ bucket here without ⟨step, rfl, before⟩ absent
        | some index =>
            obtain ⟨earlier, old, less, place, there, without⟩ := seen.found index rfl
            exact Looked.free _ old there without
              ⟨earlier, place, fun first lower => before first (lower.trans less)⟩ absent
      simp only [if_neg empty]
      rw [Bool.not_eq_true] at empty
      have advance : probed info buckets key step + (step + 1) &&& (buckets.length - 1) =
          probed info buckets key (step + 1) := and_pred_eq_mod sound.power _
      rw [advance]
      apply ih
      · refine ⟨?_, ?_⟩
        · intro earlier less other there
          rcases Nat.lt_succ_iff_lt_or_eq.mp less with lower | rfl
          · exact seen.passed earlier lower other there
          · rw [here] at there
            cases there
            exact ⟨empty, same⟩
        · intro index marked
          split at marked
          · rename_i tombstoneHere
            rw [Bool.and_eq_true] at tombstoneHere
            cases marked
            have without : hasValue info bucket = false := by
              rw [hasValue, tombstoneHere.1, Bool.not_true, Bool.and_false]
            exact ⟨step, bucket, Nat.lt_succ_self step, rfl, here, without⟩
          · obtain ⟨earlier, old, less, rest⟩ := seen.found index marked
            exact ⟨earlier, old, Nat.lt_succ_of_lt less, rest⟩
      · obtain ⟨last, old, low, high, there, stop⟩ := stops
        have later : step ≠ last := by
          rintro rfl
          rw [here] at there
          cases there
          rw [empty] at stop
          cases stop
        exact ⟨last, old, by omega, by omega, there, stop⟩

theorem LookupBucketFor_looked (sound : Sound info buckets) (usable : Usable info key)
    (room : ∃ bucket ∈ buckets, isEmptyBucket info bucket = true) :
    ∃ found index, LookupBucketFor info buckets key = some (found, some index) ∧
      Looked info buckets key found index := by
  obtain ⟨empty, member, isEmpty⟩ := room
  obtain ⟨place, there⟩ := getElem?_of_mem member
  obtain ⟨inside, _⟩ := List.getElem?_eq_some_iff.mp there
  obtain ⟨bits, size⟩ := sound.power
  obtain ⟨last, fewer, reached⟩ := exists_position bits (info.getHashValue key) (size ▸ inside)
  have seen : Seen info buckets key 0 none :=
    ⟨fun _ less => absurd less (Nat.not_lt_zero _), fun _ none => by cases none⟩
  have stops : ∃ last bucket, 0 ≤ last ∧ last < 0 + buckets.length ∧
      buckets[probed info buckets key last]? = some bucket ∧ isEmptyBucket info bucket = true := by
    refine ⟨last, empty, Nat.zero_le _, ?_, ?_, isEmpty⟩
    · rw [Nat.zero_add, size]
      exact fewer
    · rw [probed, size, reached]
      exact there
  obtain ⟨found, index, result, looked⟩ := lookupFrom_looked sound usable seen stops
  refine ⟨found, index, ?_, looked⟩
  have start : info.getHashValue key &&& (buckets.length - 1) = probed info buckets key 0 :=
    and_pred_eq_mod sound.power _
  rw [LookupBucketFor, if_neg (by omega), start, result]
  rfl

theorem Reaches.set {index place : Nat} {bucket : Bucket Key Value}
    (reaches : Reaches info buckets key index) (filled : isEmptyBucket info bucket = false) :
    Reaches info (buckets.set place bucket) key index := by
  obtain ⟨step, reached, before⟩ := reaches
  have same : ∀ step, probed info (buckets.set place bucket) key step =
      probed info buckets key step := by
    intro step
    rw [probed, probed, length_set]
  refine ⟨step, (same step).trans reached, ?_⟩
  intro earlier less other there
  rw [same, getElem?_set] at there
  split at there
  · split at there
    · cases there
      exact filled
    · cases there
  · exact before earlier less other there

theorem Sound.set {index : Nat} {bucket : Bucket Key Value} (sound : Sound info buckets)
    (filled : isEmptyBucket info bucket = false)
    (reaches : hasValue info bucket = true → Reaches info buckets bucket.first index)
    (value : bucket.second.isSome = hasValue info bucket)
    (distinct : (entries info (buckets.set index bucket)).Pairwise (Differ info)) :
    Sound info (buckets.set index bucket) := by
  refine ⟨?_, ?_, distinct, ?_⟩
  · rw [length_set]
    exact sound.power
  · intro place other there live
    rw [getElem?_set] at there
    split at there
    · rename_i same
      split at there
      · cases there
        rw [← same]
        exact (reaches live).set filled
      · cases there
    · exact (sound.reachable place other there live).set filled
  · intro other member
    rcases mem_or_eq_of_mem_set member with old | rfl
    · exact sound.values other old
    · exact value

theorem exists_split {index : Nat} {bucket : Bucket Key Value}
    (here : buckets[index]? = some bucket) :
    ∃ before behind, buckets = before ++ bucket :: behind ∧
      ∀ other, buckets.set index other = before ++ other :: behind := by
  obtain ⟨inside, same⟩ := List.getElem?_eq_some_iff.mp here
  refine ⟨buckets.take index, buckets.drop (index + 1), ?_, ?_⟩
  · rw [← same, getElem_cons_drop, take_append_drop]
  · intro other
    rw [set_eq_take_append_cons_drop, if_pos inside]

theorem entries_append (before behind : List (Bucket Key Value)) :
    entries info (before ++ behind) = entries info before ++ entries info behind :=
  filterMap_append

theorem entries_cons_of_not {bucket : Bucket Key Value} (without : hasValue info bucket = false)
    (behind : List (Bucket Key Value)) : entries info (bucket :: behind) = entries info behind := by
  rw [entries, filterMap_cons, entryOf, without]
  rfl

theorem entries_cons_of_live {bucket : Bucket Key Value} {value : Value}
    (live : hasValue info bucket = true) (holds : bucket.second = some value)
    (behind : List (Bucket Key Value)) :
    entries info (bucket :: behind) = (bucket.first, value) :: entries info behind := by
  rw [entries, filterMap_cons, entryOf, live, holds]
  rfl

theorem mem_entries {entry : Key × Value} :
    entry ∈ entries info buckets ↔
      ∃ bucket ∈ buckets, hasValue info bucket = true ∧ bucket.first = entry.1 ∧
        bucket.second = some entry.2 := by
  rw [entries, mem_filterMap]
  constructor
  · rintro ⟨bucket, member, holds⟩
    unfold entryOf at holds
    split at holds
    · rename_i live
      obtain ⟨value, second, rfl⟩ := Option.map_eq_some_iff.mp holds
      exact ⟨bucket, member, live, rfl, second⟩
    · cases holds
  · rintro ⟨bucket, member, live, first, second⟩
    refine ⟨bucket, member, ?_⟩
    rw [entryOf, live, if_pos rfl, second, first]
    rfl

theorem differ_symm {left right : Key × Value} (differ : Differ info left right) :
    Differ info right left := by
  unfold Differ at *
  rw [Bool.eq_false_iff] at *
  exact fun same => differ (info.symm same)

end EvmBackend.DenseMap
