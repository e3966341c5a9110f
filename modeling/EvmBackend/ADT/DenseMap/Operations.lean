/-
Every operation keeps a map a table of the entries it should hold.
-/

import EvmBackend.ADT.DenseMap.Growth

namespace EvmBackend.DenseMap

open List

variable {Key Value : Type} {info : DenseMapInfo Key} {kind : DenseMapKind}
  {map : DenseMap Key Value} {contents : List (Key × Value)} {key : Key}

theorem FitsKind.congr {other : DenseMap Key Value} (fits : FitsKind kind map)
    (small : other.Small = map.Small) (length : other.Buckets.length = map.Buckets.length) :
    FitsKind kind other := by
  cases kind with
  | dense => exact ⟨small.trans fits.1, length.symm ▸ fits.2⟩
  | small InlineBuckets =>
      refine ⟨length.symm ▸ fits.1, ?_⟩
      rw [small, length]
      exact fits.2

theorem Prepared.insert {index : Nat} {old : Bucket Key Value}
    (prepared : Prepared info kind map contents key index) (usable : Usable info key)
    (there : map.Buckets[index]? = some old) (value : Value) :
    Good info kind
      ⟨map.Small, map.Buckets.set index ⟨key, some value⟩, map.NumEntries + 1,
        if isEmptyBucket info old then map.NumTombstones else map.NumTombstones - 1⟩
      ((key, value) :: contents) := by
  have room := prepared.room
  have table := prepared.good.table
  have sound : Sound info map.Buckets := by
    rcases table.sound with none | sound
    · rw [none] at room
      exact absurd room (Nat.not_lt_zero _)
    · exact sound
  have placed := sound.place usable prepared.looked value
  have fewer : (if isEmptyBucket info old then map.NumTombstones else map.NumTombstones - 1) ≤
      map.NumTombstones := by
    split
    · exact Nat.le_refl _
    · exact Nat.sub_le ..
  refine ⟨⟨Or.inr placed.sound, ?_, ?_, ?_, Or.inr ?_⟩, ?_⟩
  · exact placed.holds.trans (table.holds.cons _)
  · rw [placed.live, ← table.live]
  · rw [placed.tombstones old there, ← table.tombstones]
  · rw [length_set]
    exact Nat.lt_of_le_of_lt (Nat.add_le_add_left fewer _) room
  · exact prepared.good.fits.congr rfl length_set

theorem InsertIntoBucket_good (valid : DenseMapKindValid kind)
    (good : Good info kind map contents) (usable : Usable info key)
    (absent : valueOf info contents key = none) (few : map.NumEntries + 1 < 2 ^ 29)
    {slot : Option Nat} (result : LookupBucketFor info map.Buckets key = some (false, slot))
    (value : Value) :
    ∃ inserted, InsertIntoBucket info kind key value slot map = some inserted ∧
      Good info kind inserted ((key, value) :: contents) ∧
      map.Buckets.length ≤ inserted.Buckets.length := by
  obtain ⟨index, prepared, ready, more, impl⟩ :=
    InsertIntoBucketImpl_prepared valid good usable absent few result
  obtain ⟨old, there⟩ : ∃ old, prepared.Buckets[index]? = some old := by
    cases ready.looked with
    | free _ bucket here _ _ _ => exact ⟨bucket, here⟩
  refine ⟨_, ?_, ready.insert usable there value, ?_⟩
  · rw [InsertIntoBucket, impl, there]
    rfl
  · rw [length_set]
    exact more

/-- The entries after an insertion that does nothing where the key is there. -/
def emplaced (info : DenseMapInfo Key) (key : Key) (value : Value)
    (contents : List (Key × Value)) : List (Key × Value) :=
  if (valueOf info contents key).isSome then contents else (key, value) :: contents

theorem try_emplace_good (valid : DenseMapKindValid kind) (good : Good info kind map contents)
    (usable : Usable info key) (value : Value)
    (few : (emplaced info key value contents).length < 2 ^ 29) :
    ∃ inserted, try_emplace info kind key value map = some inserted ∧
      Good info kind inserted (emplaced info key value contents) ∧
      map.Buckets.length ≤ inserted.Buckets.length := by
  have absentCase : ∀ slot, LookupBucketFor info map.Buckets key = some (false, slot) →
      valueOf info contents key = none → ∃ inserted,
        try_emplace info kind key value map = some inserted ∧
        Good info kind inserted (emplaced info key value contents) ∧
        map.Buckets.length ≤ inserted.Buckets.length := by
    intro slot result absent
    have new : emplaced info key value contents = (key, value) :: contents := by
      rw [emplaced, absent]
      rfl
    rw [new, length_cons, good.table.length_contents] at few
    obtain ⟨inserted, done, insertedGood, more⟩ :=
      InsertIntoBucket_good valid good usable absent few result value
    refine ⟨inserted, ?_, new ▸ insertedGood, more⟩
    rw [try_emplace, result]
    exact done
  rcases good.table.lookup usable with ⟨_, result, absent⟩ | ⟨index, bucket, old, result, _, _, _, present⟩ |
    ⟨index, result, _, absent⟩
  · exact absentCase none result absent
  · have same : emplaced info key value contents = contents := by
      rw [emplaced, present]
      rfl
    refine ⟨map, ?_, same.symm ▸ good, Nat.le_refl _⟩
    rw [try_emplace, result]
    rfl
  · exact absentCase (some index) result absent

/-! ### Writing and erasing -/

theorem Sound.entries_split {buckets : List (Bucket Key Value)} {index : Nat}
    {bucket : Bucket Key Value} {value : Value} (sound : Sound info buckets)
    (here : buckets[index]? = some bucket) (live : hasValue info bucket = true)
    (second : bucket.second = some value) :
    ∃ before behind, entries info buckets = before ++ (bucket.first, value) :: behind ∧
      (∀ other, entries info (buckets.set index ⟨bucket.first, some other⟩) =
        before ++ (bucket.first, other) :: behind) ∧
      entries info (buckets.set index ⟨info.getTombstoneKey, none⟩) = before ++ behind ∧
      ∀ entry ∈ before ++ behind, info.isEqual bucket.first entry.1 = false := by
  obtain ⟨before, behind, split, replaced⟩ := exists_split here
  have whole : entries info buckets =
      entries info before ++ (bucket.first, value) :: entries info behind := by
    rw [split, entries_append, entries_cons_of_live live second]
  have tombstone : hasValue info (⟨info.getTombstoneKey, none⟩ : Bucket Key Value) = false := by
    rw [hasValue, isTombstone, info.refl, Bool.not_true, Bool.and_false]
  refine ⟨entries info before, entries info behind, whole, ?_, ?_, ?_⟩
  · intro other
    have stays : hasValue info (⟨bucket.first, some other⟩ : Bucket Key Value) = true := live
    rw [replaced, entries_append, entries_cons_of_live stays rfl]
  · rw [replaced, entries_append, entries_cons_of_not tombstone]
  · have distinct := sound.distinct
    rw [whole] at distinct
    exact (pairwise_cons.mp (pairwise_differ perm_middle distinct)).1

def written (info : DenseMapInfo Key) (key : Key) (write : Value → Value)
    (contents : List (Key × Value)) : List (Key × Value) :=
  contents.map fun entry => if info.isEqual key entry.1 then (entry.1, write entry.2) else entry

def erased (info : DenseMapInfo Key) (key : Key) (contents : List (Key × Value)) :
    List (Key × Value) :=
  contents.filter fun entry => !info.isEqual key entry.1

theorem written_split {before behind : List (Key × Value)} {first : Key} {value : Value}
    (same : info.isEqual key first = true)
    (apart : ∀ other ∈ before ++ behind, info.isEqual key other.1 = false) (write : Value → Value) :
    written info key write (before ++ (first, value) :: behind) =
      before ++ (first, write value) :: behind := by
  have stays : ∀ others, (∀ other ∈ others, info.isEqual key other.1 = false) →
      written info key write others = others := by
    intro others differ
    have same : ∀ other ∈ others,
        (if info.isEqual key other.1 then (other.1, write other.2) else other) = id other := by
      intro other member
      rw [differ other member]
      rfl
    rw [written, map_congr_left same, List.map_id]
  have split : written info key write (before ++ (first, value) :: behind) =
      written info key write before ++ (first, write value) :: written info key write behind := by
    rw [written, map_append, map_cons, if_pos same]
    rfl
  rw [split, stays before fun other member => apart other (mem_append_left _ member),
    stays behind fun other member => apart other (mem_append_right _ member)]

theorem erased_split {before behind : List (Key × Value)} {first : Key} {value : Value}
    (same : info.isEqual key first = true)
    (apart : ∀ other ∈ before ++ behind, info.isEqual key other.1 = false) :
    erased info key (before ++ (first, value) :: behind) = before ++ behind := by
  have gone : ¬ (!info.isEqual key first) = true := by
    rw [same]
    exact Bool.false_ne_true
  rw [erased, filter_append, filter_cons, if_neg gone, ← filter_append]
  apply filter_eq_self.mpr
  intro other member
  rw [apart other member]
  rfl

theorem erased_of_absent (absent : valueOf info contents key = none) :
    erased info key contents = contents := by
  apply filter_eq_self.mpr
  intro entry member
  rw [valueOf, Option.map_eq_none_iff, find?_eq_none] at absent
  rw [Bool.not_eq_true', Bool.eq_false_iff]
  exact absent entry member

def subscripted [Inhabited Value] (info : DenseMapInfo Key) (key : Key) (write : Value → Value)
    (contents : List (Key × Value)) : List (Key × Value) :=
  if (valueOf info contents key).isSome then written info key write contents
  else (key, write default) :: contents

theorem Table.sound_of_getElem? {index : Nat} {bucket : Bucket Key Value}
    (table : Table info map contents) (here : map.Buckets[index]? = some bucket) :
    Sound info map.Buckets := by
  rcases table.sound with none | sound
  · rw [none] at here
    cases here
  · exact sound

theorem Good.write {index : Nat} {bucket : Bucket Key Value} {value : Value}
    (good : Good info kind map contents) (here : map.Buckets[index]? = some bucket)
    (usable : Usable info key) (same : info.isEqual key bucket.first = true)
    (second : bucket.second = some value) (write : Value → Value) :
    Good info kind
      { map with
        Buckets := map.Buckets.set index { bucket with second := bucket.second.map write } }
      (written info key write contents) := by
  have live := hasValue_of_isEqual usable same
  have sound := good.table.sound_of_getElem? here
  have reaches := sound.reachable index bucket here live
  obtain ⟨before, behind, whole, after, _, apart⟩ := sound.entries_split here live second
  obtain ⟨front, back, split, replaced⟩ := exists_split here
  have apartKey : ∀ other ∈ before ++ behind, info.isEqual key other.1 = false := by
    intro other member
    rw [isEqual_congr same]
    exact apart other member
  rw [second, Option.map_some]
  have stays : hasValue info (⟨bucket.first, some (write value)⟩ : Bucket Key Value) = true := live
  have holds : (entries info (map.Buckets.set index ⟨bucket.first, some (write value)⟩)).Perm
      (written info key write contents) := by
    rw [after, ← written_split same apartKey write, ← whole]
    exact good.table.holds.map _
  have distinct : (entries info
      (map.Buckets.set index ⟨bucket.first, some (write value)⟩)).Pairwise (Differ info) := by
    have old := sound.distinct
    rw [whole] at old
    rw [after]
    obtain ⟨differ, others⟩ := pairwise_cons.mp (pairwise_differ perm_middle old)
    exact pairwise_differ perm_middle.symm (pairwise_cons.mpr ⟨differ, others⟩)
  refine ⟨⟨Or.inr ?_, holds, ?_, ?_, ?_⟩, good.fits.congr rfl length_set⟩
  · exact sound.set (isEmptyBucket_of_hasValue stays) (fun _ => reaches) stays.symm distinct
  · rw [good.table.live, replaced, split, countP_append, countP_append,
      countP_cons_of_pos stays, countP_cons_of_pos live]
  · have sameKey : isTombstone info (⟨bucket.first, some (write value)⟩ : Bucket Key Value) =
        isTombstone info bucket := rfl
    rw [good.table.tombstones, replaced, split, countP_append, countP_append,
      countP_cons, countP_cons, sameKey]
  · right
    rw [length_set]
    rcases good.table.room with none | room
    · rw [none] at here
      cases here
    · exact room

theorem subscript_good [Inhabited Value] (valid : DenseMapKindValid kind)
    (good : Good info kind map contents) (usable : Usable info key) (write : Value → Value)
    (few : (subscripted info key write contents).length < 2 ^ 29) :
    ∃ inserted, subscript info kind key write map = some inserted ∧
      Good info kind inserted (subscripted info key write contents) ∧
      map.Buckets.length ≤ inserted.Buckets.length := by
  have absentCase : ∀ slot, LookupBucketFor info map.Buckets key = some (false, slot) →
      valueOf info contents key = none → ∃ inserted,
        subscript info kind key write map = some inserted ∧
        Good info kind inserted (subscripted info key write contents) ∧
        map.Buckets.length ≤ inserted.Buckets.length := by
    intro slot result absent
    have new : subscripted info key write contents = (key, write default) :: contents := by
      rw [subscripted, absent]
      rfl
    rw [new, length_cons, good.table.length_contents] at few
    obtain ⟨inserted, done, insertedGood, more⟩ :=
      InsertIntoBucket_good valid good usable absent few result (write default)
    refine ⟨inserted, ?_, new ▸ insertedGood, more⟩
    rw [subscript, result]
    exact done
  rcases good.table.lookup usable with ⟨_, result, absent⟩ |
    ⟨index, bucket, old, result, here, same, second, present⟩ | ⟨index, result, _, absent⟩
  · exact absentCase none result absent
  · have new : subscripted info key write contents = written info key write contents := by
      rw [subscripted, present]
      rfl
    refine ⟨_, ?_, new.symm ▸ good.write here usable same second write, ?_⟩
    · simp only [subscript, result, Option.bind_eq_bind, Option.bind_some, here, if_true]
    · rw [length_set]
  · exact absentCase (some index) result absent

section

variable (good : Good info kind map contents)

include good

theorem Good.erase {index : Nat} {bucket : Bucket Key Value} {value : Value}
    (here : map.Buckets[index]? = some bucket)
    (usable : Usable info key) (same : info.isEqual key bucket.first = true)
    (second : bucket.second = some value) :
    Good info kind
      ⟨map.Small, map.Buckets.set index ⟨info.getTombstoneKey, none⟩, map.NumEntries - 1,
        map.NumTombstones + 1⟩
      (erased info key contents) := by
  have live := hasValue_of_isEqual usable same
  have sound := good.table.sound_of_getElem? here
  obtain ⟨before, behind, whole, _, after, apart⟩ := sound.entries_split here live second
  obtain ⟨front, back, split, replaced⟩ := exists_split here
  have apartKey : ∀ other ∈ before ++ behind, info.isEqual key other.1 = false := by
    intro other member
    rw [isEqual_congr same]
    exact apart other member
  have tombstone : isTombstone info (⟨info.getTombstoneKey, none⟩ : Bucket Key Value) = true :=
    info.refl _
  obtain ⟨filled, without⟩ :
      isEmptyBucket info (⟨info.getTombstoneKey, none⟩ : Bucket Key Value) = false ∧
        hasValue info (⟨info.getTombstoneKey, none⟩ : Bucket Key Value) = false := by
    rcases bucket_cases info (⟨info.getTombstoneKey, none⟩ : Bucket Key Value) with
      ⟨_, not, _⟩ | ⟨filled, _, without⟩ | ⟨_, not, _⟩
    · rw [tombstone] at not
      cases not
    · exact ⟨filled, without⟩
    · rw [tombstone] at not
      cases not
  have notTombstone : ¬ isTombstone info bucket = true := by
    rcases bucket_cases info bucket with ⟨_, _, not⟩ | ⟨_, _, not⟩ | ⟨_, not, _⟩
    · rw [live] at not
      cases not
    · rw [live] at not
      cases not
    · exact Bool.eq_false_iff.mp not
  have holds : (entries info (map.Buckets.set index ⟨info.getTombstoneKey, none⟩)).Perm
      (erased info key contents) := by
    rw [after, ← erased_split same apartKey, ← whole]
    exact good.table.holds.filter _
  have distinct : (entries info
      (map.Buckets.set index ⟨info.getTombstoneKey, none⟩)).Pairwise (Differ info) := by
    have old := sound.distinct
    rw [whole] at old
    rw [after]
    exact (pairwise_cons.mp (pairwise_differ perm_middle old)).2
  have liveCount : map.NumEntries =
      (map.Buckets.set index ⟨info.getTombstoneKey, none⟩).countP (hasValue info) + 1 := by
    rw [good.table.live, replaced, split, countP_append, countP_append,
      countP_cons_of_pos live, countP_cons_of_neg (Bool.eq_false_iff.mp without)]
    omega
  have tombstoneCount : map.NumTombstones + 1 =
      (map.Buckets.set index ⟨info.getTombstoneKey, none⟩).countP (isTombstone info) := by
    rw [good.table.tombstones, replaced, split, countP_append, countP_append,
      countP_cons_of_pos tombstone, countP_cons_of_neg notTombstone]
    omega
  refine ⟨⟨Or.inr ?_, holds, ?_, ?_, ?_⟩, good.fits.congr rfl length_set⟩
  · refine sound.set filled ?_ without.symm distinct
    rw [without]
    exact fun live => absurd live Bool.false_ne_true
  · exact Nat.sub_eq_of_eq_add liveCount
  · exact tombstoneCount
  · right
    rw [length_set]
    rcases good.table.room with none | room
    · rw [none] at here
      cases here
    · change map.NumEntries - 1 + (map.NumTombstones + 1) < map.Buckets.length
      omega

theorem erase_good (usable : Usable info key) :
    ∃ rest, erase info key map = some rest ∧ Good info kind rest (erased info key contents) := by
  rcases good.table.lookup usable with ⟨_, result, absent⟩ |
    ⟨index, bucket, old, result, here, same, second, _⟩ | ⟨index, result, _, absent⟩
  · refine ⟨map, ?_, (erased_of_absent absent).symm ▸ good⟩
    rw [DenseMap.erase, result]
    rfl
  · refine ⟨_, ?_, good.erase here usable same second⟩
    rw [DenseMap.erase, result]
    rfl
  · refine ⟨map, ?_, (erased_of_absent absent).symm ▸ good⟩
    rw [DenseMap.erase, result]
    rfl

theorem Good.contents_nil (none : map.NumEntries = 0) :
    contents = [] := by
  apply length_eq_zero_iff.mp
  rw [good.table.length_contents, none]

theorem Good.size_cases :
    map.Buckets.length = 0 ∨ IsSize map.Buckets.length := by
  rcases good.length_cases with ⟨none, _⟩ | ⟨isSize, _⟩
  · exact Or.inl (length_eq_zero_iff.mpr none)
  · exact Or.inr isSize

theorem Good.initEmpty :
    Good info kind (initEmpty info map.Small map.getNumBuckets : DenseMap Key Value) [] :=
  ⟨table_initEmpty map.Small good.size_cases, good.fits.congr rfl (length_initEmpty ..)⟩

end

theorem isSize_two_pow_Log2_32_Ceil {number : Nat} (some : number ≠ 0) (few : number < 2 ^ 29) :
    IsSize (2 ^ (Log2_32_Ceil number + 1)) := by
  refine ⟨_, ?_, rfl⟩
  rw [Log2_32_Ceil, if_neg some]
  by_cases one : number = 1
  · rw [if_pos one]
    omega
  · rw [if_neg one]
    have bound : (number - 1).log2 < 29 := (Nat.log2_lt (by omega)).mpr (by omega)
    omega

section

variable (valid : DenseMapKindValid kind) (good : Good info kind map contents)

include valid good

theorem shrink_and_clear_good
    (few : map.NumEntries < 2 ^ 29) : Good info kind (shrink_and_clear info kind map) [] := by
  cases kind with
  | dense =>
      simp only [shrink_and_clear]
      generalize (if map.NumEntries = 0 then 0 else
        max 64 (if map.NumEntries = 0 then 0 else 2 ^ (Log2_32_Ceil map.NumEntries + 1))) = wanted
      by_cases same : wanted = map.getNumBuckets
      · rw [if_pos same]
        exact good.initEmpty
      · rw [if_neg same]
        exact good_init valid (Or.inl rfl)
  | small InlineBuckets =>
      have wanted : (if map.NumEntries = 0 then 0 else 2 ^ (Log2_32_Ceil map.NumEntries + 1)) = 0 ∨
          IsSize (if map.NumEntries = 0 then 0 else 2 ^ (Log2_32_Ceil map.NumEntries + 1)) := by
        by_cases none : map.NumEntries = 0
        · rw [if_pos none]
          exact Or.inl rfl
        · rw [if_neg none]
          exact Or.inr (isSize_two_pow_Log2_32_Ceil none few)
      simp only [shrink_and_clear]
      generalize (if map.NumEntries = 0 then 0 else 2 ^ (Log2_32_Ceil map.NumEntries + 1)) =
        number at wanted
      have size : (if number > InlineBuckets ∧ number < 64 then 64 else number) = 0 ∨
          IsSize (if number > InlineBuckets ∧ number < 64 then 64 else number) := by
        split
        · exact Or.inr isSize_64
        · exact wanted
      generalize (if number > InlineBuckets ∧ number < 64 then 64 else number) = rounded at size
      split
      · exact good.initEmpty
      · exact good_init valid (Or.inr size)

theorem clear_good
    (few : map.NumEntries < 2 ^ 29) : Good info kind (clear info kind map) [] := by
  unfold clear
  by_cases none : map.NumEntries = 0 ∧ map.NumTombstones = 0
  · rw [if_pos none]
    exact good.contents_nil none.1 ▸ good
  rw [if_neg none]
  split
  · exact shrink_and_clear_good valid good few
  · have same : (map.Buckets.map fun _ => (⟨info.getEmptyKey, Option.none⟩ : Bucket Key Value)) =
        emptyBuckets info map.getNumBuckets := map_const' ..
    rw [same]
    exact good.initEmpty

theorem reserve_good
    (NumEntries : Nat) :
    ∃ reserved, reserve info kind NumEntries map = some reserved ∧
      Good info kind reserved contents ∧
      getMinBucketToReserveForEntries NumEntries ≤ reserved.Buckets.length := by
  unfold reserve getNumBuckets
  by_cases more : getMinBucketToReserveForEntries NumEntries > map.Buckets.length
  · have isSize : IsSize (getMinBucketToReserveForEntries NumEntries) := by
      rcases getMinBucketToReserveForEntries_spec NumEntries with ⟨_, none⟩ | ⟨isSize, _⟩
      · omega
      · exact isSize
    have larger := le_grownSize kind (getMinBucketToReserveForEntries NumEntries)
    have room : map.NumEntries ≤ map.Buckets.length := by
      rw [good.table.live]
      exact List.countP_le_length
    obtain ⟨grown, result, grownGood, length, _, _⟩ :=
      grow_good valid good (Or.inr isSize) (by omega)
    simp only [if_pos more]
    exact ⟨grown, result, grownGood, by omega⟩
  · simp only [if_neg more]
    exact ⟨map, rfl, good, by omega⟩

end

/-! ### Copying and swapping -/

theorem copyFrom_eq (good : Good info kind map contents) : copyFrom kind map = map := by
  obtain ⟨Small, Buckets, NumEntries, NumTombstones⟩ := map
  have fits := good.fits
  cases kind with
  | dense =>
      obtain ⟨small, _⟩ := fits
      cases small
      unfold copyFrom getNumBuckets
      by_cases none : Buckets.length = 0
      · have nil := length_eq_zero_iff.mp none
        subst nil
        have live := good.table.live
        have tombstones := good.table.tombstones
        cases live
        cases tombstones
        rfl
      · simp only [if_neg none]
  | small InlineBuckets =>
      unfold copyFrom getNumBuckets
      rcases fits.2 with ⟨small, same⟩ | ⟨small, more⟩
      · cases small
        simp only [same, gt_iff_lt, Nat.lt_irrefl, not_false_eq_true, decide_true]
      · cases small
        simp only [gt_iff_lt, more, not_true_eq_false, decide_false]

theorem swapInline_eq {left right : Bucket Key Value}
    (leftValue : left.second.isSome = hasValue info left)
    (rightValue : right.second.isSome = hasValue info right) :
    swapInline info left right = (right, left) := by
  obtain ⟨leftFirst, leftSecond⟩ := left
  obtain ⟨rightFirst, rightSecond⟩ := right
  unfold swapInline
  rw [← leftValue, ← rightValue]
  cases leftSecond <;> cases rightSecond <;> rfl

theorem zipWith_swapInline {left right : List (Bucket Key Value)}
    (length : left.length = right.length)
    (leftValues : ∀ bucket ∈ left, bucket.second.isSome = hasValue info bucket)
    (rightValues : ∀ bucket ∈ right, bucket.second.isSome = hasValue info bucket) :
    (List.zipWith (swapInline info) left right).map Prod.fst = right ∧
      (List.zipWith (swapInline info) left right).map Prod.snd = left := by
  induction left generalizing right with
  | nil =>
      rw [length_nil] at length
      have nil : right = [] := length_eq_zero_iff.mp length.symm
      subst nil
      exact ⟨rfl, rfl⟩
  | cons first rest ih =>
      cases right with
      | nil => cases length
      | cons other others =>
          obtain ⟨fsts, snds⟩ := ih (Nat.succ.inj length)
            (fun bucket member => leftValues bucket (mem_cons_of_mem _ member))
            (fun bucket member => rightValues bucket (mem_cons_of_mem _ member))
          rw [zipWith_cons_cons, swapInline_eq (leftValues first mem_cons_self)
            (rightValues other mem_cons_self), map_cons, map_cons, fsts, snds]
          exact ⟨rfl, rfl⟩

theorem Table.values (table : Table info map contents) :
    ∀ bucket ∈ map.Buckets, bucket.second.isSome = hasValue info bucket := by
  rcases table.sound with none | sound
  · rw [none]
    exact fun _ member => absurd member not_mem_nil
  · exact sound.values

section

variable (good : Good info kind map contents)

include good

theorem swap_eq {other : DenseMap Key Value} {others : List (Key × Value)}
    (otherGood : Good info kind other others) :
    swap info map other = (other, map) := by
  unfold swap
  by_cases both : (map.Small && other.Small) = true
  · rw [if_pos both]
    rw [Bool.and_eq_true] at both
    have length : map.Buckets.length = other.Buckets.length := by
      have fits := good.fits
      have otherFits := otherGood.fits
      cases kind with
      | dense =>
          rw [fits.1] at both
          cases both.1
      | small InlineBuckets =>
          rcases fits.2 with ⟨_, same⟩ | ⟨large, _⟩
          · rcases otherFits.2 with ⟨_, otherSame⟩ | ⟨large, _⟩
            · exact same.trans otherSame.symm
            · rw [large] at both
              cases both.2
          · rw [large] at both
            cases both.1
    obtain ⟨fsts, snds⟩ := zipWith_swapInline length good.table.values otherGood.table.values
    simp only [fsts, snds]
    nth_rewrite 1 [← both.2]
    rw [← both.1]
  · rw [if_neg both]

theorem find_eq (usable : Usable info key) :
    find info key map = some (valueOf info contents key) := by
  rcases good.table.lookup usable with ⟨_, result, absent⟩ |
    ⟨index, bucket, value, result, here, _, second, present⟩ | ⟨index, result, _, absent⟩
  · rw [find, result, absent]
    rfl
  · rw [find, result, present]
    simp only [Option.bind_eq_bind, Option.bind_some, here, second, if_true]
  · rw [find, result, absent]
    rfl

theorem count_eq (usable : Usable info key) :
    count info key map = some (if (valueOf info contents key).isSome then 1 else 0) := by
  rcases good.table.lookup usable with ⟨_, result, absent⟩ |
    ⟨index, bucket, value, result, _, _, _, present⟩ | ⟨index, result, _, absent⟩
  · rw [count, result, absent]
    rfl
  · rw [count, result, present]
    rfl
  · rw [count, result, absent]
    rfl

theorem lookup_eq [Inhabited Value]
    (usable : Usable info key) :
    lookup info key map = some ((valueOf info contents key).getD default) := by
  rw [lookup, find_eq good usable, Option.map_some]

end

end EvmBackend.DenseMap
