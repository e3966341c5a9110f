/-
The sizes of tables, and how a map grows before a key is inserted.

Sizes stay powers of two up to 2^31. With fewer than 2^29 entries none of the
32-bit comparisons that decide about growing wraps in a way that matters.
-/

import EvmBackend.ADT.DenseMap.Tables

namespace EvmBackend.DenseMap

open List

variable {Key Value : Type}

theorem NextPowerOf2_spec (A : Nat) :
    ∃ bits, NextPowerOf2 A = 2 ^ bits ∧ A < 2 ^ bits ∧ ∀ more, A < 2 ^ more → bits ≤ more := by
  unfold NextPowerOf2
  by_cases zero : A = 0
  · rw [if_pos zero]
    exact ⟨0, rfl, by omega, fun _ _ => Nat.zero_le _⟩
  · rw [if_neg zero]
    refine ⟨A.log2 + 1, rfl, Nat.lt_log2_self, ?_⟩
    intro more below
    exact (Nat.log2_lt zero).mpr below

theorem u32_of_lt {number : Nat} (small : number < 2 ^ 32) : u32 number = number :=
  Nat.mod_eq_of_lt small

def IsSize (size : Nat) : Prop := ∃ bits, bits ≤ 31 ∧ size = 2 ^ bits

variable {size : Nat}

theorem IsSize.bounds (isSize : IsSize size) : 0 < size ∧ size ≤ 2 ^ 31 := by
  obtain ⟨bits, most, rfl⟩ := isSize
  exact ⟨Nat.two_pow_pos bits, Nat.pow_le_pow_right (by omega) most⟩

theorem IsSize.power (isSize : IsSize size) : ∃ bits, size = 2 ^ bits := by
  obtain ⟨bits, _, same⟩ := isSize
  exact ⟨bits, same⟩

theorem isSize_64 : IsSize 64 := ⟨6, by omega, rfl⟩

theorem IsSize.max {other : Nat} (isSize : IsSize size) (otherSize : IsSize other) :
    IsSize (max size other) := by
  rcases Nat.le_total size other with less | less
  · rw [Nat.max_eq_right less]
    exact otherSize
  · rw [Nat.max_eq_left less]
    exact isSize

theorem IsSize.double (isSize : IsSize size) (half : size < 2 ^ 31) : IsSize (size * 2) := by
  obtain ⟨bits, most, rfl⟩ := isSize
  have less : bits < 31 := (Nat.pow_lt_pow_iff_right (by omega)).mp half
  exact ⟨bits + 1, less, (Nat.pow_succ ..).symm⟩

theorem getMinBucketToReserveForEntries_spec (number : Nat) :
    (number = 0 ∧ getMinBucketToReserveForEntries number = 0) ∨
      (IsSize (getMinBucketToReserveForEntries number) ∧
        (number < 2 ^ 29 → number * 4 < getMinBucketToReserveForEntries number * 3)) := by
  unfold getMinBucketToReserveForEntries
  by_cases zero : number = 0
  · rw [if_pos zero]
    exact Or.inl ⟨zero, rfl⟩
  rw [if_neg zero]
  right
  have wrapped : u32 (number * 4) < 2 ^ 32 := Nat.mod_lt _ (by omega)
  obtain ⟨bits, next, above, least⟩ := NextPowerOf2_spec (u32 (number * 4) / 3 + 1)
  have most : bits ≤ 31 := least 31 (by omega)
  have isSize : IsSize (2 ^ bits) := ⟨bits, most, rfl⟩
  have bounds := isSize.bounds
  rw [next, u32_of_lt (by omega)]
  refine ⟨isSize, ?_⟩
  intro few
  rw [u32_of_lt (show number * 4 < 2 ^ 32 by omega)] at above
  omega

theorem allocationSize_zero : allocationSize 0 = 64 := by
  have next : NextPowerOf2 (2 ^ 32 - 1) = 2 ^ 32 := by
    obtain ⟨bits, same, above, least⟩ := NextPowerOf2_spec (2 ^ 32 - 1)
    have most := least 32 (by omega)
    have low : 32 ≤ bits := by
      by_contra small
      have bound : 2 ^ bits ≤ 2 ^ 31 := Nat.pow_le_pow_right (by omega) (by omega)
      omega
    rw [same, Nat.le_antisymm most low]
  have argument : u32 (0 + 2 ^ 32 - 1) = 2 ^ 32 - 1 := by decide
  rw [allocationSize, argument, next]
  decide

theorem allocationSize_of_isSize (isSize : IsSize size) : allocationSize size = max 64 size := by
  have bounds := isSize.bounds
  obtain ⟨bits, most, rfl⟩ := isSize
  have argument : u32 (2 ^ bits + 2 ^ 32 - 1) = 2 ^ bits - 1 := by
    unfold u32
    omega
  obtain ⟨other, same, above, least⟩ := NextPowerOf2_spec (2 ^ bits - 1)
  have low : bits ≤ other := by
    by_contra small
    have bound : 2 ^ (other + 1) ≤ 2 ^ bits := Nat.pow_le_pow_right (by omega) (by omega)
    rw [Nat.pow_succ] at bound
    have positive := Nat.two_pow_pos other
    omega
  have high : other ≤ bits := least bits (by omega)
  rw [allocationSize, argument, same, Nat.le_antisymm high low, u32_of_lt (by omega)]

def DenseMapKindValid : DenseMapKind → Prop
  | .dense => True
  | .small InlineBuckets => IsSize InlineBuckets

/-- The number of buckets fits the class: a small map has its inline buckets, any other
one has more. -/
def FitsKind : DenseMapKind → DenseMap Key Value → Prop
  | .dense, map => map.Small = false ∧ (map.Buckets.length = 0 ∨ IsSize map.Buckets.length)
  | .small InlineBuckets, map => IsSize map.Buckets.length ∧
      (map.Small = true ∧ map.Buckets.length = InlineBuckets ∨
        map.Small = false ∧ InlineBuckets < map.Buckets.length)

structure Good (info : DenseMapInfo Key) (kind : DenseMapKind) (map : DenseMap Key Value)
    (contents : List (Key × Value)) : Prop where
  table : Table info map contents
  fits : FitsKind kind map

variable {info : DenseMapInfo Key} {kind : DenseMapKind} {map : DenseMap Key Value}
  {contents : List (Key × Value)}

theorem Good.length_cases (good : Good info kind map contents) :
    map.Buckets = [] ∧ map.NumEntries = 0 ∨
      IsSize map.Buckets.length ∧ map.NumEntries + map.NumTombstones < map.Buckets.length := by
  rcases good.table.room with none | room
  · left
    refine ⟨none, ?_⟩
    rw [good.table.live, none]
    rfl
  · right
    refine ⟨?_, room⟩
    have fits := good.fits
    cases kind with
    | dense => exact fits.2.resolve_left (by omega)
    | small InlineBuckets => exact fits.1

theorem table_initEmpty (small : Bool) (isSize : size = 0 ∨ IsSize size) :
    Table info (initEmpty info small size : DenseMap Key Value) [] := by
  obtain ⟨live, tombstones⟩ := countP_emptyBuckets info Value size
  refine ⟨?_, ?_, live.symm, tombstones.symm, ?_⟩
  · rcases isSize with rfl | isSize
    · exact Or.inl rfl
    · exact Or.inr (sound_emptyBuckets isSize.power)
  · rw [initEmpty, entries_emptyBuckets]
  · rcases isSize with rfl | isSize
    · exact Or.inl rfl
    · right
      change 0 + 0 < (emptyBuckets info size).length
      rw [emptyBuckets, length_replicate]
      exact isSize.bounds.1

theorem length_initEmpty (small : Bool) (size : Nat) :
    (initEmpty info small size : DenseMap Key Value).Buckets.length = size :=
  length_replicate

theorem good_init (valid : DenseMapKindValid kind) {number : Nat}
    (isSize : kind = .dense ∨ number = 0 ∨ IsSize number) :
    Good info kind (init info kind number : DenseMap Key Value) [] := by
  cases kind with
  | dense =>
      have size : getMinBucketToReserveForEntries number = 0 ∨
          IsSize (getMinBucketToReserveForEntries number) := by
        rcases getMinBucketToReserveForEntries_spec number with ⟨_, none⟩ | ⟨some, _⟩
        · exact Or.inl none
        · exact Or.inr some
      refine ⟨table_initEmpty false size, rfl, ?_⟩
      rw [init, length_initEmpty]
      exact size
  | small InlineBuckets =>
      have positive := IsSize.bounds valid
      unfold init
      by_cases large : number > InlineBuckets
      · have some : IsSize number := (isSize.resolve_left (by simp)).resolve_left (by omega)
        simp only [if_pos large]
        refine ⟨table_initEmpty false (Or.inr some), ?_, Or.inr ⟨rfl, ?_⟩⟩
        · rw [length_initEmpty]
          exact some
        · rw [length_initEmpty]
          exact large
      · simp only [if_neg large]
        refine ⟨table_initEmpty true (Or.inr valid), ?_, Or.inl ⟨rfl, ?_⟩⟩
        · rw [length_initEmpty]
          exact valid
        · exact length_initEmpty true InlineBuckets

/-! ### Growing -/

theorem moveFromOldBuckets_table {old : List (Bucket Key Value)} (small : Bool)
    (isSize : IsSize size) (values : ∀ bucket ∈ old, bucket.second.isSome = hasValue info bucket)
    (distinct : (entries info old).Pairwise (Differ info))
    (room : old.countP (hasValue info) < size) :
    ∃ moved, moveFromOldBuckets info small size old = some moved ∧
      Table info moved (entries info old) ∧ moved.Small = small ∧ moved.Buckets.length = size ∧
      moved.NumEntries = old.countP (hasValue info) ∧ moved.NumTombstones = 0 := by
  obtain ⟨live, tombstones⟩ := countP_emptyBuckets info Value size
  have length : (emptyBuckets info size : List (Bucket Key Value)).length = size :=
    length_replicate
  obtain ⟨buckets, result, sound, sameLength, none, all⟩ := moveBuckets_moves
    (sound_emptyBuckets isSize.power) tombstones values
    (by rw [entries_emptyBuckets, append_nil]; exact distinct) (by omega) 0
  rw [entries_emptyBuckets, append_nil] at all
  rw [length] at sameLength
  have moved : buckets.countP (hasValue info) = old.countP (hasValue info) := by
    rw [← length_entries sound.values, ← length_entries values]
    exact all.length_eq
  refine ⟨⟨small, buckets, old.countP (hasValue info), 0⟩, ?_, ?_, rfl, sameLength, rfl, rfl⟩
  · rw [moveFromOldBuckets, result, Nat.zero_add]
    rfl
  · refine ⟨Or.inr sound, all, moved.symm, none.symm, Or.inr ?_⟩
    change old.countP (hasValue info) + 0 < buckets.length
    omega

theorem entries_filter (old : List (Bucket Key Value)) :
    entries info (old.filter (hasValue info)) = entries info old := by
  induction old with
  | nil => rfl
  | cons bucket old ih =>
      cases live : hasValue info bucket with
      | true =>
          rw [filter_cons_of_pos live, entries, filterMap_cons]
          rw [entries, filterMap_cons]
          rw [entries, entries] at ih
          rw [ih]
      | false =>
          rw [filter_cons_of_neg (Bool.eq_false_iff.mp live), entries_cons_of_not live, ih]

def grownSize : DenseMapKind → Nat → Nat
  | .dense, AtLeast => max 64 AtLeast
  | .small InlineBuckets, AtLeast =>
      if AtLeast > InlineBuckets then max 64 AtLeast else InlineBuckets

theorem moveFromOldBuckets_good (good : Good info kind map contents)
    {old : List (Bucket Key Value)}
    (copied : old = map.Buckets ∨ old = map.Buckets.filter (hasValue info)) (small : Bool)
    (isSize : IsSize size) (room : map.NumEntries < size) :
    ∃ moved, moveFromOldBuckets info small size old = some moved ∧
      Table info moved contents ∧ moved.Small = small ∧ moved.Buckets.length = size ∧
      moved.NumEntries = map.NumEntries ∧ moved.NumTombstones = 0 := by
  have values : ∀ bucket ∈ map.Buckets, bucket.second.isSome = hasValue info bucket := by
    rcases good.table.sound with none | sound
    · rw [none]
      exact fun _ member => absurd member not_mem_nil
    · exact sound.values
  have distinct : (entries info map.Buckets).Pairwise (Differ info) :=
    pairwise_differ good.table.holds.symm good.table.distinct
  have sameEntries : entries info old = entries info map.Buckets := by
    rcases copied with rfl | rfl
    · rfl
    · exact entries_filter map.Buckets
  have oldValues : ∀ bucket ∈ old, bucket.second.isSome = hasValue info bucket := by
    rcases copied with rfl | rfl
    · exact values
    · intro bucket member
      exact values bucket (mem_of_mem_filter member)
  have live : old.countP (hasValue info) = map.NumEntries := by
    rw [good.table.live, ← length_entries values, ← length_entries oldValues, sameEntries]
  obtain ⟨moved, result, table, sameSmall, length, number, fresh⟩ :=
    moveFromOldBuckets_table small isSize oldValues (by rw [sameEntries]; exact distinct)
      (by rw [live]; exact room)
  rw [sameEntries] at table
  rw [live] at number
  exact ⟨moved, result, ⟨table.sound, table.holds.trans good.table.holds, table.live,
    table.tombstones, table.room⟩, sameSmall, length, number, fresh⟩

theorem grow_good (valid : DenseMapKindValid kind) (good : Good info kind map contents)
    {AtLeast : Nat} (isSize : AtLeast = 0 ∧ map.Buckets = [] ∨ IsSize AtLeast)
    (room : map.NumEntries < grownSize kind AtLeast) :
    ∃ grown, grow info kind AtLeast map = some grown ∧ Good info kind grown contents ∧
      grown.Buckets.length = grownSize kind AtLeast ∧ grown.NumEntries = map.NumEntries ∧
      grown.NumTombstones = 0 := by
  cases kind with
  | dense =>
      have size : allocationSize AtLeast = max 64 AtLeast := by
        rcases isSize with ⟨rfl, _⟩ | isSize
        · exact allocationSize_zero
        · exact allocationSize_of_isSize isSize
      have grownIs : IsSize (max 64 AtLeast) := by
        rcases isSize with ⟨rfl, _⟩ | isSize
        · exact isSize_64
        · exact isSize_64.max isSize
      unfold grow
      simp only [size]
      by_cases none : map.Buckets.length = 0
      · rw [if_pos none]
        have nil : map.Buckets = [] := length_eq_zero_iff.mp none
        have noEntries : map.NumEntries = 0 := by
          rw [good.table.live, nil]
          rfl
        have noContents : contents = [] := by
          apply length_eq_zero_iff.mp
          rw [good.table.length_contents, noEntries]
        rw [noContents]
        refine ⟨_, rfl, ⟨table_initEmpty false (Or.inr grownIs), rfl, Or.inr ?_⟩, ?_,
          noEntries.symm, rfl⟩
        · rw [length_initEmpty]
          exact grownIs
        · exact length_initEmpty false _
      · rw [if_neg none]
        obtain ⟨moved, result, table, small, length, number, fresh⟩ :=
          moveFromOldBuckets_good good (Or.inl rfl) false grownIs room
        refine ⟨moved, result, ⟨table, small, Or.inr ?_⟩, length, number, fresh⟩
        rw [length]
        exact grownIs
  | small InlineBuckets =>
      have isSize : IsSize AtLeast := by
        rcases isSize with ⟨_, none⟩ | isSize
        · have positive := good.fits.1.bounds.1
          rw [none] at positive
          cases positive
        · exact isSize
      have copied : (if map.Small then map.Buckets.filter (hasValue info) else map.Buckets) =
          map.Buckets ∨ (if map.Small then map.Buckets.filter (hasValue info) else map.Buckets) =
            map.Buckets.filter (hasValue info) := by
        split
        · exact Or.inr rfl
        · exact Or.inl rfl
      unfold grow
      simp only [allocationSize_of_isSize isSize]
      by_cases large : AtLeast > InlineBuckets
      · have grownIs : IsSize (max 64 AtLeast) := isSize_64.max isSize
        have most : max 64 AtLeast > InlineBuckets :=
          Nat.lt_of_lt_of_le large (Nat.le_max_right ..)
        rw [grownSize, if_pos large] at room
        rw [if_pos large, if_pos most]
        obtain ⟨moved, result, table, small, length, number, fresh⟩ :=
          moveFromOldBuckets_good good copied false grownIs room
        refine ⟨moved, result, ⟨table, ?_, Or.inr ⟨small, ?_⟩⟩, ?_, number, fresh⟩
        · rw [length]
          exact grownIs
        · rw [length]
          exact most
        · rw [length, grownSize, if_pos large]
      · rw [grownSize, if_neg large] at room
        rw [if_neg large, if_neg large]
        obtain ⟨moved, result, table, small, length, number, fresh⟩ :=
          moveFromOldBuckets_good good copied true valid room
        refine ⟨moved, result, ⟨table, ?_, Or.inl ⟨small, length⟩⟩, ?_, number, fresh⟩
        · rw [length]
          exact valid
        · rw [length, grownSize, if_neg large]

/-! ### Inserting -/

theorem Good.lookup_free {key : Key} (good : Good info kind map contents)
    (usable : Usable info key) (absent : valueOf info contents key = none)
    (some : 0 < map.Buckets.length) :
    ∃ index, LookupBucketFor info map.Buckets key = Option.some (false, Option.some index) ∧
      Looked info map.Buckets key false index := by
  rcases good.table.lookup usable with ⟨none, _, _⟩ | ⟨_, _, value, _, _, _, _, there⟩ |
    ⟨index, result, looked, _⟩
  · rw [none] at some
    cases some
  · rw [absent] at there
    cases there
  · exact ⟨index, result, looked⟩

theorem Good.growsForLoad_bound (good : Good info kind map contents)
    (few : map.NumEntries + 1 < 2 ^ 29) (load : map.growsForLoad) :
    map.Buckets.length ≤ 2 ^ 29 := by
  rcases good.length_cases with ⟨none, _⟩ | ⟨⟨bits, most, size⟩, _⟩
  · rw [none]
    exact Nat.zero_le _
  by_contra many
  have bound : 29 < bits := by
    rw [size] at many
    exact (Nat.pow_lt_pow_iff_right (by omega)).mp (show 2 ^ 29 < 2 ^ bits by omega)
  have cases : bits = 30 ∨ bits = 31 := by omega
  unfold growsForLoad getNumBuckets u32 at load
  rw [size] at load
  rcases cases with rfl | rfl <;> omega

theorem lt_of_not_growsForLoad
    (few : map.NumEntries + 1 < 2 ^ 29) (load : ¬ map.growsForLoad) :
    (map.NumEntries + 1) * 4 < map.Buckets.length * 3 := by
  unfold growsForLoad getNumBuckets at load
  rw [u32_of_lt (show (map.NumEntries + 1) * 4 < 2 ^ 32 by omega)] at load
  have wrapped : u32 (map.Buckets.length * 3) ≤ map.Buckets.length * 3 := Nat.mod_le ..
  omega

theorem le_grownSize (kind : DenseMapKind) (AtLeast : Nat) : AtLeast ≤ grownSize kind AtLeast := by
  cases kind with
  | dense => exact Nat.le_max_right ..
  | small InlineBuckets =>
      rw [grownSize]
      by_cases large : AtLeast > InlineBuckets
      · rw [if_pos large]
        exact Nat.le_max_right ..
      · rw [if_neg large]
        exact Nat.le_of_not_lt large

/-- A map in which a new key can be put into a free bucket. -/
structure Prepared (info : DenseMapInfo Key) (kind : DenseMapKind) (map : DenseMap Key Value)
    (contents : List (Key × Value)) (key : Key) (index : Nat) : Prop where
  good : Good info kind map contents
  looked : Looked info map.Buckets key false index
  room : map.NumEntries + 1 + map.NumTombstones < map.Buckets.length

theorem grow_prepared {key : Key} (valid : DenseMapKindValid kind)
    (good : Good info kind map contents) (usable : Usable info key)
    (absent : valueOf info contents key = none) {AtLeast : Nat}
    (isSize : AtLeast = 0 ∧ map.Buckets = [] ∨ IsSize AtLeast)
    (room : map.NumEntries + 1 < grownSize kind AtLeast) :
    ∃ index prepared, grow info kind AtLeast map = some prepared ∧
      LookupBucketFor info prepared.Buckets key = some (false, some index) ∧
      Prepared info kind prepared contents key index ∧
      prepared.Buckets.length = grownSize kind AtLeast := by
  obtain ⟨prepared, result, preparedGood, length, number, fresh⟩ :=
    grow_good valid good isSize (by omega)
  obtain ⟨index, found, looked⟩ := preparedGood.lookup_free usable absent (by omega)
  exact ⟨index, prepared, result, found, ⟨preparedGood, looked, by omega⟩, length⟩

theorem InsertIntoBucketImpl_prepared {key : Key} (valid : DenseMapKindValid kind)
    (good : Good info kind map contents) (usable : Usable info key)
    (absent : valueOf info contents key = none) (few : map.NumEntries + 1 < 2 ^ 29)
    {slot : Option Nat} (result : LookupBucketFor info map.Buckets key = some (false, slot)) :
    ∃ index prepared, Prepared info kind prepared contents key index ∧
      map.Buckets.length ≤ prepared.Buckets.length ∧
      InsertIntoBucketImpl info kind key slot map = (prepared.Buckets[index]?).bind fun old =>
        some (index, { prepared with
          NumEntries := prepared.NumEntries + 1
          NumTombstones := if isEmptyBucket info old then prepared.NumTombstones
            else prepared.NumTombstones - 1 }) := by
  rcases good.length_cases with ⟨none, noEntries⟩ | ⟨isSize, room⟩
  · -- Without buckets the first insertion allocates them.
    have load : map.growsForLoad := by
      unfold growsForLoad getNumBuckets
      rw [none]
      exact Nat.zero_le _
    have double : u32 (map.getNumBuckets * 2) = 0 := by
      rw [getNumBuckets, none]
      rfl
    obtain ⟨index, prepared, grown, found, ready, length⟩ :=
      grow_prepared valid good usable absent (Or.inl ⟨rfl, none⟩)
        (by cases kind with
          | dense =>
              rw [noEntries, grownSize]
              omega
          | small InlineBuckets =>
              have positive := good.fits.1.bounds.1
              rw [none] at positive
              cases positive)
    refine ⟨index, prepared, ready, by rw [none]; exact Nat.zero_le _, ?_⟩
    rw [InsertIntoBucketImpl, if_pos load, double, grown]
    simp only [Option.bind_eq_bind, Option.bind_some, found]
  by_cases load : map.growsForLoad
  · have bound := good.growsForLoad_bound few load
    have double : u32 (map.getNumBuckets * 2) = map.Buckets.length * 2 :=
      u32_of_lt (by unfold getNumBuckets; omega)
    have larger := le_grownSize kind (map.Buckets.length * 2)
    obtain ⟨index, prepared, grown, found, ready, length⟩ :=
      grow_prepared valid good usable absent (Or.inr (isSize.double (by omega))) (by omega)
    refine ⟨index, prepared, ready, by omega, ?_⟩
    rw [InsertIntoBucketImpl, if_pos load, double, grown]
    simp only [Option.bind_eq_bind, Option.bind_some, found]
  have light := lt_of_not_growsForLoad few load
  by_cases crowded : map.growsForTombstones
  · have larger := le_grownSize kind map.Buckets.length
    obtain ⟨index, prepared, grown, found, ready, length⟩ :=
      grow_prepared valid good usable absent (Or.inr isSize) (by omega)
    refine ⟨index, prepared, ready, by omega, ?_⟩
    rw [InsertIntoBucketImpl, if_neg load, if_pos crowded, getNumBuckets, grown]
    simp only [Option.bind_eq_bind, Option.bind_some, found]
  · obtain ⟨index, found, looked⟩ := good.lookup_free usable absent isSize.bounds.1
    rw [found] at result
    cases result
    have free : map.NumEntries + 1 + map.NumTombstones < map.Buckets.length := by
      have bounds := isSize.bounds
      unfold growsForTombstones getNumBuckets u32 at crowded
      omega
    refine ⟨index, map, ⟨good, looked, free⟩, Nat.le_refl _, ?_⟩
    rw [InsertIntoBucketImpl, if_neg load, if_neg crowded]
    rfl

end EvmBackend.DenseMap
