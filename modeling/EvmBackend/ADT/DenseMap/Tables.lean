/-
Tables that hold the entries of a finite map, and what one operation does to them.

A table keeps at least one bucket empty. An insertion that would leave too few of
them moves the entries to a new table first, and that table has no tombstones.
-/

import EvmBackend.ADT.DenseMap.Probing

namespace EvmBackend.DenseMap

open List

variable {Key Value : Type} (info : DenseMapInfo Key)

structure Table (map : DenseMap Key Value) (contents : List (Key × Value)) : Prop where
  sound : map.Buckets = [] ∨ Sound info map.Buckets
  holds : (entries info map.Buckets).Perm contents
  live : map.NumEntries = map.Buckets.countP (hasValue info)
  tombstones : map.NumTombstones = map.Buckets.countP (isTombstone info)
  room : map.Buckets = [] ∨ map.NumEntries + map.NumTombstones < map.Buckets.length

def valueOf (contents : List (Key × Value)) (key : Key) : Option Value :=
  (contents.find? fun entry => info.isEqual key entry.1).map Prod.snd

variable {info} {buckets : List (Bucket Key Value)} {map : DenseMap Key Value}
  {contents : List (Key × Value)} {key : Key}

theorem countP_le_length (filled : ∀ bucket ∈ buckets, isEmptyBucket info bucket = false) :
    buckets.countP (hasValue info) + buckets.countP (isTombstone info) = buckets.length := by
  induction buckets with
  | nil => rfl
  | cons bucket rest ih =>
      have later := ih fun other member => filled other (mem_cons_of_mem _ member)
      have here := filled bucket mem_cons_self
      rw [countP_cons, countP_cons, length_cons]
      rcases bucket_cases info bucket with ⟨empty, _, _⟩ | ⟨_, tomb, live⟩ | ⟨_, tomb, live⟩
      · rw [here] at empty
        cases empty
      · rw [tomb, live, if_neg Bool.false_ne_true, if_pos rfl]
        omega
      · rw [tomb, live, if_neg Bool.false_ne_true, if_pos rfl]
        omega

theorem exists_empty
    (room : buckets.countP (hasValue info) + buckets.countP (isTombstone info) < buckets.length) :
    ∃ bucket ∈ buckets, isEmptyBucket info bucket = true := by
  by_contra none
  have filled : ∀ bucket ∈ buckets, isEmptyBucket info bucket = false := by
    intro bucket member
    rw [Bool.eq_false_iff]
    exact fun empty => none ⟨bucket, member, empty⟩
  have all := countP_le_length filled
  omega

theorem length_entries (values : ∀ bucket ∈ buckets, bucket.second.isSome = hasValue info bucket) :
    (entries info buckets).length = buckets.countP (hasValue info) := by
  induction buckets with
  | nil => rfl
  | cons bucket rest ih =>
      have later := ih fun other member => values other (mem_cons_of_mem _ member)
      have here := values bucket mem_cons_self
      rw [countP_cons, ← later]
      cases live : hasValue info bucket with
      | true =>
          rw [live] at here
          obtain ⟨value, holds⟩ := Option.isSome_iff_exists.mp here
          rw [entries_cons_of_live live holds]
          rfl
      | false =>
          rw [entries_cons_of_not live]
          rfl

theorem Table.length_contents (table : Table info map contents) :
    contents.length = map.NumEntries := by
  rw [← table.holds.length_eq, table.live]
  rcases table.sound with none | sound
  · rw [none]
    rfl
  · exact length_entries sound.values

theorem pairwise_differ {others : List (Key × Value)} (same : contents.Perm others)
    (distinct : contents.Pairwise (Differ info)) : others.Pairwise (Differ info) :=
  (same.pairwise_iff fun differ => differ_symm differ).mp distinct

theorem valueOf_eq_none (absent : ∀ entry ∈ contents, info.isEqual key entry.1 = false) :
    valueOf info contents key = none := by
  rw [valueOf, find?_eq_none.mpr, Option.map_none]
  intro entry member
  rw [absent entry member]
  exact Bool.false_ne_true

theorem valueOf_eq_some {entry : Key × Value} (distinct : contents.Pairwise (Differ info))
    (member : entry ∈ contents) (same : info.isEqual key entry.1 = true) :
    valueOf info contents key = some entry.2 := by
  induction contents with
  | nil => cases member
  | cons first rest ih =>
      obtain ⟨differ, later⟩ := pairwise_cons.mp distinct
      rw [valueOf, find?_cons]
      rcases mem_cons.mp member with rfl | inRest
      · rw [same]
        rfl
      · have apart : info.isEqual key first.1 = false := by
          rw [isEqual_congr same, Bool.eq_false_iff]
          intro equal
          exact Bool.eq_false_iff.mp (differ entry inRest) (info.symm equal)
        rw [apart]
        exact ih later inRest

theorem Table.distinct (table : Table info map contents) : contents.Pairwise (Differ info) := by
  apply pairwise_differ table.holds
  rcases table.sound with none | sound
  · rw [none]
    exact List.Pairwise.nil
  · exact sound.distinct

theorem Table.exists_empty (table : Table info map contents) (some : map.Buckets ≠ []) :
    ∃ bucket ∈ map.Buckets, isEmptyBucket info bucket = true := by
  apply DenseMap.exists_empty
  rw [← table.live, ← table.tombstones]
  exact table.room.resolve_left some

theorem Table.lookup (table : Table info map contents) (usable : Usable info key) :
    (map.Buckets = [] ∧ LookupBucketFor info map.Buckets key = some (false, none) ∧
        valueOf info contents key = none) ∨
      (∃ index bucket value, LookupBucketFor info map.Buckets key = some (true, some index) ∧
        map.Buckets[index]? = some bucket ∧ info.isEqual key bucket.first = true ∧
        bucket.second = some value ∧ valueOf info contents key = some value) ∨
      (∃ index, LookupBucketFor info map.Buckets key = some (false, some index) ∧
        Looked info map.Buckets key false index ∧ valueOf info contents key = none) := by
  rcases table.sound with none | sound
  · left
    refine ⟨none, by rw [none]; rfl, ?_⟩
    have empty := table.holds
    rw [none] at empty
    rw [nil_perm.mp empty]
    rfl
  right
  have some : map.Buckets ≠ [] := by
    intro none
    obtain ⟨bits, size⟩ := sound.power
    rw [none] at size
    exact absurd size (Nat.two_pow_pos bits).ne
  obtain ⟨found, index, result, looked⟩ :=
    LookupBucketFor_looked sound usable (table.exists_empty some)
  cases looked with
  | found _ bucket here same =>
      left
      have live := hasValue_of_isEqual usable same
      have member := mem_of_getElem? here
      have holds := sound.values bucket member
      rw [live] at holds
      obtain ⟨value, second⟩ := Option.isSome_iff_exists.mp holds
      have entry : (bucket.first, value) ∈ contents :=
        table.holds.subset (mem_entries.mpr ⟨bucket, member, live, rfl, second⟩)
      exact ⟨index, bucket, value, result, here, same, second,
        valueOf_eq_some table.distinct entry same⟩
  | free _ bucket here without reaches absent =>
      right
      refine ⟨index, result, Looked.free index bucket here without reaches absent, ?_⟩
      apply valueOf_eq_none
      intro entry member
      obtain ⟨other, inTable, _, first, _⟩ := mem_entries.mp (table.holds.symm.subset member)
      rw [← first]
      exact absent other inTable

structure Placed (info : DenseMapInfo Key) (buckets : List (Bucket Key Value)) (index : Nat)
    (key : Key) (value : Value) : Prop where
  sound : Sound info (buckets.set index ⟨key, some value⟩)
  holds : (entries info (buckets.set index ⟨key, some value⟩)).Perm
    ((key, value) :: entries info buckets)
  live : (buckets.set index ⟨key, some value⟩).countP (hasValue info) =
    buckets.countP (hasValue info) + 1
  tombstones : ∀ bucket, buckets[index]? = some bucket →
    (buckets.set index ⟨key, some value⟩).countP (isTombstone info) =
      if isEmptyBucket info bucket then buckets.countP (isTombstone info)
      else buckets.countP (isTombstone info) - 1

theorem Sound.place {index : Nat} (sound : Sound info buckets) (usable : Usable info key)
    (looked : Looked info buckets key false index) (value : Value) :
    Placed info buckets index key value := by
  cases looked with
  | free _ bucket here without reaches absent =>
      obtain ⟨before, behind, split, replaced⟩ := exists_split here
      have live : hasValue info (⟨key, some value⟩ : Bucket Key Value) = true :=
        hasValue_of_usable usable _
      have holds : (entries info (buckets.set index ⟨key, some value⟩)).Perm
          ((key, value) :: entries info buckets) := by
        rw [replaced, split, entries_append, entries_append, entries_cons_of_live live rfl,
          entries_cons_of_not without]
        exact perm_middle
      have apart : ∀ entry ∈ entries info buckets, Differ info (key, value) entry := by
        intro entry member
        obtain ⟨other, inTable, _, first, _⟩ := mem_entries.mp member
        unfold Differ
        rw [← first]
        exact absent other inTable
      refine ⟨?_, holds, ?_, ?_⟩
      · apply sound.set (isEmptyBucket_of_hasValue live) (fun _ => reaches)
        · exact live.symm
        · exact pairwise_differ holds.symm (pairwise_cons.mpr ⟨apart, sound.distinct⟩)
      · rw [replaced, split, countP_append, countP_append, countP_cons_of_pos live,
          countP_cons_of_neg (Bool.eq_false_iff.mp without)]
        omega
      · intro old there
        rw [here] at there
        cases there
        have newNot : ¬ isTombstone info (⟨key, some value⟩ : Bucket Key Value) = true := by
          rw [isTombstone, usable.2]
          exact Bool.false_ne_true
        rw [replaced, split, countP_append, countP_append,
          countP_cons_of_neg newNot]
        rcases bucket_cases info bucket with ⟨empty, tomb, _⟩ | ⟨empty, tomb, _⟩ | ⟨_, _, some⟩
        · rw [countP_cons_of_neg (Bool.eq_false_iff.mp tomb), if_pos empty]
        · rw [countP_cons_of_pos tomb, if_neg (Bool.eq_false_iff.mp empty)]
          omega
        · rw [without] at some
          cases some

/-! ### Moving entries to a new table -/

theorem emptyBuckets_empty {size : Nat} {bucket : Bucket Key Value}
    (member : bucket ∈ emptyBuckets info size) :
    isEmptyBucket info bucket = true ∧ isTombstone info bucket = false ∧
      hasValue info bucket = false ∧ bucket.second = none := by
  rw [eq_of_mem_replicate member]
  have empty : isEmptyBucket info (⟨info.getEmptyKey, none⟩ : Bucket Key Value) = true :=
    info.refl _
  rcases bucket_cases info (⟨info.getEmptyKey, none⟩ : Bucket Key Value) with
    ⟨_, tomb, without⟩ | ⟨filled, _, _⟩ | ⟨filled, _, _⟩
  · exact ⟨empty, tomb, without, rfl⟩
  · rw [empty] at filled
    cases filled
  · rw [empty] at filled
    cases filled

theorem countP_emptyBuckets (info : DenseMapInfo Key) (Value : Type) (size : Nat) :
    (emptyBuckets info size : List (Bucket Key Value)).countP (hasValue info) = 0 ∧
      (emptyBuckets info size : List (Bucket Key Value)).countP (isTombstone info) = 0 := by
  refine ⟨countP_eq_zero.mpr ?_, countP_eq_zero.mpr ?_⟩
  · intro bucket member
    exact Bool.eq_false_iff.mp (emptyBuckets_empty member).2.2.1
  · intro bucket member
    exact Bool.eq_false_iff.mp (emptyBuckets_empty member).2.1

theorem entries_emptyBuckets (size : Nat) :
    entries info (emptyBuckets info size : List (Bucket Key Value)) = [] := by
  rw [entries, filterMap_eq_nil_iff]
  intro bucket member
  rw [entryOf, (emptyBuckets_empty member).2.2.1]
  rfl

theorem sound_emptyBuckets {size : Nat} (power : ∃ bits, size = 2 ^ bits) :
    Sound info (emptyBuckets info size : List (Bucket Key Value)) := by
  refine ⟨?_, ?_, ?_, ?_⟩
  · rw [emptyBuckets, length_replicate]
    exact power
  · intro index bucket here live
    rw [(emptyBuckets_empty (mem_of_getElem? here)).2.2.1] at live
    cases live
  · rw [entries_emptyBuckets]
    exact List.Pairwise.nil
  · intro bucket member
    rw [(emptyBuckets_empty member).2.2.1, (emptyBuckets_empty member).2.2.2]
    rfl

theorem moveBuckets_moves {old : List (Bucket Key Value)} (sound : Sound info buckets)
    (fresh : buckets.countP (isTombstone info) = 0)
    (values : ∀ bucket ∈ old, bucket.second.isSome = hasValue info bucket)
    (distinct : (entries info old ++ entries info buckets).Pairwise (Differ info))
    (room : old.countP (hasValue info) + buckets.countP (hasValue info) < buckets.length)
    (count : Nat) :
    ∃ moved, moveBuckets info old buckets count =
        some (moved, count + old.countP (hasValue info)) ∧
      Sound info moved ∧ moved.length = buckets.length ∧
      moved.countP (isTombstone info) = 0 ∧
      (entries info moved).Perm (entries info old ++ entries info buckets) := by
  induction old generalizing buckets count with
  | nil => exact ⟨buckets, rfl, sound, rfl, fresh, List.Perm.refl _⟩
  | cons bucket old ih =>
      have rest : ∀ other ∈ old, other.second.isSome = hasValue info other := fun other member =>
        values other (mem_cons_of_mem _ member)
      unfold moveBuckets
      by_cases live : hasValue info bucket = true
      · have holdsValue := values bucket mem_cons_self
        rw [live] at holdsValue
        obtain ⟨value, second⟩ := Option.isSome_iff_exists.mp holdsValue
        rw [entries_cons_of_live live second, List.cons_append] at distinct
        obtain ⟨apart, others⟩ := pairwise_cons.mp distinct
        rw [countP_cons_of_pos live] at room ⊢
        have usable := usable_of_hasValue live
        obtain ⟨found, index, result, looked⟩ :=
          LookupBucketFor_looked sound usable (exists_empty (by omega))
        cases looked with
        | found _ other here same =>
            have liveOther := hasValue_of_isEqual usable same
            have member := mem_of_getElem? here
            have otherValue := sound.values other member
            rw [liveOther] at otherValue
            obtain ⟨stored, there⟩ := Option.isSome_iff_exists.mp otherValue
            have differ := apart (other.first, stored) (mem_append_right _
              (mem_entries.mpr ⟨other, member, liveOther, rfl, there⟩))
            rw [Differ, same] at differ
            cases differ
        | free _ other here without reaches absent =>
            have placed := sound.place usable
              (Looked.free index other here without reaches absent) value
            have whole : bucket = ⟨bucket.first, some value⟩ := by rw [← second]
            obtain ⟨placedSound, placedHolds, placedLive, placedTombstones⟩ := placed
            rw [← whole] at placedSound placedHolds placedLive placedTombstones
            have fresh' : (buckets.set index bucket).countP (isTombstone info) = 0 := by
              rw [placedTombstones other here, fresh]
              split <;> rfl
            have regrouped : (entries info old ++ entries info (buckets.set index bucket)).Perm
                ((bucket.first, value) :: (entries info old ++ entries info buckets)) :=
              (placedHolds.append_left _).trans perm_middle
            obtain ⟨moved, result', movedSound, size, noTombstones, all⟩ := ih placedSound fresh' rest
              (pairwise_differ regrouped.symm distinct)
              (by rw [placedLive, length_set]; omega) (count + 1)
            rw [length_set] at size
            refine ⟨moved, ?_, movedSound, size, noTombstones, ?_⟩
            · rw [if_pos live, result]
              refine result'.trans ?_
              congr 2
              omega
            · rw [entries_cons_of_live live second]
              exact all.trans regrouped
      · rw [countP_cons_of_neg live] at room ⊢
        rw [if_neg live]
        rw [Bool.not_eq_true] at live
        rw [entries_cons_of_not live] at distinct ⊢
        exact ih sound fresh rest distinct room count

end EvmBackend.DenseMap
