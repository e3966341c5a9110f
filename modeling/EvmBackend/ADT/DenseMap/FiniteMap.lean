/-
Maps under any sequence of operations are finite maps.

A program works on any number of maps of one class, which it changes and copies and
swaps. The reference is what each of them holds as a function of the key.
-/

import EvmBackend.Library.Runs
import EvmBackend.ADT.DenseMap.Operations

namespace EvmBackend.DenseMap

open TriangularProbe List

variable {Key Value Name : Type}

inductive MapOp (Key Value : Type) where
  | try_emplace (key : Key) (value : Value)
  | subscript (key : Key) (write : Value → Value)
  | erase (key : Key)
  | clear
  | reserve (NumEntries : Nat)

inductive PoolOp (Name Key Value : Type) where
  | on (name : Name) (op : MapOp Key Value)
  | copy (target source : Name)
  | swap (left right : Name)

section Operations

variable [Inhabited Value] [DecidableEq Name] (info : DenseMapInfo Key) (kind : DenseMapKind)

def apply : MapOp Key Value → DenseMap Key Value → Option (DenseMap Key Value)
  | .try_emplace key value, map => try_emplace info kind key value map
  | .subscript key write, map => subscript info kind key write map
  | .erase key, map => erase info key map
  | .clear, map => some (clear info kind map)
  | .reserve NumEntries, map => reserve info kind NumEntries map

def stepPool : PoolOp Name Key Value → (Name → DenseMap Key Value) →
    Option (Name → DenseMap Key Value)
  | .on name op, pool => (apply info kind op (pool name)).map (Function.update pool name)
  | .copy target source, pool =>
      some (Function.update pool target (copyFrom kind (pool source)))
  | .swap left right, pool =>
      let (newLeft, newRight) := DenseMap.swap info (pool left) (pool right)
      some (Function.update (Function.update pool left newLeft) right newRight)

def startPool : Name → DenseMap Key Value := fun _ => init info kind 0

def applyMap : MapOp Key Value → (Key → Option Value) → Key → Option Value
  | .try_emplace key value, map => fun other =>
      if info.isEqual key other = true ∧ map key = none then some value else map other
  | .subscript key write, map => fun other =>
      if info.isEqual key other then some (write ((map key).getD default)) else map other
  | .erase key, map => fun other => if info.isEqual key other then none else map other
  | .clear, _ => fun _ => none
  | .reserve _, map => map

def stepMaps (maps : Name → Key → Option Value) :
    PoolOp Name Key Value → Name → Key → Option Value
  | .on name op => Function.update maps name (applyMap info op (maps name))
  | .copy target source => Function.update maps target (maps source)
  | .swap left right => Function.update (Function.update maps left (maps right)) right (maps left)

def mapsAfter (ops : List (PoolOp Name Key Value)) : Name → Key → Option Value :=
  ops.foldl (stepMaps info) fun _ _ => none

end Operations

variable (info : DenseMapInfo Key)

def HasSize (map : Key → Option Value) (size : Nat) : Prop :=
  ∃ keys : List Key, keys.length = size ∧
    keys.Pairwise (fun left right => info.isEqual left right = false) ∧
    ∀ key, (map key).isSome = true ↔ ∃ other ∈ keys, info.isEqual key other = true

def Few (map : Key → Option Value) : Prop :=
  ∃ keys : List Key, keys.length < 2 ^ 29 ∧
    ∀ key, (map key).isSome = true → ∃ other ∈ keys, info.isEqual key other = true

def MapOp.Usable : MapOp Key Value → Prop
  | .try_emplace key _ => DenseMap.Usable info key
  | .subscript key _ => DenseMap.Usable info key
  | .erase key => DenseMap.Usable info key
  | _ => True

def PoolOp.Usable : PoolOp Name Key Value → Prop
  | .on _ op => op.Usable info
  | _ => True

def MapOp.IsInsertion : MapOp Key Value → Prop
  | .try_emplace _ _ => True
  | .subscript _ _ => True
  | _ => False

/-! ### Entries as functions of the key -/

variable {info} {contents : List (Key × Value)} {key : Key}

theorem valueOf_congr {other : Key} (same : info.isEqual key other = true) :
    valueOf info contents key = valueOf info contents other := by
  have each : (fun entry : Key × Value => info.isEqual key entry.1) =
      fun entry => info.isEqual other entry.1 := by
    funext entry
    exact isEqual_congr same
  rw [valueOf, valueOf, each]

theorem isEqual_comm (left right : Key) : info.isEqual left right = info.isEqual right left := by
  rw [Bool.eq_iff_iff]
  exact ⟨info.symm, info.symm⟩

theorem valueOf_cons (entry : Key × Value) (other : Key) :
    valueOf info (entry :: contents) other =
      if info.isEqual entry.1 other then some entry.2 else valueOf info contents other := by
  rw [valueOf, find?_cons, isEqual_comm]
  cases info.isEqual entry.1 other with
  | true | false => rfl

theorem valueOf_emplaced (value : Value) (other : Key) :
    valueOf info (emplaced info key value contents) other =
      if info.isEqual key other = true ∧ valueOf info contents key = none then some value
      else valueOf info contents other := by
  unfold emplaced
  cases present : valueOf info contents key with
  | some old =>
      rw [Option.isSome_some, if_pos rfl, if_neg]
      exact fun both => by cases both.2
  | none =>
      rw [Option.isSome_none, if_neg Bool.false_ne_true, valueOf_cons]
      simp only [and_true]

theorem valueOf_erased (other : Key) :
    valueOf info (erased info key contents) other =
      if info.isEqual key other then none else valueOf info contents other := by
  rw [valueOf, erased, find?_filter]
  cases same : info.isEqual key other with
  | true =>
      rw [if_pos rfl, find?_eq_none.mpr, Option.map_none]
      intro entry _
      rw [isEqual_congr same]
      cases info.isEqual other entry.1 with
      | true | false => exact Bool.false_ne_true
  | false =>
      have each : (fun entry : Key × Value =>
          decide ((!info.isEqual key entry.1) = true ∧ info.isEqual other entry.1 = true)) =
            fun entry => info.isEqual other entry.1 := by
        funext entry
        cases equal : info.isEqual other entry.1 with
        | false => exact decide_eq_false fun both => Bool.false_ne_true both.2
        | true =>
            rw [isEqual_comm key entry.1, isEqual_congr (info.symm equal), isEqual_comm, same]
            rfl
      rw [each, if_neg Bool.false_ne_true]
      rfl

theorem valueOf_written (write : Value → Value) (other : Key) :
    valueOf info (written info key write contents) other =
      if info.isEqual key other then (valueOf info contents other).map write
      else valueOf info contents other := by
  induction contents with
  | nil =>
      cases info.isEqual key other with
      | true | false => rfl
  | cons entry rest ih =>
      rw [written, map_cons, valueOf_cons, valueOf_cons]
      rw [written] at ih
      rw [ih]
      have first : (if info.isEqual key entry.1 then (entry.1, write entry.2) else entry).1 =
          entry.1 := by
        split <;> rfl
      rw [first]
      cases here : info.isEqual entry.1 other with
      | false => rw [if_neg Bool.false_ne_true, if_neg Bool.false_ne_true]
      | true =>
          rw [if_pos rfl, if_pos rfl, isEqual_comm key entry.1, isEqual_congr here, isEqual_comm]
          cases info.isEqual key other with
          | true | false => rfl

theorem valueOf_subscripted [Inhabited Value] (write : Value → Value) (other : Key) :
    valueOf info (subscripted info key write contents) other =
      if info.isEqual key other then some (write ((valueOf info contents key).getD default))
      else valueOf info contents other := by
  unfold subscripted
  cases present : valueOf info contents key with
  | some old =>
      rw [Option.isSome_some, if_pos rfl, valueOf_written]
      cases same : info.isEqual key other with
      | false => rfl
      | true =>
          rw [← valueOf_congr same, present]
          rfl
  | none =>
      rw [Option.isSome_none, if_neg Bool.false_ne_true, valueOf_cons]
      rfl

theorem distinct_cons (distinct : contents.Pairwise (Differ info))
    (absent : valueOf info contents key = none) (value : Value) :
    ((key, value) :: contents).Pairwise (Differ info) := by
  refine pairwise_cons.mpr ⟨?_, distinct⟩
  intro entry member
  rw [valueOf, Option.map_eq_none_iff, find?_eq_none] at absent
  exact Bool.eq_false_iff.mpr (absent entry member)

theorem distinct_emplaced (distinct : contents.Pairwise (Differ info)) (value : Value) :
    (emplaced info key value contents).Pairwise (Differ info) := by
  unfold emplaced
  cases present : valueOf info contents key with
  | some old => exact distinct
  | none => exact distinct_cons distinct present value

theorem distinct_subscripted [Inhabited Value] (distinct : contents.Pairwise (Differ info))
    (write : Value → Value) : (subscripted info key write contents).Pairwise (Differ info) := by
  unfold subscripted
  cases present : valueOf info contents key with
  | none => exact distinct_cons distinct present (write default)
  | some old =>
      rw [Option.isSome_some, if_pos rfl, written, pairwise_map]
      have first : ∀ entry : Key × Value,
          (if info.isEqual key entry.1 then (entry.1, write entry.2) else entry).1 = entry.1 := by
        intro entry
        split <;> rfl
      unfold Differ
      simp only [first]
      exact distinct

theorem length_le_of_covered {keys others : List Key}
    (distinct : keys.Pairwise (fun left right => info.isEqual left right = false))
    (covered : ∀ key ∈ keys, ∃ other ∈ others, info.isEqual key other = true) :
    keys.length ≤ others.length := by
  induction keys generalizing others with
  | nil => exact Nat.zero_le _
  | cons key keys ih =>
      obtain ⟨apart, later⟩ := pairwise_cons.mp distinct
      obtain ⟨other, member, same⟩ := covered key mem_cons_self
      obtain ⟨before, behind, rfl⟩ := append_of_mem member
      have rest : ∀ key ∈ keys, ∃ other ∈ before ++ behind, info.isEqual key other = true := by
        intro further inKeys
        obtain ⟨cover, inOthers, equal⟩ := covered further (mem_cons_of_mem _ inKeys)
        rcases mem_append.mp inOthers with inBefore | inRest
        · exact ⟨cover, mem_append_left _ inBefore, equal⟩
        rcases mem_cons.mp inRest with rfl | inBehind
        · have differ := apart further inKeys
          rw [info.trans same (info.symm equal)] at differ
          cases differ
        · exact ⟨cover, mem_append_right _ inBehind, equal⟩
      have fewer := ih later rest
      rw [length_append] at fewer
      rw [length_cons, length_append, length_cons]
      omega

theorem isSome_valueOf (key : Key) :
    (valueOf info contents key).isSome = true ↔
      ∃ other ∈ contents.map Prod.fst, info.isEqual key other = true := by
  rw [valueOf, Option.isSome_map, find?_isSome]
  constructor
  · rintro ⟨entry, member, same⟩
    exact ⟨entry.1, List.mem_map_of_mem member, same⟩
  · rintro ⟨other, member, same⟩
    obtain ⟨entry, inContents, rfl⟩ := List.mem_map.mp member
    exact ⟨entry, inContents, same⟩

theorem length_lt_of_few (distinct : contents.Pairwise (Differ info))
    (few : Few info (valueOf info contents)) : contents.length < 2 ^ 29 := by
  obtain ⟨keys, small, covers⟩ := few
  have fewer : (contents.map Prod.fst).length ≤ keys.length := by
    apply length_le_of_covered (pairwise_map.mpr distinct)
    intro key member
    exact covers key ((isSome_valueOf key).mpr ⟨key, member, info.refl key⟩)
  rw [length_map] at fewer
  omega

/-! ### Runs -/

variable {kind : DenseMapKind} {map : DenseMap Key Value}

def Represents (info : DenseMapInfo Key) (kind : DenseMapKind) (map : DenseMap Key Value)
    (reference : Key → Option Value) : Prop :=
  ∃ contents, Good info kind map contents ∧ valueOf info contents = reference

theorem Represents.few {reference : Key → Option Value}
    (represents : Represents info kind map reference) (few : Few info reference) :
    map.NumEntries < 2 ^ 29 := by
  obtain ⟨contents, good, rfl⟩ := represents
  rw [← good.table.length_contents]
  exact length_lt_of_few good.table.distinct few

/-- One operation on a map that holds fewer than 2^29 entries before and after it; an
insertion leaves no fewer buckets. -/
theorem apply_represents [Inhabited Value] {reference : Key → Option Value} {op : MapOp Key Value}
    (valid : DenseMapKindValid kind) (represents : Represents info kind map reference)
    (few : Few info reference) (usable : op.Usable info)
    (fewAfter : Few info (applyMap info op reference)) :
    ∃ next, apply info kind op map = some next ∧
      Represents info kind next (applyMap info op reference) ∧
      (op.IsInsertion → map.Buckets.length ≤ next.Buckets.length) := by
  have entries := represents.few few
  obtain ⟨contents, good, rfl⟩ := represents
  have distinct := good.table.distinct
  cases op with
  | try_emplace key value =>
      have same : valueOf info (emplaced info key value contents) =
          applyMap info (.try_emplace key value) (valueOf info contents) :=
        funext (valueOf_emplaced value)
      rw [← same] at fewAfter ⊢
      obtain ⟨next, done, nextGood, more⟩ := try_emplace_good valid good usable value
        (length_lt_of_few (distinct_emplaced distinct value) fewAfter)
      exact ⟨next, done, ⟨_, nextGood, rfl⟩, fun _ => more⟩
  | subscript key write =>
      have same : valueOf info (subscripted info key write contents) =
          applyMap info (.subscript key write) (valueOf info contents) :=
        funext (valueOf_subscripted write)
      rw [← same] at fewAfter ⊢
      obtain ⟨next, done, nextGood, more⟩ := subscript_good valid good usable write
        (length_lt_of_few (distinct_subscripted distinct write) fewAfter)
      exact ⟨next, done, ⟨_, nextGood, rfl⟩, fun _ => more⟩
  | erase key =>
      obtain ⟨next, done, nextGood⟩ := erase_good good usable
      exact ⟨next, done, ⟨_, nextGood, funext valueOf_erased⟩, False.elim⟩
  | clear => exact ⟨_, rfl, ⟨[], clear_good valid good entries, rfl⟩, False.elim⟩
  | reserve NumEntries =>
      obtain ⟨next, done, nextGood, _⟩ := reserve_good valid good NumEntries
      exact ⟨next, done, ⟨contents, nextGood, rfl⟩, False.elim⟩

def AllRepresent (info : DenseMapInfo Key) (kind : DenseMapKind)
    (pool : Name → DenseMap Key Value) (maps : Name → Key → Option Value) : Prop :=
  ∀ name, Represents info kind (pool name) (maps name)

theorem AllRepresent.update [DecidableEq Name] {pool : Name → DenseMap Key Value}
    {maps : Name → Key → Option Value} (all : AllRepresent info kind pool maps) {name : Name}
    {reference : Key → Option Value} (represents : Represents info kind map reference) :
    AllRepresent info kind (Function.update pool name map) (Function.update maps name reference) := by
  intro other
  by_cases same : other = name
  · subst same
    rw [Function.update_self, Function.update_self]
    exact represents
  · rw [Function.update_of_ne same, Function.update_of_ne same]
    exact all other

theorem stepPool_represents [Inhabited Value] [DecidableEq Name] {pool : Name → DenseMap Key Value}
    {maps : Name → Key → Option Value} {op : PoolOp Name Key Value}
    (valid : DenseMapKindValid kind) (all : AllRepresent info kind pool maps)
    (few : ∀ name, Few info (maps name)) (usable : op.Usable info)
    (fewAfter : ∀ name, Few info (stepMaps info maps op name)) :
    ∃ next, stepPool info kind op pool = some next ∧
      AllRepresent info kind next (stepMaps info maps op) := by
  cases op with
  | on name op =>
      have here := fewAfter name
      rw [stepMaps, Function.update_self] at here
      obtain ⟨next, done, represents, _⟩ :=
        apply_represents valid (all name) (few name) usable here
      refine ⟨_, ?_, all.update represents⟩
      rw [stepPool, done, Option.map_some]
  | copy target source =>
      obtain ⟨contents, good, _⟩ := all source
      refine ⟨_, rfl, ?_⟩
      rw [copyFrom_eq good]
      exact all.update (all source)
  | swap left right =>
      obtain ⟨leftContents, leftGood, _⟩ := all left
      obtain ⟨rightContents, rightGood, _⟩ := all right
      refine ⟨_, ?_, (all.update (all right)).update (all left)⟩
      rw [stepPool, swap_eq leftGood rightGood]

theorem startPool_represents (info : DenseMapInfo Key) (Name Value : Type) (valid : DenseMapKindValid kind) :
    AllRepresent info kind (startPool info kind : Name → DenseMap Key Value) fun _ _ => none := by
  intro name
  exact ⟨[], good_init valid (Or.inr (Or.inl rfl)), rfl⟩

theorem runPool_represents [Inhabited Value] [DecidableEq Name]
    (valid : DenseMapKindValid kind) (ops : List (PoolOp Name Key Value))
    (usable : ∀ op ∈ ops, op.Usable info)
    (few : ∀ number name, Few info (mapsAfter info (ops.take number) name)) :
    ∃ pool, Runs.run (stepPool info kind) ops (startPool info kind) = some pool ∧
      AllRepresent info kind pool (mapsAfter info ops) := by
  have start := startPool_represents info Name Value valid
  unfold mapsAfter at few ⊢
  generalize (startPool info kind : Name → DenseMap Key Value) = pool at start ⊢
  generalize (fun (_ : Name) (_ : Key) => (none : Option Value)) = maps at start few ⊢
  induction ops generalizing pool maps with
  | nil => exact ⟨pool, rfl, start⟩
  | cons op ops ih =>
      obtain ⟨next, stepped, represents⟩ := stepPool_represents valid start (few 0)
        (usable op mem_cons_self) (few 1)
      obtain ⟨last, finished, whole⟩ := ih
        (fun later member => usable later (mem_cons_of_mem _ member)) next
        (stepMaps info maps op) represents (fun number => few (number + 1))
      refine ⟨last, ?_, whole⟩
      rw [Runs.run_cons, stepped]
      exact finished

theorem not_growsForLoad_of_reserved {contents : List (Key × Value)}
    (good : Good info kind map contents) {NumEntries : Nat} (few : NumEntries < 2 ^ 29)
    (room : getMinBucketToReserveForEntries NumEntries ≤ map.Buckets.length)
    (more : map.NumEntries < NumEntries) : ¬ map.growsForLoad := by
  rcases getMinBucketToReserveForEntries_spec NumEntries with ⟨none, _⟩ | ⟨isSize, enough⟩
  · omega
  have least := enough few
  rcases good.size_cases with none | ⟨bits, most, size⟩
  · have positive := isSize.bounds.1
    omega
  unfold growsForLoad getNumBuckets
  rw [u32_of_lt (show (map.NumEntries + 1) * 4 < 2 ^ 32 by omega)]
  by_cases large : bits = 31
  · rw [size, large]
    change ¬ _ ≥ 2 ^ 31
    omega
  · have bound : 2 ^ bits ≤ 2 ^ 30 := Nat.pow_le_pow_right (by omega) (by omega)
    rw [u32_of_lt (by omega)]
    omega

theorem insertion_represents [Inhabited Value] {contents : List (Key × Value)}
    {op : MapOp Key Value} (valid : DenseMapKindValid kind) (good : Good info kind map contents)
    (few : map.NumEntries + 1 < 2 ^ 29) (usable : op.Usable info) (insertion : op.IsInsertion) :
    ∃ next others, apply info kind op map = some next ∧ Good info kind next others ∧
      next.NumEntries ≤ map.NumEntries + 1 ∧ map.Buckets.length ≤ next.Buckets.length := by
  rw [← good.table.length_contents] at few ⊢
  cases op with
  | try_emplace key value =>
      have length : (emplaced info key value contents).length ≤ contents.length + 1 := by
        unfold emplaced
        split
        · exact Nat.le_succ _
        · exact Nat.le_refl _
      obtain ⟨next, done, nextGood, more⟩ :=
        try_emplace_good valid good usable value (Nat.lt_of_le_of_lt length few)
      refine ⟨next, _, done, nextGood, ?_, more⟩
      rw [← nextGood.table.length_contents]
      exact length
  | subscript key write =>
      have length : (subscripted info key write contents).length ≤ contents.length + 1 := by
        unfold subscripted written
        split
        · rw [length_map]
          exact Nat.le_succ _
        · exact Nat.le_refl _
      obtain ⟨next, done, nextGood, more⟩ :=
        subscript_good valid good usable write (Nat.lt_of_le_of_lt length few)
      refine ⟨next, _, done, nextGood, ?_, more⟩
      rw [← nextGood.table.length_contents]
      exact length
  | erase | clear | reserve => exact insertion.elim

theorem insertions_keep_load [Inhabited Value] (valid : DenseMapKindValid kind)
    {NumEntries : Nat} (few : NumEntries < 2 ^ 29) (insertions : List (MapOp Key Value))
    (insert : ∀ op ∈ insertions, op.IsInsertion ∧ op.Usable info)
    {contents : List (Key × Value)} (good : Good info kind map contents)
    (room : getMinBucketToReserveForEntries NumEntries ≤ map.Buckets.length)
    (fits : map.NumEntries + insertions.length ≤ NumEntries) :
    Runs.EveryStep (apply info kind) (fun _ map => ¬ map.growsForLoad) insertions map := by
  induction insertions generalizing map contents with
  | nil => trivial
  | cons op insertions ih =>
      rw [length_cons] at fits
      refine ⟨not_growsForLoad_of_reserved good few room (by omega), ?_⟩
      intro next stepped
      obtain ⟨insertion, usable⟩ := insert op mem_cons_self
      obtain ⟨reached, others, done, nextGood, entries, more⟩ :=
        insertion_represents valid good (by omega) usable insertion
      rw [stepped] at done
      cases done
      exact ih (fun later member => insert later (mem_cons_of_mem _ member)) nextGood
        (by omega) (by omega)

/-! ### Finite maps -/

/-- The probe sequence of every key comes to an empty bucket within one round. -/
def ProbesEnd (info : DenseMapInfo Key) (buckets : List (Bucket Key Value)) : Prop :=
  ∀ key, ∃ step bucket, step < buckets.length ∧
    buckets[probed info buckets key step]? = some bucket ∧ isEmptyBucket info bucket = true

theorem Table.probesEnd {contents : List (Key × Value)} (table : Table info map contents)
    (nonempty : map.Buckets ≠ []) : ProbesEnd info map.Buckets := by
  intro key
  obtain ⟨bucket, member, empty⟩ := table.exists_empty nonempty
  obtain ⟨index, there⟩ := getElem?_of_mem member
  obtain ⟨inside, _⟩ := List.getElem?_eq_some_iff.mp there
  obtain ⟨bits, size⟩ := (table.sound.resolve_left nonempty).power
  obtain ⟨step, fewer, reached⟩ := exists_position bits (info.getHashValue key) (size ▸ inside)
  refine ⟨step, bucket, size ▸ fewer, ?_, empty⟩
  rw [probed, size, reached]
  exact there

/-- Maps of either class under any operations with usable keys, as long as none of them
gets 2^29 entries: every operation has a result, all reads agree with the reference, the
two counts are right, every lookup ends, and a map that was empty when it reserved room
for some entries does not grow for its load while that many are inserted. -/
theorem maps_are_finite_maps [Inhabited Value] [DecidableEq Name] (info : DenseMapInfo Key)
    (kind : DenseMapKind) (valid : DenseMapKindValid kind) (ops : List (PoolOp Name Key Value))
    (usable : ∀ op ∈ ops, op.Usable info)
    (few : ∀ number name, Few info (mapsAfter info (ops.take number) name)) :
    ∃ pool, Runs.run (stepPool info kind) ops (startPool info kind) = some pool ∧
      ∀ name,
        (∀ key, Usable info key →
          (LookupBucketFor info (pool name).Buckets key).isSome ∧
          find info key (pool name) = some (mapsAfter info ops name key) ∧
          count info key (pool name) =
            some (if (mapsAfter info ops name key).isSome then 1 else 0) ∧
          lookup info key (pool name) = some ((mapsAfter info ops name key).getD default)) ∧
        HasSize info (mapsAfter info ops name) (pool name).size ∧
        (pool name).NumEntries = (pool name).Buckets.countP (hasValue info) ∧
        (pool name).NumTombstones = (pool name).Buckets.countP (isTombstone info) ∧
        ((pool name).Buckets ≠ [] → ProbesEnd info (pool name).Buckets) ∧
        ∀ NumEntries, NumEntries < 2 ^ 29 → (pool name).size = 0 →
          ∃ reserved, reserve info kind NumEntries (pool name) = some reserved ∧
            ∀ insertions : List (MapOp Key Value), insertions.length ≤ NumEntries →
              (∀ op ∈ insertions, op.IsInsertion ∧ op.Usable info) →
              Runs.EveryStep (apply info kind) (fun _ map => ¬ map.growsForLoad) insertions
                reserved := by
  obtain ⟨pool, finished, all⟩ := runPool_represents valid ops usable few
  refine ⟨pool, finished, ?_⟩
  intro name
  obtain ⟨contents, good, same⟩ := all name
  rw [← same]
  refine ⟨?_, ?_, good.table.live, good.table.tombstones, good.table.probesEnd, ?_⟩
  · intro key keyUsable
    refine ⟨?_, find_eq good keyUsable, count_eq good keyUsable, lookup_eq good keyUsable⟩
    rcases good.table.lookup keyUsable with ⟨_, result, _⟩ | ⟨_, _, _, result, _⟩ | ⟨_, result, _⟩
    · rw [result]
      rfl
    · rw [result]
      rfl
    · rw [result]
      rfl
  · refine ⟨contents.map Prod.fst, ?_, pairwise_map.mpr good.table.distinct, isSome_valueOf⟩
    rw [length_map]
    exact good.table.length_contents
  · intro NumEntries small none
    obtain ⟨reserved, done, reservedGood, room⟩ := reserve_good valid good NumEntries
    refine ⟨reserved, done, ?_⟩
    intro insertions number insert
    have sameEntries : reserved.NumEntries = 0 := by
      rw [← reservedGood.table.length_contents, good.table.length_contents]
      exact none
    exact insertions_keep_load valid small insertions insert reservedGood room (by omega)

def collidingInfo : DenseMapInfo Nat where
  getEmptyKey := 0
  getTombstoneKey := 1
  getHashValue := fun _ => 7
  isEqual := fun left right => left == right
  refl := fun key => beq_self_eq_true key
  symm := fun same => by rw [eq_of_beq same]; exact beq_self_eq_true _
  trans := fun first second => by rw [eq_of_beq first]; exact second
  hash_eq := fun _ => rfl
  reserved := rfl

/-- A key goes into the tombstone of another one, in a map of two inline buckets. -/
theorem maps_are_finite_maps_colliding :
    ∃ pool, Runs.run (stepPool collidingInfo (.small 2))
        [.on false (.try_emplace 5 50), .on false (.erase 5), .on false (.subscript 6 (· + 60)),
          .swap false true] (startPool collidingInfo (.small 2)) = some pool ∧
      find collidingInfo 5 (pool true) = some none ∧
      find collidingInfo 6 (pool true) = some (some 60) := by
  have few : ∀ number name, Few collidingInfo (mapsAfter collidingInfo
      (([.on false (.try_emplace 5 50), .on false (.erase 5), .on false (.subscript 6 (· + 60)),
        .swap false true] : List (PoolOp Bool Nat Nat)).take number) name) := by
    intro number name
    refine ⟨[5, 6], by decide, ?_⟩
    intro key present
    have covered : key = 5 ∨ key = 6 := by
      by_contra apart
      rw [not_or] at apart
      have differs : ∀ other, (other = 5 ∨ other = 6) → collidingInfo.isEqual other key = false := by
        rintro other (rfl | rfl)
        · exact beq_false_of_ne (Ne.symm apart.1)
        · exact beq_false_of_ne (Ne.symm apart.2)
      have absent : ∀ name, mapsAfter collidingInfo
          (([.on false (.try_emplace 5 50), .on false (.erase 5), .on false (.subscript 6 (· + 60)),
            .swap false true] : List (PoolOp Bool Nat Nat)).take number) name key = none := by
        intro name
        rcases number with _ | _ | _ | _ | number <;> cases name <;>
          simp [mapsAfter, stepMaps, applyMap, Function.update, differs]
      rw [absent name] at present
      cases present
    rcases covered with rfl | rfl
    · exact ⟨5, by decide, rfl⟩
    · exact ⟨6, by decide, rfl⟩
  obtain ⟨pool, finished, agrees⟩ := maps_are_finite_maps collidingInfo (.small 2)
    ⟨1, by decide, rfl⟩ _
    (by simp [PoolOp.Usable, MapOp.Usable, Usable, collidingInfo]) few
  have usable : Usable collidingInfo 5 ∧ Usable collidingInfo 6 :=
    ⟨⟨rfl, rfl⟩, ⟨rfl, rfl⟩⟩
  exact ⟨pool, finished, ((agrees true).1 5 usable.1).2.1, ((agrees true).1 6 usable.2).2.1⟩

end EvmBackend.DenseMap
