/-
Hash maps with open addressing.

A bucket holds a key and, where the key is neither the empty nor the tombstone key,
a value. `DenseMap` keeps its buckets in one allocated array, `SmallDenseMap` in an
inline array of fixed size as long as they fit there. Sizes are 32-bit numbers and
wrap. Where the source loops or dereferences a null bucket there is no result.
-/

import Mathlib.Data.Nat.Log
import Mathlib.Tactic.Ring

namespace EvmBackend

/-- How keys are compared and hashed: equality is an equivalence that the hash
respects, and the two reserved keys differ. -/
structure DenseMapInfo (Key : Type) where
  getEmptyKey : Key
  getTombstoneKey : Key
  getHashValue : Key → Nat
  isEqual : Key → Key → Bool
  refl : ∀ key, isEqual key key = true
  symm : ∀ {left right}, isEqual left right = true → isEqual right left = true
  trans : ∀ {left middle right}, isEqual left middle = true → isEqual middle right = true →
    isEqual left right = true
  hash_eq : ∀ {left right}, isEqual left right = true → getHashValue left = getHashValue right
  reserved : isEqual getEmptyKey getTombstoneKey = false

structure Bucket (Key Value : Type) where
  first : Key
  second : Option Value
  deriving DecidableEq, Repr

/-- The two classes of maps; the second with the number of its inline buckets. -/
inductive DenseMapKind where
  | dense
  | small (InlineBuckets : Nat)
  deriving DecidableEq, Repr

structure DenseMap (Key Value : Type) where
  Small : Bool
  Buckets : List (Bucket Key Value)
  NumEntries : Nat
  NumTombstones : Nat
  deriving DecidableEq, Repr

namespace DenseMap

variable {Key Value : Type} (info : DenseMapInfo Key) (kind : DenseMapKind)

def u32 (number : Nat) : Nat := number % 2 ^ 32

def NextPowerOf2 (A : Nat) : Nat := if A = 0 then 1 else 2 ^ (A.log2 + 1)

def Log2_32_Ceil (number : Nat) : Nat :=
  if number = 0 then 32 else if number = 1 then 0 else (number - 1).log2 + 1

def getNumBuckets (map : DenseMap Key Value) : Nat := map.Buckets.length

def isEmptyBucket (bucket : Bucket Key Value) : Bool :=
  info.isEqual bucket.first info.getEmptyKey

def isTombstone (bucket : Bucket Key Value) : Bool :=
  info.isEqual bucket.first info.getTombstoneKey

def hasValue (bucket : Bucket Key Value) : Bool :=
  !isEmptyBucket info bucket && !isTombstone info bucket

def lookupFrom (buckets : List (Bucket Key Value)) (key : Key) :
    Nat → Nat → Nat → Option Nat → Option (Bool × Nat)
  | 0, _, _, _ => none
  | probes + 1, BucketNo, ProbeAmt, FoundTombstone =>
      match buckets[BucketNo]? with
      | none => none
      | some ThisBucket =>
          if info.isEqual key ThisBucket.first then some (true, BucketNo)
          else if isEmptyBucket info ThisBucket then
            some (false, FoundTombstone.getD BucketNo)
          else
            lookupFrom buckets key probes ((BucketNo + ProbeAmt) &&& (buckets.length - 1))
              (ProbeAmt + 1)
              (if isTombstone info ThisBucket && FoundTombstone.isNone then some BucketNo
                else FoundTombstone)

/-- Whether the key is there, and its bucket or one for it; no bucket in a map without
buckets. -/
def LookupBucketFor (buckets : List (Bucket Key Value)) (key : Key) : Option (Bool × Option Nat) :=
  if buckets.length = 0 then some (false, none)
  else
    (lookupFrom info buckets key buckets.length
      (info.getHashValue key &&& (buckets.length - 1)) 1 none).map fun found =>
        (found.1, some found.2)

def emptyBuckets (size : Nat) : List (Bucket Key Value) :=
  List.replicate size ⟨info.getEmptyKey, none⟩

def getMinBucketToReserveForEntries (NumEntries : Nat) : Nat :=
  if NumEntries = 0 then 0 else u32 (NextPowerOf2 (u32 (NumEntries * 4) / 3 + 1))

def moveBuckets : List (Bucket Key Value) → List (Bucket Key Value) → Nat →
    Option (List (Bucket Key Value) × Nat)
  | [], buckets, NumEntries => some (buckets, NumEntries)
  | bucket :: old, buckets, NumEntries =>
      if hasValue info bucket then
        match LookupBucketFor info buckets bucket.first with
        | some (_, some DestBucket) => moveBuckets old (buckets.set DestBucket bucket) (NumEntries + 1)
        | _ => none
      else moveBuckets old buckets NumEntries

def moveFromOldBuckets (small : Bool) (size : Nat) (old : List (Bucket Key Value)) :
    Option (DenseMap Key Value) :=
  (moveBuckets info old (emptyBuckets info size) 0).map fun (buckets, entries) =>
    ⟨small, buckets, entries, 0⟩

def initEmpty (small : Bool) (size : Nat) : DenseMap Key Value :=
  ⟨small, emptyBuckets info size, 0, 0⟩

/-- A `DenseMap` is given a number of entries, a `SmallDenseMap` one of buckets. -/
def init (number : Nat) : DenseMap Key Value :=
  match kind with
  | .dense => initEmpty info false (getMinBucketToReserveForEntries number)
  | .small InlineBuckets =>
      if number > InlineBuckets then initEmpty info false number
      else initEmpty info true InlineBuckets

def allocationSize (AtLeast : Nat) : Nat :=
  max 64 (u32 (NextPowerOf2 (u32 (AtLeast + 2 ^ 32 - 1))))

def grow (AtLeast : Nat) (map : DenseMap Key Value) : Option (DenseMap Key Value) :=
  match kind with
  | .dense =>
      if map.Buckets.length = 0 then some (initEmpty info false (allocationSize AtLeast))
      else moveFromOldBuckets info false (allocationSize AtLeast) map.Buckets
  | .small InlineBuckets =>
      let AtLeast := if AtLeast > InlineBuckets then allocationSize AtLeast else AtLeast
      let old := if map.Small then map.Buckets.filter (hasValue info) else map.Buckets
      if AtLeast > InlineBuckets then moveFromOldBuckets info false AtLeast old
      else moveFromOldBuckets info true InlineBuckets old

def shrink_and_clear (map : DenseMap Key Value) : DenseMap Key Value :=
  let NewNumBuckets := if map.NumEntries = 0 then 0 else 2 ^ (Log2_32_Ceil map.NumEntries + 1)
  match kind with
  | .dense =>
      let NewNumBuckets := if map.NumEntries = 0 then 0 else max 64 NewNumBuckets
      if NewNumBuckets = map.getNumBuckets then initEmpty info map.Small map.getNumBuckets
      else init info kind NewNumBuckets
  | .small InlineBuckets =>
      let NewNumBuckets :=
        if NewNumBuckets > InlineBuckets ∧ NewNumBuckets < 64 then 64 else NewNumBuckets
      if (map.Small ∧ NewNumBuckets ≤ InlineBuckets) ∨
          (¬ map.Small ∧ NewNumBuckets = map.getNumBuckets) then
        initEmpty info map.Small map.getNumBuckets
      else init info kind NewNumBuckets

/-! ### Operations -/

def reserve (NumEntries : Nat) (map : DenseMap Key Value) : Option (DenseMap Key Value) :=
  let NumBuckets := getMinBucketToReserveForEntries NumEntries
  if NumBuckets > map.getNumBuckets then grow info kind NumBuckets map else some map

def clear (map : DenseMap Key Value) : DenseMap Key Value :=
  if map.NumEntries = 0 ∧ map.NumTombstones = 0 then map
  else if u32 (map.NumEntries * 4) < map.getNumBuckets ∧ map.getNumBuckets > 64 then
    shrink_and_clear info kind map
  else
    { map with
      Buckets := map.Buckets.map fun _ => ⟨info.getEmptyKey, none⟩
      NumEntries := 0
      NumTombstones := 0 }

def find (key : Key) (map : DenseMap Key Value) : Option (Option Value) := do
  let (found, bucket) ← LookupBucketFor info map.Buckets key
  if found then some ((bucket.bind fun index => map.Buckets[index]?).bind Bucket.second)
  else some none

def count (key : Key) (map : DenseMap Key Value) : Option Nat := do
  let (found, _) ← LookupBucketFor info map.Buckets key
  some (if found then 1 else 0)

def lookup [Inhabited Value] (key : Key) (map : DenseMap Key Value) : Option Value :=
  (find info key map).map fun value => value.getD default

def size (map : DenseMap Key Value) : Nat := map.NumEntries

def growsForLoad (map : DenseMap Key Value) : Prop :=
  u32 ((map.NumEntries + 1) * 4) ≥ u32 (map.getNumBuckets * 3)

def growsForTombstones (map : DenseMap Key Value) : Prop :=
  u32 (map.getNumBuckets + 2 ^ 32 - (map.NumEntries + 1 + map.NumTombstones)) ≤
    map.getNumBuckets / 8

instance (map : DenseMap Key Value) : Decidable map.growsForLoad :=
  inferInstanceAs (Decidable (_ ≥ _))

instance (map : DenseMap Key Value) : Decidable map.growsForTombstones :=
  inferInstanceAs (Decidable (_ ≤ _))

def InsertIntoBucketImpl (key : Key) (bucket : Option Nat) (map : DenseMap Key Value) :
    Option (Nat × DenseMap Key Value) := do
  let (TheBucket, map) ←
    if map.growsForLoad then do
      let map ← grow info kind (u32 (map.getNumBuckets * 2)) map
      let (_, TheBucket) ← LookupBucketFor info map.Buckets key
      some (TheBucket, map)
    else if map.growsForTombstones then do
      let map ← grow info kind map.getNumBuckets map
      let (_, TheBucket) ← LookupBucketFor info map.Buckets key
      some (TheBucket, map)
    else some (bucket, map)
  let TheBucket ← TheBucket
  let old ← map.Buckets[TheBucket]?
  some (TheBucket,
    { map with
      NumEntries := map.NumEntries + 1
      NumTombstones :=
        if isEmptyBucket info old then map.NumTombstones else map.NumTombstones - 1 })

def InsertIntoBucket (key : Key) (value : Value) (bucket : Option Nat) (map : DenseMap Key Value) :
    Option (DenseMap Key Value) := do
  let (TheBucket, map) ← InsertIntoBucketImpl info kind key bucket map
  some { map with Buckets := map.Buckets.set TheBucket ⟨key, some value⟩ }

def try_emplace (key : Key) (value : Value) (map : DenseMap Key Value) :
    Option (DenseMap Key Value) := do
  let (found, bucket) ← LookupBucketFor info map.Buckets key
  if found then some map else InsertIntoBucket info kind key value bucket map

def subscript [Inhabited Value] (key : Key) (write : Value → Value) (map : DenseMap Key Value) :
    Option (DenseMap Key Value) := do
  let (found, bucket) ← LookupBucketFor info map.Buckets key
  if found then do
    let index ← bucket
    let old ← map.Buckets[index]?
    some { map with Buckets := map.Buckets.set index { old with second := old.second.map write } }
  else InsertIntoBucket info kind key (write default) bucket map

def erase (key : Key) (map : DenseMap Key Value) : Option (DenseMap Key Value) := do
  let (found, bucket) ← LookupBucketFor info map.Buckets key
  if found then do
    let index ← bucket
    some { map with
      Buckets := map.Buckets.set index ⟨info.getTombstoneKey, none⟩
      NumEntries := map.NumEntries - 1
      NumTombstones := map.NumTombstones + 1 }
  else some map

def copyFrom (other : DenseMap Key Value) : DenseMap Key Value :=
  match kind with
  | .dense => if other.getNumBuckets = 0 then ⟨false, [], 0, 0⟩ else { other with Small := false }
  | .small InlineBuckets => { other with Small := decide (¬ other.getNumBuckets > InlineBuckets) }

/-- Two inline buckets exchange their keys, and a value moves along with its key. -/
def swapInline (LHSB RHSB : Bucket Key Value) : Bucket Key Value × Bucket Key Value :=
  if hasValue info LHSB && hasValue info RHSB then (RHSB, LHSB)
  else if hasValue info LHSB then (⟨RHSB.first, none⟩, ⟨LHSB.first, LHSB.second⟩)
  else if hasValue info RHSB then (⟨RHSB.first, RHSB.second⟩, ⟨LHSB.first, none⟩)
  else (⟨RHSB.first, LHSB.second⟩, ⟨LHSB.first, RHSB.second⟩)

def swap (left right : DenseMap Key Value) : DenseMap Key Value × DenseMap Key Value :=
  if left.Small && right.Small then
    let exchanged := List.zipWith (swapInline info) left.Buckets right.Buckets
    (⟨true, exchanged.map Prod.fst, right.NumEntries, right.NumTombstones⟩,
      ⟨true, exchanged.map Prod.snd, left.NumEntries, left.NumTombstones⟩)
  else (right, left)

end DenseMap

end EvmBackend
