/-
Equivalence classes of small integers: joined while the map is open, numbered when
it is compressed.

`join` climbs from both elements at once and overwrites the parents it passes. It
keeps the classes right whatever the parents look like, but it returns the place
where the climbs meet, which need not be the leader.
-/

import EvmBackend.Library.LeaderForests
import EvmBackend.Library.Runs
import Mathlib.Data.List.Basic

namespace EvmBackend

/-- While uncompressed each integer is mapped to a smaller member of its class, the leader to itself;
once compressed, to the number of the class. -/
structure IntEqClasses where
  EC : List Nat
  NumClasses : Nat
  deriving DecidableEq, Repr

namespace IntEqClasses

open LeaderForests

def pushOwn : Nat → List Nat → List Nat
  | 0, EC => EC
  | missing + 1, EC => pushOwn missing (EC ++ [EC.length])

def grow (N : Nat) (classes : IntEqClasses) : Option IntEqClasses := do
  guard (classes.NumClasses = 0)
  some { classes with EC := pushOwn (N - classes.EC.length) classes.EC }

def create (N : Nat) : IntEqClasses := ⟨pushOwn N [], 0⟩

/-- The loop of `join`; it has no result when the rounds run out. -/
def climb : Nat → Nat → Nat → Nat → Nat → List Nat → Option (Nat × List Nat)
  | 0, _, _, _, _, _ => none
  | rounds + 1, a, b, eca, ecb, EC =>
      if eca ≠ ecb then
        if eca < ecb then do
          let EC := EC.set b eca
          let next ← EC[ecb]?
          climb rounds a ecb eca next EC
        else do
          let EC := EC.set a ecb
          let next ← EC[eca]?
          climb rounds eca b next ecb EC
      else some (eca, EC)

def join (a b : Nat) (classes : IntEqClasses) : Option (Nat × IntEqClasses) := do
  guard (classes.NumClasses = 0)
  let eca ← classes.EC[a]?
  let ecb ← classes.EC[b]?
  let (meeting, EC) ← climb (2 * (a + b) + 1) a b eca ecb classes.EC
  some (meeting, { classes with EC := EC })

def findLeaderFrom : Nat → Nat → List Nat → Option Nat
  | 0, _, _ => none
  | rounds + 1, a, EC => do
      let eca ← EC[a]?
      if a ≠ eca then findLeaderFrom rounds eca EC else some a

def findLeader (a : Nat) (classes : IntEqClasses) : Option Nat := do
  guard (classes.NumClasses = 0)
  findLeaderFrom (a + 1) a classes.EC

def compressEntry (i : Nat) (classes : IntEqClasses) : Option IntEqClasses := do
  let eci ← classes.EC[i]?
  if eci = i then
    some { EC := classes.EC.set i classes.NumClasses, NumClasses := classes.NumClasses + 1 }
  else
    let number ← classes.EC[eci]?
    some { classes with EC := classes.EC.set i number }

def compress (classes : IntEqClasses) : Option IntEqClasses :=
  if classes.NumClasses ≠ 0 then some classes
  else Runs.run compressEntry (List.range classes.EC.length) classes

/-- The number of the class of `a`, the subscript operator of the source. -/
def number (a : Nat) (classes : IntEqClasses) : Option Nat := do
  guard (classes.NumClasses ≠ 0)
  classes.EC[a]?

/-- The leaders found so far, in order, and the entries. -/
def uncompressEntry (i : Nat) : List Nat × List Nat → Option (List Nat × List Nat)
  | (Leader, EC) => do
      let eci ← EC[i]?
      match Leader[eci]? with
      | some leader => some (Leader, EC.set i leader)
      | none => some (Leader ++ [i], EC.set i i)

def uncompress (classes : IntEqClasses) : Option IntEqClasses :=
  if classes.NumClasses = 0 then some classes
  else (Runs.run uncompressEntry (List.range classes.EC.length) ([], classes.EC)).map fun entries =>
    ⟨entries.2, 0⟩

/-- Integers that are not in the map are their own parents. -/
def parent (EC : List Nat) (element : Nat) : Nat := EC[element]?.getD element

variable {EC : List Nat} {classes : IntEqClasses} {a b : Nat}

theorem getElem?_eq_parent (within : a < EC.length) : EC[a]? = some (parent EC a) := by
  unfold parent
  rw [List.getElem?_eq_getElem within, Option.getD_some]

theorem parent_outside (outside : EC.length ≤ a) : parent EC a = a := by
  unfold parent
  rw [List.getElem?_eq_none outside, Option.getD_none]

theorem parent_set (within : a < EC.length) (value : Nat) :
    parent (EC.set a value) = Function.update (parent EC) a value := by
  funext element
  unfold parent
  rw [List.getElem?_set]
  by_cases same : a = element
  · rw [if_pos same, if_pos (same ▸ within), Option.getD_some, ← same, Function.update_self]
  · rw [if_neg same, Function.update_of_ne (Ne.symm same)]

theorem length_pushOwn (missing : Nat) (EC : List Nat) : (pushOwn missing EC).length = EC.length + missing := by
  induction missing generalizing EC with
  | zero => rfl
  | succ missing ih =>
      unfold pushOwn
      rw [ih, List.length_append, List.length_singleton]
      omega

theorem parent_pushOwn (missing : Nat) (EC : List Nat) : parent (pushOwn missing EC) = parent EC := by
  induction missing generalizing EC with
  | zero => rfl
  | succ missing ih =>
      unfold pushOwn
      rw [ih]
      funext element
      unfold parent
      rcases Nat.lt_trichotomy element EC.length with inside | rfl | outside
      · rw [List.getElem?_append_left inside]
      · rw [List.getElem?_concat_length, Option.getD_some, List.getElem?_eq_none (Nat.le_refl _),
          Option.getD_none]
      · rw [List.getElem?_eq_none (by rw [List.length_append, List.length_singleton]; omega),
          List.getElem?_eq_none (by omega)]

/-- One round: the entry with the higher parent gets the lower one, and what is left to do stays the same. -/
structure Redirected (EC redirected : List Nat) (a b : Nat) : Prop where
  length : redirected.length = EC.length
  lower : parent redirected a = parent EC a
  next : redirected[parent EC b]? = some (parent redirected (parent EC b))
  descending : Descending (parent redirected)
  fewer : parent EC b + parent redirected (parent EC b) < b + parent EC b
  linked : ∀ first second,
    LinkedWith (parent redirected) a (parent EC b) first second ↔ LinkedWith (parent EC) a b first second
  meets : ∀ meeting, Meets (parent redirected) a (parent EC b) meeting ↔ Meets (parent EC) a b meeting

theorem redirected_set (descending : Descending (parent EC)) (right : b < EC.length)
    (less : parent EC a < parent EC b) :
    Redirected EC (EC.set b (parent EC a)) a b := by
  have rightLe := descending b
  have apart : a ≠ b := fun equal => less.ne (congrArg (parent EC) equal)
  have moved := parent_set right (parent EC a)
  have still : Descending (parent (EC.set b (parent EC a))) := by
    rw [moved]
    exact descending_update descending (less.le.trans rightLe)
  refine ⟨List.length_set, ?_, getElem?_eq_parent (by rw [List.length_set]; omega), still, ?_,
    fun first second => ?_, fun meeting => ?_⟩
  · rw [moved, Function.update_of_ne apart]
  · rcases rightLe.lt_or_eq with inside | top
    · have below := still (parent EC b)
      omega
    · rw [moved, top, Function.update_self]
      omega
  · rw [moved]
    exact linkedWith_redirect apart
  · rw [moved]
    exact meets_redirect descending less

structure Climbed (EC joined : List Nat) (a b meeting : Nat) : Prop where
  length : joined.length = EC.length
  descending : Descending (parent joined)
  linked : ∀ first second, Linked (parent joined) first second ↔ LinkedWith (parent EC) a b first second
  highest : IsGreatest { meeting | Meets (parent EC) a b meeting } meeting

theorem Climbed.swap {joined : List Nat} {meeting : Nat} (climbed : Climbed EC joined a b meeting) :
    Climbed EC joined b a meeting := by
  refine ⟨climbed.length, climbed.descending,
    fun first second => (climbed.linked first second).trans linkedWith_swap,
    meets_swap.mp climbed.highest.1, fun other meets => climbed.highest.2 (meets_swap.mp meets)⟩

theorem Redirected.climbed {redirected joined : List Nat} {meeting : Nat} (round : Redirected EC redirected a b)
    (climbed : Climbed redirected joined a (parent EC b) meeting) : Climbed EC joined a b meeting :=
  ⟨climbed.length.trans round.length, climbed.descending,
    fun first second => (climbed.linked first second).trans (round.linked first second),
    (round.meets _).mp climbed.highest.1, fun other meets => climbed.highest.2 ((round.meets other).mpr meets)⟩

/-- The rounds are enough, the two classes are joined, and what is returned is the highest place where the
climbs can meet. -/
theorem climb_spec {rounds : Nat} (descending : Descending (parent EC)) (left : a < EC.length)
    (right : b < EC.length)
    (enough : a + b + parent EC a + parent EC b < rounds) :
    ∃ meeting joined, climb rounds a b (parent EC a) (parent EC b) EC = some (meeting, joined) ∧
      Climbed EC joined a b meeting := by
  induction rounds generalizing EC a b with
  | zero => exact absurd enough (Nat.not_lt_zero _)
  | succ rounds ih =>
      unfold climb
      have leftLe := descending a
      have rightLe := descending b
      by_cases same : parent EC a = parent EC b
      · rw [if_neg (not_not_intro same)]
        exact ⟨_, _, rfl, rfl, descending, fun first second => (linkedWith_of_parent_eq same).symm,
          isGreatest_meets descending same⟩
      · rw [if_pos same]
        rcases Nat.lt_or_gt_of_ne same with less | more
        · have round := redirected_set descending right less
          rw [if_pos less]
          generalize EC.set b (parent EC a) = redirected at round ⊢
          dsimp only [bind]
          rw [round.next, Option.bind_some, ← round.lower]
          have fewer := round.fewer
          obtain ⟨meeting, joined, ran, climbed⟩ := ih round.descending (round.length ▸ left)
            (by rw [round.length]; omega) (by rw [round.lower]; omega : a + parent EC b + _ + _ < rounds)
          exact ⟨meeting, joined, ran, round.climbed climbed⟩
        · have round := redirected_set descending left more
          rw [if_neg more.not_gt]
          generalize EC.set a (parent EC b) = redirected at round ⊢
          dsimp only [bind]
          rw [round.next, Option.bind_some, ← round.lower]
          have fewer := round.fewer
          obtain ⟨meeting, joined, ran, climbed⟩ := ih round.descending
            (by rw [round.length]; omega) (round.length ▸ right)
              (by rw [round.lower]; omega : parent EC a + b + _ + _ < rounds)
          exact ⟨meeting, joined, ran, (round.climbed climbed.swap).swap⟩

end IntEqClasses

end EvmBackend
