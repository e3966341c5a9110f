/-
Calls in any order, as their client sees them. The classes are those of the pairs
joined so far, whatever was compressed and opened again in between. What `join`
returns is the leader as long as the climbs can only meet at leaders.
-/

import EvmBackend.ADT.IntEqClasses.Numbering

namespace EvmBackend.IntEqClasses

open LeaderForests

inductive Call
  | grow (N : Nat)
  | join (a b : Nat)
  | compress
  | uncompress
  deriving DecidableEq, Repr

/-- The map, how many integers it has, the pairs joined so far and what the last call returned. -/
structure ClassesRun where
  classes : IntEqClasses
  size : Nat
  joins : List (Nat × Nat)
  returned : Option Nat

def call : Call → ClassesRun → Option ClassesRun
  | .grow N, run => (grow N run.classes).map fun classes => ⟨classes, max run.size N, run.joins, none⟩
  | .join a b, run => (join a b run.classes).map fun result =>
      ⟨result.2, run.size, run.joins ++ [(a, b)], some result.1⟩
  | .compress, run => (compress run.classes).map fun classes => ⟨classes, run.size, run.joins, none⟩
  | .uncompress, run => (uncompress run.classes).map fun classes => ⟨classes, run.size, run.joins, none⟩

def opened (N : Nat) : ClassesRun := ⟨create N, N, [], none⟩

/-- Only an open map is grown or joined, and only integers it has are joined. -/
def Allowed : Call → ClassesRun → Prop
  | .grow _, run => run.classes.NumClasses = 0
  | .join a b, run => run.classes.NumClasses = 0 ∧ a < run.size ∧ b < run.size
  | .compress, _ => True
  | .uncompress, _ => True

instance : ∀ call run, Decidable (Allowed call run)
  | .grow _, run => inferInstanceAs (Decidable (run.classes.NumClasses = 0))
  | .join a b, run => inferInstanceAs (Decidable (run.classes.NumClasses = 0 ∧ a < run.size ∧ b < run.size))
  | .compress, _ => isTrue trivial
  | .uncompress, _ => isTrue trivial

def Connected (joins : List (Nat × Nat)) : Nat → Nat → Prop := Relation.EqvGen fun one two => (one, two) ∈ joins

instance {joins : List (Nat × Nat)} : IsEquiv Nat (Connected joins) :=
  inferInstanceAs (IsEquiv Nat (Relation.EqvGen _))

def classOf (joins : List (Nat × Nat)) (element : Nat) : Set Nat := { other | Connected joins element other }

/-- The classes have the numbers below their count, in the order of their smallest members. -/
structure Numbered (run : ClassesRun) : Prop where
  entry : ∀ a < run.size, ∃ class' < run.classes.NumClasses, number a run.classes = some class'
  every : ∀ class' < run.classes.NumClasses, ∃ a < run.size, number a run.classes = some class'
  same : ∀ a < run.size, ∀ b < run.size, number a run.classes = number b run.classes ↔ Connected run.joins a b
  ordered : ∀ a b one two first second, number a run.classes = some one → number b run.classes = some two →
    IsLeast (classOf run.joins a) first → IsLeast (classOf run.joins b) second → (one < two ↔ first < second)

structure Faithful (run : ClassesRun) : Prop where
  leaders : run.classes.NumClasses = 0 → ∀ a < run.size,
    ∃ leader, findLeader a run.classes = some leader ∧ IsLeast (classOf run.joins a) leader
  same : run.classes.NumClasses = 0 → ∀ a < run.size, ∀ b < run.size,
    (findLeader a run.classes = findLeader b run.classes ↔ Connected run.joins a b)
  merged : ∀ leader, run.returned = some leader →
    ∃ a b, run.joins.getLast? = some (a, b) ∧ IsLeast (classOf run.joins a) leader
  numbered : run.classes.NumClasses ≠ 0 → Numbered run

def MeetAtLeaders : Call → ClassesRun → Prop
  | .join a b, run =>
      ∀ meeting, Meets (parent run.classes.EC) a b meeting → parent run.classes.EC meeting = meeting
  | _, _ => True

/-- The parents that the map has, or had before it was compressed. -/
structure Kept (EC : List Nat) (run : ClassesRun) : Prop where
  length : EC.length = run.size
  descending : Descending (parent EC)
  linked : ∀ first second, Linked (parent EC) first second ↔ Connected run.joins first second
  holds : run.classes = ⟨EC, 0⟩ ∨ (run.classes.NumClasses ≠ 0 ∧ Ranked EC run.classes)

variable {EC : List Nat} {run : ClassesRun} {a b N : Nat}

theorem Kept.class_eq (kept : Kept EC run) (element : Nat) :
    classOf run.joins element = { other | Linked (parent EC) element other } :=
  Set.ext fun other => (kept.linked element other).symm

theorem Kept.leads_iff (kept : Kept EC run) {element leader : Nat} :
    Leads (parent EC) element leader ↔ IsLeast (classOf run.joins element) leader := by
  rw [kept.class_eq]
  exact leads_iff_isLeast kept.descending

theorem Kept.same_iff (kept : Kept EC run) {one two : Nat} (ofLeft : Leads (parent EC) a one)
    (ofRight : Leads (parent EC) b two) : one = two ↔ Connected run.joins a b :=
  (linked_iff_leads kept.descending ofLeft ofRight).symm.trans (kept.linked a b)

theorem Kept.open_of (kept : Kept EC run) (uncompressed : run.classes.NumClasses = 0) : run.classes = ⟨EC, 0⟩ :=
  kept.holds.resolve_right fun compressed => compressed.1 uncompressed

theorem Kept.findLeader (kept : Kept EC run) (uncompressed : run.classes.NumClasses = 0)
    (inside : a < run.size) {leader : Nat}
    (leads : Leads (parent EC) a leader) : findLeader a run.classes = some leader := by
  rw [kept.open_of uncompressed]
  exact findLeaderFrom_spec kept.descending (kept.length.symm ▸ inside) (Nat.lt_succ_self a) leads

theorem number_eq {classes : IntEqClasses} (compressed : classes.NumClasses ≠ 0) :
    number a classes = classes.EC[a]? := by
  unfold number
  rw [guard, if_pos compressed]
  rfl

section

variable (kept : Kept EC run)

include kept

theorem Kept.ranked (compressed : run.classes.NumClasses ≠ 0) : Ranked EC run.classes :=
  (kept.holds.resolve_left fun isOpen => compressed (by rw [isOpen])).2

theorem Kept.number (compressed : run.classes.NumClasses ≠ 0) (inside : a < run.size)
    {leader : Nat}
    (leads : Leads (parent EC) a leader) : number a run.classes = some (rank EC leader) := by
  rw [number_eq compressed]
  exact (kept.ranked compressed).entries a (kept.length.symm ▸ inside) leader leads

theorem Kept.numbered (compressed : run.classes.NumClasses ≠ 0) : Numbered run := by
  have ranked := kept.ranked compressed
  have within : ∀ {a class' : Nat}, IntEqClasses.number a run.classes = some class' → a < run.size := by
    intro a class' found
    rw [number_eq compressed] at found
    have inside := (List.getElem?_eq_some_iff.mp found).1
    rwa [ranked.length, kept.length] at inside
  refine ⟨fun a inside => ?_, fun class' less => ?_, fun a left b right => ?_,
    fun a b one two first second ofOne ofTwo least other => ?_⟩
  · obtain ⟨leader, leads⟩ := exists_leads kept.descending a
    refine ⟨rank EC leader, ?_, kept.number compressed inside leads⟩
    rw [ranked.count, rank_lt_iff leads.top, kept.length]
    exact (leads.le kept.descending).trans_lt inside
  · rw [ranked.count] at less
    obtain ⟨leader, inside, top, rfl⟩ := exists_rank less
    rw [kept.length] at inside
    exact ⟨leader, inside, kept.number compressed inside (.here top)⟩
  · obtain ⟨one, leadsLeft⟩ := exists_leads kept.descending a
    obtain ⟨two, leadsRight⟩ := exists_leads kept.descending b
    rw [kept.number compressed left leadsLeft, kept.number compressed right leadsRight, Option.some_inj,
      rank_eq_iff leadsLeft.top leadsRight.top, kept.same_iff leadsLeft leadsRight]
  · have leadsLeft := kept.leads_iff.mpr least
    have leadsRight := kept.leads_iff.mpr other
    rw [kept.number compressed (within ofOne) leadsLeft] at ofOne
    rw [kept.number compressed (within ofTwo) leadsRight] at ofTwo
    cases ofOne
    cases ofTwo
    exact rank_lt_iff leadsLeft.top

theorem Kept.faithful (merged : ∀ leader, run.returned = some leader →
    ∃ a b, run.joins.getLast? = some (a, b) ∧ IsLeast (classOf run.joins a) leader) : Faithful run := by
  refine ⟨fun uncompressed a inside => ?_, fun uncompressed a left b right => ?_, merged,
    fun compressed => kept.numbered compressed⟩
  · obtain ⟨leader, leads⟩ := exists_leads kept.descending a
    exact ⟨leader, kept.findLeader uncompressed inside leads, kept.leads_iff.mp leads⟩
  · obtain ⟨one, leadsLeft⟩ := exists_leads kept.descending a
    obtain ⟨two, leadsRight⟩ := exists_leads kept.descending b
    rw [kept.findLeader uncompressed left leadsLeft, kept.findLeader uncompressed right leadsRight,
      Option.some_inj,
      kept.same_iff leadsLeft leadsRight]

/-! ### What one call does -/

theorem Kept.grow (uncompressed : run.classes.NumClasses = 0) (N : Nat) :
    ∃ next, call (.grow N) run = some next ∧ next.returned = none ∧ ∃ grown, Kept grown next := by
  have isOpen := kept.open_of uncompressed
  refine ⟨⟨⟨pushOwn (N - EC.length) EC, 0⟩, max run.size N, run.joins, none⟩, ?_, rfl,
    pushOwn (N - EC.length) EC, ?_, ?_, fun first second => ?_, .inl rfl⟩
  · unfold call
    dsimp only
    rw [isOpen]
    rfl
  · change (pushOwn (N - EC.length) EC).length = max run.size N
    rw [length_pushOwn, ← kept.length]
    omega
  · rw [parent_pushOwn]
    exact kept.descending
  · rw [parent_pushOwn]
    exact kept.linked first second

theorem Kept.linkedWith_iff (a b : Nat) {first second : Nat} :
    LinkedWith (parent EC) a b first second ↔ Connected (run.joins ++ [(a, b)]) first second := by
  have old : ∀ {one two : Nat}, Connected run.joins one two → Connected (run.joins ++ [(a, b)]) one two :=
    fun connected => Relation.EqvGen.mono (fun _ _ member => List.mem_append_left _ member) _ _ connected
  have parents : ∀ {one two : Nat}, Linked (parent EC) one two → LinkedWith (parent EC) a b one two :=
    fun linked => Relation.EqvGen.mono (fun _ _ step => .inl step) _ _ linked
  constructor
  · refine Relation.EqvGen.eqvGen_le (fun child upper step => ?_) _ _
    rcases step with up | ⟨rfl, rfl⟩
    · exact old ((kept.linked child upper).mp (.rel _ _ up))
    · exact .rel _ _ (List.mem_append_right _ (List.mem_singleton_self _))
  · refine Relation.EqvGen.eqvGen_le (fun one two member => ?_) _ _
    rcases List.mem_append.mp member with before | last
    · exact parents ((kept.linked one two).mpr (.rel _ _ before))
    · cases List.mem_singleton.mp last
      exact linkedWith_pair

theorem Kept.join (uncompressed : run.classes.NumClasses = 0) (left : a < run.size)
    (right : b < run.size) :
    ∃ next, call (.join a b) run = some next ∧ (∃ joined, Kept joined next) ∧
      (Faithful next ↔ MeetAtLeaders (.join a b) run) := by
  have isOpen := kept.open_of uncompressed
  rw [← kept.length] at left right
  have leftLe := kept.descending a
  have rightLe := kept.descending b
  obtain ⟨meeting, joined, ran, climbed⟩ := climb_spec kept.descending left right
    (by omega : a + b + _ + _ < 2 * (a + b) + 1)
  have keptNext : Kept joined ⟨⟨joined, 0⟩, run.size, run.joins ++ [(a, b)], some meeting⟩ :=
    ⟨climbed.length.trans kept.length, climbed.descending,
      fun first second => (climbed.linked first second).trans (kept.linkedWith_iff a b), .inl rfl⟩
  have joinedClass : classOf (run.joins ++ [(a, b)]) a = { other | LinkedWith (parent EC) a b a other } :=
    Set.ext fun other => (kept.linkedWith_iff a b).symm
  have exactly := isLeast_highest_meeting kept.descending climbed.highest
  refine ⟨_, ?_, ⟨joined, keptNext⟩, ?_⟩
  · unfold call IntEqClasses.join
    dsimp only
    rw [isOpen]
    dsimp only [bind]
    rw [getElem?_eq_parent left, getElem?_eq_parent right, Option.bind_some, Option.bind_some, ran]
    rfl
  · unfold MeetAtLeaders
    dsimp only
    rw [isOpen, ← exactly, ← joinedClass]
    constructor
    · intro faithful
      obtain ⟨one, two, last, least⟩ := faithful.merged meeting rfl
      rw [List.getLast?_concat] at last
      cases last
      exact least
    · intro least
      refine keptNext.faithful fun leader same => ?_
      cases same
      exact ⟨a, b, List.getLast?_concat, least⟩

theorem Kept.compress :
    ∃ next, call .compress run = some next ∧ next.returned = none ∧ ∃ parents, Kept parents next := by
  by_cases uncompressed : run.classes.NumClasses = 0
  · have isOpen := kept.open_of uncompressed
    obtain ⟨compressed, ran, ranked⟩ := compress_spec kept.descending
    refine ⟨⟨compressed, run.size, run.joins, none⟩, ?_, rfl, EC, kept.length, kept.descending, kept.linked, ?_⟩
    · unfold call
      dsimp only
      rw [isOpen, ran]
      rfl
    · by_cases empty : compressed.NumClasses = 0
      · -- without a leader there is nothing in the map
        have top : parent EC 0 = 0 := Nat.le_zero.mp (kept.descending 0)
        have none : ¬0 < EC.length := fun some => by
          have ranks := (rank_lt_iff top).mpr some
          rw [← ranked.count, empty] at ranks
          exact Nat.not_lt_zero _ ranks
        have noEntries : EC = [] := List.length_eq_zero_iff.mp (by omega)
        have noNumbers : compressed.EC = [] := List.length_eq_zero_iff.mp (ranked.length.trans (by omega))
        refine .inl ?_
        change compressed = ⟨EC, 0⟩
        rw [noEntries, ← noNumbers, ← empty]
      · exact .inr ⟨empty, ranked⟩
  · refine ⟨⟨run.classes, run.size, run.joins, none⟩, ?_, rfl, EC, kept.length, kept.descending,
      kept.linked, kept.holds⟩
    unfold call IntEqClasses.compress
    dsimp only
    rw [if_pos uncompressed]
    rfl

theorem Kept.uncompress :
    ∃ next, call .uncompress run = some next ∧ next.returned = none ∧ ∃ parents, Kept parents next := by
  by_cases uncompressed : run.classes.NumClasses = 0
  · refine ⟨⟨run.classes, run.size, run.joins, none⟩, ?_, rfl, EC, kept.length, kept.descending,
      kept.linked, kept.holds⟩
    unfold call IntEqClasses.uncompress
    dsimp only
    rw [if_pos uncompressed]
    rfl
  · obtain ⟨flat, ran, length, all⟩ := uncompress_spec kept.descending (kept.ranked uncompressed) uncompressed
    refine ⟨⟨⟨flat, 0⟩, run.size, run.joins, none⟩, ?_, rfl, flat, length.trans kept.length,
      fun element => (all element).le kept.descending, fun first second => ?_, .inl rfl⟩
    · unfold call
      dsimp only
      rw [ran]
      rfl
    · exact (linked_flat_iff kept.descending all).trans (kept.linked first second)

end

theorem kept_opened (N : Nat) : Kept (pushOwn N []) (opened N) := by
  have own : parent (pushOwn N []) = id := parent_pushOwn N []
  refine ⟨?_, ?_, fun first second => ?_, .inl rfl⟩
  · rw [length_pushOwn]
    exact Nat.zero_add N
  · rw [own]
    exact fun element => le_refl element
  · rw [own]
    constructor
    · refine Relation.EqvGen.eqvGen_le (fun child upper step => ?_) _ _
      rw [← step]
      exact .refl child
    · exact Relation.EqvGen.mono (fun one two member => absurd member List.not_mem_nil) _ _

/-- After every part of a run the map is faithful exactly if the climbs of every
join could only meet at leaders. -/
theorem classesRun_faithful_iff (N : Nat) (calls : List Call)
    (allowed : Runs.EveryStep call Allowed calls (opened N)) :
    (∀ earlier, earlier <+: calls → ∃ run, Runs.run call earlier (opened N) = some run ∧ Faithful run) ↔
      Runs.EveryStep call MeetAtLeaders calls (opened N) := by
  refine Runs.every_prefix_iff_everyStep (fun run => ∃ EC, Kept EC run) Faithful ?_ allowed ⟨_, kept_opened N⟩
    ((kept_opened N).faithful fun leader same => absurd same (Option.some_ne_none leader).symm)
  rintro first run may ⟨EC, kept⟩
  have silent : ∀ {one : Call},
      (∃ next, call one run = some next ∧ next.returned = none ∧ ∃ parents, Kept parents next) →
      MeetAtLeaders one run → ∃ next, call one run = some next ∧ (∃ EC, Kept EC next) ∧
        (Faithful next ↔ MeetAtLeaders one run) := by
    rintro one ⟨next, ran, none, parents, kept⟩ met
    refine ⟨next, ran, ⟨parents, kept⟩, iff_of_true (kept.faithful fun leader same => ?_) met⟩
    rw [none] at same
    exact absurd same (Option.some_ne_none leader).symm
  cases first with
  | grow N => exact silent (kept.grow may N) trivial
  | join a b => exact kept.join may.1 may.2.1 may.2.2
  | compress => exact silent kept.compress trivial
  | uncompress => exact silent kept.uncompress trivial

theorem classesRun_faithful_iff_ofThree :
    (∀ earlier, earlier <+: [.join 0 2, .compress, .uncompress, .join 1 2] →
      ∃ run, Runs.run call earlier (opened 3) = some run ∧ Faithful run) ↔
        Runs.EveryStep call MeetAtLeaders [.join 0 2, .compress, .uncompress, .join 1 2] (opened 3) :=
  classesRun_faithful_iff 3 _ (by decide)

/-- The climbs from 2 and 3 meet at 1, whose leader is 0. -/
theorem classesRun_not_faithful :
    ¬ ∀ (N : Nat) (calls : List Call), Runs.EveryStep call Allowed calls (opened N) →
    ∃ run, Runs.run call calls (opened N) = some run ∧ Faithful run := by
  intro every
  obtain ⟨run, reached, faithful⟩ := every 4 [.join 2 1, .join 1 0, .join 2 3] (by decide)
  have ran : Runs.run call [.join 2 1, .join 1 0, .join 2 3] (opened 4) =
      some ⟨⟨[0, 0, 1, 1], 0⟩, 4, [(2, 1), (1, 0), (2, 3)], some 1⟩ := by rfl
  rw [ran] at reached
  cases reached
  obtain ⟨a, b, last, least⟩ := faithful.merged 1 rfl
  cases last
  have one : Connected [(2, 1), (1, 0), (2, 3)] 2 1 := .rel _ _ (by decide)
  have zero : Connected [(2, 1), (1, 0), (2, 3)] 1 0 := .rel _ _ (by decide)
  exact absurd (least.2 (one.trans _ _ _ zero)) (by decide)

end EvmBackend.IntEqClasses
