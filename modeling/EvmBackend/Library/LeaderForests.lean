/-
Classes kept as parents, no parent above its child. The parents lead from an
element to the least member of its class, the leader.

Two classes are joined by climbing from both sides at once: the higher of two
parents is replaced by the lower one, and what it was is still to be joined.
-/

import Mathlib.Logic.Relation
import Mathlib.Order.Bounds.Basic
import Mathlib.Order.Lattice
import Mathlib.Order.WellFounded
import Mathlib.Tactic.Basic

namespace EvmBackend.LeaderForests

open Function

variable {Element : Type*} {parent : Element → Element} {element leader left right first second : Element}

def Descending [LE Element] (parent : Element → Element) : Prop := ∀ element, parent element ≤ element

def Linked (parent : Element → Element) : Element → Element → Prop :=
  Relation.EqvGen fun child upper => parent child = upper

def LinkedWith (parent : Element → Element) (left right : Element) : Element → Element → Prop :=
  Relation.EqvGen fun child upper => parent child = upper ∨ (child = left ∧ upper = right)

instance : IsEquiv Element (Linked parent) := inferInstanceAs (IsEquiv Element (Relation.EqvGen _))

instance : IsEquiv Element (LinkedWith parent left right) := inferInstanceAs (IsEquiv Element (Relation.EqvGen _))

inductive Leads (parent : Element → Element) : Element → Element → Prop
  | here {element : Element} (top : parent element = element) : Leads parent element element
  | up {element leader : Element} (rest : Leads parent (parent element) leader) : Leads parent element leader

def Reached (parent : Element → Element) : Element → Element → Prop :=
  Relation.TransGen fun child upper => parent child = upper

/-- Where climbs from two elements can meet: at what both reach, and at what one of them reaches below
everything that the other does. -/
def Meets [LT Element] (parent : Element → Element) (left right meeting : Element) : Prop :=
  (Reached parent left meeting ∧ Reached parent right meeting) ∨
    (Reached parent left meeting ∧ ∀ other, Reached parent right other → meeting < other) ∨
      (Reached parent right meeting ∧ ∀ other, Reached parent left other → meeting < other)

theorem linked_parent (element : Element) : Linked parent element (parent element) := .rel _ _ rfl

section

variable (leads : Leads parent element leader)

include leads

theorem Leads.top : parent leader = leader := by
  induction leads with
  | here top => exact top
  | up _ ih => exact ih

theorem Leads.linked : Linked parent element leader := by
  induction leads with
  | here _ => exact .refl _
  | up _ ih => exact .trans _ _ _ (linked_parent _) ih

theorem Leads.at_top (top : parent element = element) :
    leader = element := by
  induction leads with
  | here _ => rfl
  | @up element leader _ ih =>
      rw [top] at ih
      exact ih top

theorem Leads.next : Leads parent (parent element) leader := by
  cases leads with
  | here top =>
      rw [top]
      exact .here top
  | up rest => exact rest

end

theorem Leads.unique (one : Leads parent element first) (two : Leads parent element second) : first = second := by
  induction one with
  | here top => exact (two.at_top top).symm
  | up _ ih => exact ih two.next

theorem leads_of_flat {flat : Element → Element} (all : ∀ element, Leads parent element (flat element))
    (element : Element) :
    Leads flat element (flat element) := by
  have top : flat (flat element) = flat element := (all (flat element)).at_top (all element).top
  exact .up (.here top)

theorem reached_parent (element : Element) : Reached parent element (parent element) := .single rfl

theorem reached_iff (parent : Element → Element) (element : Element) :
    Reached parent element first ↔ first = parent element ∨ Reached parent (parent element) first := by
  unfold Reached
  rw [Relation.TransGen.head'_iff]
  constructor
  · rintro ⟨_, rfl, rest⟩
    exact (Relation.reflTransGen_iff_eq_or_transGen.mp rest)
  · intro rest
    exact ⟨_, rfl, Relation.reflTransGen_iff_eq_or_transGen.mpr rest⟩

theorem reached_top (top : parent element = element) : Reached parent element first ↔ first = element := by
  constructor
  · intro reached
    induction reached with
    | single step => exact step.symm.trans top
    | tail _ step ih => rw [← step, ih, top]
  · intro same
    rw [same]
    exact .single top

theorem Reached.linked (reached : Reached parent element first) : Linked parent element first :=
  Relation.EqvGen.transGen_le_eqvGen _ _ _ reached

theorem Leads.reached (leads : Leads parent element leader) : Reached parent element leader := by
  induction leads with
  | here top => exact .single top
  | up _ ih => exact (reached_iff _ _).mpr (.inr ih)

/-! ### Joining -/

theorem LinkedWith.symm (linked : LinkedWith parent left right first second) :
    LinkedWith parent left right second first :=
  Relation.EqvGen.symm _ _ linked

theorem LinkedWith.trans {middle : Element} (one : LinkedWith parent left right first middle)
    (two : LinkedWith parent left right middle second) : LinkedWith parent left right first second :=
  Relation.EqvGen.trans _ _ _ one two

theorem linkedWith_pair : LinkedWith parent left right left right := .rel _ _ (.inr ⟨rfl, rfl⟩)

theorem linkedWith_parent (element : Element) : LinkedWith parent left right element (parent element) :=
  .rel _ _ (.inl rfl)

theorem linkedWith_swap : LinkedWith parent left right first second ↔
    LinkedWith parent right left first second := by
  have each : ∀ left right first second : Element,
      LinkedWith parent left right first second → LinkedWith parent right left first second := by
    intro left right first second
    refine Relation.EqvGen.eqvGen_le (fun child upper step => ?_) _ _
    rcases step with up | ⟨rfl, rfl⟩
    · exact .rel _ _ (.inl up)
    · exact linkedWith_pair.symm
  exact ⟨each left right first second, each right left first second⟩

theorem linkedWith_of_parent_eq (same : parent left = parent right) :
    LinkedWith parent left right first second ↔ Linked parent first second := by
  constructor
  · refine Relation.EqvGen.eqvGen_le (fun child upper step => ?_) _ _
    rcases step with up | ⟨rfl, rfl⟩
    · exact .rel _ _ up
    · exact (linked_parent child).trans _ _ _ (same ▸ (linked_parent upper).symm)
  · exact Relation.EqvGen.mono (fun child upper step => .inl step) _ _

theorem linked_of_linkedWith (linked : LinkedWith parent left right left element) :
    Linked parent left element ∨ Linked parent right element := by
  have sides : ∀ {first second : Element}, LinkedWith parent left right first second →
      (Linked parent left first ∨ Linked parent right first ↔
        Linked parent left second ∨ Linked parent right second) := by
    intro first second linked
    induction linked with
    | rel child upper step =>
        rcases step with up | ⟨rfl, rfl⟩
        · have one : Linked parent child upper := .rel _ _ up
          constructor
          · exact Or.imp (fun other => other.trans _ _ _ one) (fun other => other.trans _ _ _ one)
          · exact Or.imp (fun other => other.trans _ _ _ (one.symm _ _))
              (fun other => other.trans _ _ _ (one.symm _ _))
        · exact iff_of_true (.inl (.refl _)) (.inr (.refl _))
    | refl element => exact Iff.rfl
    | symm _ _ _ ih => exact ih.symm
    | trans _ _ _ _ _ ihLeft ihRight => exact ihLeft.trans ihRight
  exact (sides linked).mp (.inl (.refl _))

section Redirect

variable [DecidableEq Element]

theorem linkedWith_redirect (apart : left ≠ right) :
    LinkedWith (update parent right (parent left)) left (parent right) first second ↔
      LinkedWith parent left right first second := by
  have stays : update parent right (parent left) left = parent left := update_of_ne apart _ _
  have moves : update parent right (parent left) right = parent left := update_self _ _ _
  constructor
  · refine Relation.EqvGen.eqvGen_le (fun child upper step => ?_) _ _
    rcases step with up | ⟨rfl, rfl⟩
    · by_cases moved : child = right
      · rw [moved, moves] at up
        rw [moved, ← up]
        exact linkedWith_pair.symm.trans (linkedWith_parent left)
      · rw [update_of_ne moved] at up
        exact .rel _ _ (.inl up)
    · exact linkedWith_pair.trans (linkedWith_parent right)
  · have toParent :
        LinkedWith (update parent right (parent left)) left (parent right) right (parent left) :=
      .rel _ _ (.inl moves)
    have pair : LinkedWith (update parent right (parent left)) left (parent right) left right :=
      LinkedWith.trans (.rel _ _ (.inl stays)) toParent.symm
    refine Relation.EqvGen.eqvGen_le (fun child upper step => ?_) _ _
    rcases step with up | ⟨rfl, rfl⟩
    · by_cases moved : child = right
      · rw [moved] at up
        rw [moved, ← up]
        exact pair.symm.trans linkedWith_pair
      · refine .rel _ _ (.inl ?_)
        rw [update_of_ne moved]
        exact up
    · exact pair

theorem descending_update [LE Element] (descending : Descending parent) {below : Element}
    (less : below ≤ element) :
    Descending (update parent element below) := by
  intro other
  by_cases same : other = element
  · rw [same, update_self]
    exact less
  · rw [update_of_ne same]
    exact descending other

end Redirect

section Order

variable [LinearOrder Element]

theorem Leads.le (descending : Descending parent) (leads : Leads parent element leader) : leader ≤ element := by
  induction leads with
  | here _ => exact le_refl _
  | @up element _ _ ih => exact ih.trans (descending element)

variable [WellFoundedLT Element]

section

variable (descending : Descending parent)

include descending

theorem exists_leads (element : Element) :
    ∃ leader, Leads parent element leader := by
  induction element using WellFoundedLT.induction with
  | ind element ih =>
      rcases lt_or_eq_of_le (descending element) with below | top
      · obtain ⟨leader, leads⟩ := ih _ below
        exact ⟨leader, leads.up⟩
      · exact ⟨element, .here top⟩

theorem linked_iff_leads (ofLeft : Leads parent left first)
    (ofRight : Leads parent right second) : Linked parent left right ↔ first = second := by
  constructor
  · intro linked
    induction linked generalizing first second with
    | rel child upper step =>
        rw [← step] at ofRight
        exact ofLeft.next.unique ofRight
    | refl element => exact ofLeft.unique ofRight
    | symm _ _ _ ih => exact (ih ofRight ofLeft).symm
    | trans _ middle _ _ _ ihLeft ihRight =>
        obtain ⟨between, leads⟩ := exists_leads descending middle
        exact (ihLeft ofLeft leads).trans (ihRight leads ofRight)
  · intro same
    rw [← same] at ofRight
    exact ofLeft.linked.trans _ _ _ (ofRight.linked.symm _ _)

theorem Leads.isLeast (leads : Leads parent element leader) :
    IsLeast { other | Linked parent element other } leader := by
  refine ⟨leads.linked, fun other linked => ?_⟩
  obtain ⟨top, also⟩ := exists_leads descending other
  rw [(linked_iff_leads descending leads also).mp linked]
  exact also.le descending

theorem leads_iff_isLeast :
    Leads parent element leader ↔ IsLeast { other | Linked parent element other } leader := by
  constructor
  · exact fun leads => leads.isLeast descending
  · intro least
    obtain ⟨top, leads⟩ := exists_leads descending element
    rw [least.unique (leads.isLeast descending)]
    exact leads

theorem linked_flat_iff {flat : Element → Element}
    (all : ∀ element, Leads parent element (flat element)) :
      Linked flat first second ↔ Linked parent first second := by
  have below : Descending flat := fun element => (all element).le descending
  rw [linked_iff_leads below (leads_of_flat all first) (leads_of_flat all second),
    linked_iff_leads descending (all first) (all second)]

end

end Order

section Meeting

variable [LinearOrder Element]

theorem Reached.le (descending : Descending parent) (reached : Reached parent element first) :
    first ≤ parent element := by
  induction reached with
  | single step => exact step.ge
  | @tail between _ _ step ih => exact step.ge.trans ((descending between).trans ih)

theorem reached_update (descending : Descending parent) {moved target : Element} (apart : element ≠ moved)
    (less : parent element < moved) :
    Reached (update parent moved target) element first ↔ Reached parent element first := by
  have below : ∀ {other : Element}, Reached parent element other → other ≠ moved := fun reached =>
    ((reached.le descending).trans_lt less).ne
  constructor
  · intro reached
    induction reached with
    | single step =>
        rw [update_of_ne apart] at step
        exact .single step
    | tail _ step ih =>
        rw [update_of_ne (below ih)] at step
        exact ih.tail step
  · intro reached
    induction reached with
    | single step =>
        refine .single ?_
        rw [update_of_ne apart]
        exact step
    | tail before step ih =>
        refine ih.tail ?_
        rw [update_of_ne (below before)]
        exact step

theorem meets_swap : Meets parent left right element ↔ Meets parent right left element := by
  unfold Meets
  rw [and_comm (a := Reached parent left element), or_comm (a := Reached parent left element ∧ _)]

theorem meets_of_parent_eq (same : parent left = parent right) :
    Meets parent left right element ↔ Reached parent left element := by
  have both : ∀ other, Reached parent right other ↔ Reached parent left other := fun other => by
    rw [reached_iff parent right, reached_iff parent left, same]
  unfold Meets
  simp only [both]
  constructor
  · rintro (⟨one, -⟩ | ⟨one, -⟩ | ⟨one, -⟩)
    · exact one
    · exact one
    · exact one
  · exact fun one => .inl ⟨one, one⟩

theorem isGreatest_meets (descending : Descending parent) (same : parent left = parent right) :
    IsGreatest { meeting | Meets parent left right meeting } (parent left) :=
  ⟨(meets_of_parent_eq same).mpr (reached_parent left),
    fun _ meets => ((meets_of_parent_eq same).mp meets).le descending⟩

theorem meets_redirect (descending : Descending parent) (less : parent left < parent right) :
    Meets (update parent right (parent left)) left (parent right) element ↔
      Meets parent left right element := by
  have lower : parent left < right := less.trans_le (descending right)
  have apart : left ≠ right := fun same => less.ne (congrArg parent same)
  have ofLeft : ∀ other, Reached (update parent right (parent left)) left other ↔
      Reached parent left other :=
    fun other => reached_update descending apart lower
  have leftLe : ∀ {other}, Reached parent left other → other < parent right := fun reached =>
    (reached.le descending).trans_lt less
  rcases (descending right).lt_or_eq with inside | top
  · have ofRight : ∀ other, Reached (update parent right (parent left)) (parent right) other ↔
        Reached parent (parent right) other :=
      fun other => reached_update descending inside.ne ((descending _).trans_lt inside)
    unfold Meets
    simp only [ofLeft, ofRight, reached_iff parent right]
    constructor
    · rintro (⟨one, two⟩ | ⟨one, two⟩ | ⟨one, two⟩)
      · exact .inl ⟨one, .inr two⟩
      · refine .inr (.inl ⟨one, fun other reached => ?_⟩)
        rcases reached with rfl | reached
        · exact leftLe one
        · exact two other reached
      · exact .inr (.inr ⟨.inr one, two⟩)
    · rintro (⟨one, rfl | two⟩ | ⟨one, two⟩ | ⟨rfl | one, two⟩)
      · exact absurd (leftLe one) (lt_irrefl _)
      · exact .inl ⟨one, two⟩
      · exact .inr (.inl ⟨one, fun other reached => two other (.inr reached)⟩)
      · exact absurd (two _ (reached_parent left)) less.not_gt
      · exact .inr (.inr ⟨one, two⟩)
  · have joined : update parent right (parent left) left =
        update parent right (parent left) right := by
      rw [update_of_ne apart, update_self]
    rw [top, meets_of_parent_eq joined, ofLeft]
    unfold Meets
    simp only [reached_top top, forall_eq]
    constructor
    · exact fun one => .inr (.inl ⟨one, top ▸ leftLe one⟩)
    · rintro (⟨one, -⟩ | ⟨one, -⟩ | ⟨rfl, two⟩)
      · exact one
      · exact one
      · exact absurd (two _ (reached_parent left)) lower.not_gt

/-- The highest meeting is the least member of the joined class exactly if climbs can only meet at leaders. -/
theorem isLeast_highest_meeting [WellFoundedLT Element] (descending : Descending parent) {highest : Element}
    (greatest : IsGreatest { meeting | Meets parent left right meeting } highest) :
    IsLeast { other | LinkedWith parent left right left other } highest ↔
      ∀ meeting, Meets parent left right meeting → parent meeting = meeting := by
  have ofLinked : ∀ {first second : Element}, Linked parent first second →
      LinkedWith parent left right first second :=
    fun linked => Relation.EqvGen.mono (fun child upper step => .inl step) _ _ linked
  have member : ∀ {meeting}, Meets parent left right meeting → LinkedWith parent left right left meeting := by
    rintro meeting (⟨one, -⟩ | ⟨one, -⟩ | ⟨one, -⟩)
    · exact ofLinked one.linked
    · exact ofLinked one.linked
    · exact linkedWith_pair.trans (ofLinked one.linked)
  constructor
  · intro least meeting meets
    have below : highest ≤ parent meeting := least.2 ((member meets).trans (linkedWith_parent meeting))
    exact (descending meeting).antisymm ((greatest.2 meets).trans below)
  · intro leaders
    refine ⟨member greatest.1, fun other linked => ?_⟩
    have top : Leads parent highest highest := .here (leaders highest greatest.1)
    have least : ∀ {first}, Reached parent first highest → Linked parent first other → highest ≤ other :=
      fun reached linked => (top.isLeast descending).2 ((reached.linked.symm _ _).trans _ _ _ linked)
    have above : ∀ {first}, (∀ other, Reached parent first other → highest < other) → Linked parent first other →
        highest ≤ other := by
      intro first below linked
      obtain ⟨leader, leads⟩ := exists_leads descending first
      exact (below leader leads.reached).le.trans ((leads.isLeast descending).2 linked)
    rcases greatest.1 with ⟨one, two⟩ | ⟨one, two⟩ | ⟨one, two⟩
    · exact (linked_of_linkedWith linked).elim (least one) (least two)
    · exact (linked_of_linkedWith linked).elim (least one) (above two)
    · exact (linked_of_linkedWith linked).elim (above two) (least one)

end Meeting

end EvmBackend.LeaderForests
