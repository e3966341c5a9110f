/-
Partitions kept as labels. Merging two classes gives every element with the
second label the first one, and a list of merges reaches exactly the
equivalence the merged pairs generate.

Elements and labels are arbitrary; labels need only be comparable.
-/

import Mathlib.Logic.Relation

namespace EvmBackend.Relabelling

variable {Element Label : Type*}

/-- What the labels say already, together with the pairs still to be merged. -/
def Related (label : Element → Label) (pairs : List (Element × Element))
    (left right : Element) : Prop :=
  label left = label right ∨ (left, right) ∈ pairs

private theorem closure_le {closed generators : Element → Element → Prop}
    (each : ∀ left right, generators left right → Relation.EqvGen closed left right)
    {left right : Element} (linked : Relation.EqvGen generators left right) :
    Relation.EqvGen closed left right := by
  induction linked with
  | rel left right generated => exact each left right generated
  | refl element => exact .refl element
  | symm _ _ _ ih => exact .symm _ _ ih
  | trans _ _ _ _ _ ihLeft ihRight => exact .trans _ _ _ ihLeft ihRight

private theorem eqvGen_labels {label : Element → Label} {left right : Element}
    (linked : Relation.EqvGen (Related label []) left right) : label left = label right := by
  induction linked with
  | rel left right related =>
      rcases related with same | absent
      · exact same
      · cases absent
  | refl element => rfl
  | symm _ _ _ ih => exact ih.symm
  | trans _ _ _ _ _ ihLeft ihRight => exact ihLeft.trans ihRight

variable [DecidableEq Label]

def merge (keep drop : Label) (label : Element → Label) (element : Element) : Label :=
  if label element = drop then keep else label element

def mergeAll : List (Element × Element) → (Element → Label) → Element → Label
  | [], label => label
  | (left, right) :: rest, label => mergeAll rest (merge (label left) (label right) label)

theorem merge_of_eq {keep drop : Label} {label : Element → Label} {left right : Element}
    (same : label left = label right) :
    merge keep drop label left = merge keep drop label right := by
  unfold merge
  rw [same]

theorem merge_pair (label : Element → Label) (left right : Element) :
    merge (label left) (label right) label left = merge (label left) (label right) label right := by
  unfold merge
  rw [if_pos rfl, ite_self]

theorem eq_of_merge_eq {label : Element → Label} {first second left right : Element}
    (same : merge (label first) (label second) label left =
      merge (label first) (label second) label right) :
    label left = label right ∨ (label left = label second ∧ label right = label first) ∨
      (label left = label first ∧ label right = label second) := by
  unfold merge at same
  by_cases dropLeft : label left = label second
  · by_cases dropRight : label right = label second
    · exact .inl (dropLeft.trans dropRight.symm)
    · rw [if_pos dropLeft, if_neg dropRight] at same
      exact .inr (.inl ⟨dropLeft, same.symm⟩)
  · by_cases dropRight : label right = label second
    · rw [if_neg dropLeft, if_pos dropRight] at same
      exact .inr (.inr ⟨same, dropRight⟩)
    · rw [if_neg dropLeft, if_neg dropRight] at same
      exact .inl same

variable {label : Element → Label}

private theorem related_merge_iff (first second : Element) (rest : List (Element × Element))
    (left right : Element) :
    Relation.EqvGen (Related (merge (label first) (label second) label) rest) left right ↔
      Relation.EqvGen (Related label ((first, second) :: rest)) left right := by
  have pair : Relation.EqvGen (Related label ((first, second) :: rest)) first second :=
    .rel _ _ (.inr List.mem_cons_self)
  have labels : ∀ {left right : Element}, label left = label right →
      Relation.EqvGen (Related label ((first, second) :: rest)) left right :=
    fun same => .rel _ _ (.inl same)
  constructor
  · refine closure_le ?_
    rintro left right (same | later)
    · rcases eq_of_merge_eq same with same | ⟨atLeft, atRight⟩ | ⟨atLeft, atRight⟩
      · exact labels same
      · exact (labels atLeft).trans _ _ _ ((pair.symm _ _).trans _ _ _ (labels atRight.symm))
      · exact (labels atLeft).trans _ _ _ (pair.trans _ _ _ (labels atRight.symm))
    · exact .rel _ _ (.inr (List.mem_cons_of_mem _ later))
  · refine closure_le ?_
    rintro left right (same | member)
    · exact .rel _ _ (.inl (merge_of_eq same))
    · rcases List.mem_cons.mp member with isPair | later
      · cases isPair
        exact .rel _ _ (.inl (merge_pair label first second))
      · exact .rel _ _ (.inr later)

theorem mergeAll_eq_iff (pairs : List (Element × Element)) (label : Element → Label)
    (left right : Element) :
    mergeAll pairs label left = mergeAll pairs label right ↔
      Relation.EqvGen (Related label pairs) left right := by
  induction pairs generalizing label with
  | nil => exact ⟨fun same => .rel _ _ (.inl same), eqvGen_labels⟩
  | cons pair rest ih =>
      exact (ih _).trans (related_merge_iff pair.1 pair.2 rest left right)

end EvmBackend.Relabelling
