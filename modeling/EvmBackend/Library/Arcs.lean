/-
Arcs of a linear order whose end is joined to its start.

An arc runs from its first point up to its last one, which it leaves out, and
goes on at the start where the last one comes before the first. Two arcs that
together go all the way round share two pieces; whatever arc covers both pieces
covers one of the two arcs, so the smaller of them is the best cover there is.
-/

import Mathlib.Order.Interval.Finset.Nat
import Mathlib.Order.Lattice

namespace EvmBackend.Arcs

section Order

variable {α : Type*} [LinearOrder α] {first last point a b c d : α}

def Arc (first last point : α) : Prop :=
  first < last ∧ first ≤ point ∧ point < last ∨ last < first ∧ (first ≤ point ∨ point < last)

instance : Decidable (Arc first last point) := inferInstanceAs (Decidable (_ ∨ _))

/-- Four points in the order in which one meets them on the way round. -/
def Cyclic (a b c d : α) : Prop :=
  a < b ∧ b < c ∧ c < d ∨ b < c ∧ c < d ∧ d < a ∨ c < d ∧ d < a ∧ a < b ∨ d < a ∧ a < b ∧ b < c

theorem not_arc_iff (differ : first ≠ last) : ¬ Arc first last point ↔ Arc last first point := by
  unfold Arc
  grind

theorem arc_first (differ : first ≠ last) : Arc first last first := by
  unfold Arc
  grind

theorem arc_subset_iff (differ : a ≠ b) (inner : c ≠ d) :
    (∀ point, Arc c d point → Arc a b point) ↔ Arc a b c ∧ ¬ Arc c d b := by
  constructor
  · intro inside
    refine ⟨inside c (arc_first inner), fun past => ?_⟩
    exact not_arc_iff differ |>.mpr (arc_first differ.symm) (inside b past)
  · rintro ⟨start, short⟩ point member
    unfold Arc at *
    grind

theorem arc_injective (differ : a ≠ b) (inner : c ≠ d) (same : ∀ point, Arc a b point ↔ Arc c d point) :
    a = c ∧ b = d := by
  have first := (same a).mp (arc_first differ)
  have second := (same c).mpr (arc_first inner)
  have third := mt (same b).mpr ((not_arc_iff differ).mpr (arc_first differ.symm))
  have fourth := mt (same d).mp ((not_arc_iff inner).mpr (arc_first inner.symm))
  unfold Arc at *
  grind

section

variable (order : Cyclic a b c d)

include order

theorem Cyclic.not_alternating (hasFirst : Arc first last a)
    (hasThird : Arc first last c) : Arc first last b ∨ Arc first last d := by
  unfold Arc Cyclic at *
  grind

theorem Cyclic.move_second (inside : Arc b c point) : Cyclic a point c d := by
  unfold Arc Cyclic at *
  grind

theorem Cyclic.move_fourth (inside : Arc d a point) : Cyclic a b c point := by
  unfold Arc Cyclic at *
  grind

theorem Cyclic.arc_iff :
    Arc a d point ↔ Arc a b point ∨ Arc b c point ∨ Arc c d point := by
  unfold Arc Cyclic at *
  grind

theorem Cyclic.opposite : Cyclic c d a b := by
  unfold Cyclic at *
  grind

theorem Cyclic.shared_iff :
    Arc a d point ∧ Arc c b point ↔ Arc a b point ∨ Arc c d point := by
  unfold Arc Cyclic at *
  grind

theorem Cyclic.covers (first last : α)
    (pieces : ∀ point, Arc a b point ∨ Arc c d point → Arc first last point) :
    (∀ point, Arc a d point → Arc first last point) ∨
      (∀ point, Arc c b point → Arc first last point) := by
  by_contra neither
  push Not at neither
  obtain ⟨⟨left, inLeft, missesLeft⟩, right, inRight, missesRight⟩ := neither
  have gapLeft : Arc b c left := by
    rcases order.arc_iff.mp inLeft with piece | gap | piece
    · exact absurd (pieces left (Or.inl piece)) missesLeft
    · exact gap
    · exact absurd (pieces left (Or.inr piece)) missesLeft
  have gapRight : Arc d a right := by
    rcases order.opposite.arc_iff.mp inRight with piece | gap | piece
    · exact absurd (pieces right (Or.inr piece)) missesRight
    · exact gap
    · exact absurd (pieces right (Or.inl piece)) missesRight
  have apart : a ≠ b ∧ c ≠ d := by
    unfold Cyclic at order
    grind
  have round := (order.move_second gapLeft).move_fourth gapRight
  rcases round.not_alternating (pieces a (Or.inl (arc_first apart.1)))
    (pieces c (Or.inr (arc_first apart.2))) with hasLeft | hasRight
  · exact missesLeft hasLeft
  · exact missesRight hasRight

end

end Order

theorem card_arc {bound first last : Nat} (differ : first ≠ last) (firstBelow : first < bound)
    (lastBelow : last < bound) :
    ((Finset.range bound).filter (Arc first last)).card =
      if first < last then last - first else bound + last - first := by
  have points : (Finset.range bound).filter (Arc first last) =
      if first < last then Finset.Ico first last else Finset.range bound \ Finset.Ico last first := by
    ext point
    rw [Finset.mem_filter, Finset.mem_range, Arc]
    split
    · rw [Finset.mem_Ico]
      omega
    · rw [Finset.mem_sdiff, Finset.mem_range, Finset.mem_Ico]
      omega
  rw [points]
  split
  · rw [Nat.card_Ico]
  · have inside : Finset.Ico last first ⊆ Finset.range bound := by
      intro point member
      rw [Finset.mem_Ico] at member
      rw [Finset.mem_range]
      omega
    rw [Finset.card_sdiff_of_subset inside, Finset.card_range, Nat.card_Ico]
    omega

end EvmBackend.Arcs
