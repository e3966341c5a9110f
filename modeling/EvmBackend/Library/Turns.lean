/-
Loops that get a number of turns. A state needs so many turns; with more than it needs
the loop leads from it to another state, or ends with a result.
-/

import Mathlib.Order.Basic

namespace EvmBackend.Turns

variable {State Result : Type*} (loop : Nat → State → Result) (needed : State → Nat)

/-- From one state the loop goes on from another, with as many turns as that needs. -/
def Leads (one two : State) : Prop :=
  ∀ turns, needed one < turns → ∃ less, needed two < less ∧ loop turns one = loop less two

def Ends (state : State) (result : Result) : Prop := ∀ turns, needed state < turns → loop turns state = result

variable {loop needed} {one two three : State} {result : Result}

theorem Leads.refl (state : State) : Leads loop needed state state :=
  fun turns enough => ⟨turns, enough, rfl⟩

theorem Leads.trans (first : Leads loop needed one two) (second : Leads loop needed two three) :
    Leads loop needed one three := by
  intro turns enough
  obtain ⟨less, still, same⟩ := first turns enough
  obtain ⟨least, left, rest⟩ := second less still
  exact ⟨least, left, same.trans rest⟩

theorem Leads.ends (leads : Leads loop needed one two) (ends : Ends loop needed two result) :
    Ends loop needed one result := by
  intro turns enough
  obtain ⟨less, still, same⟩ := leads turns enough
  exact same.trans (ends less still)

theorem leads_of_turn (fewer : needed two < needed one) (turn : ∀ turns, loop (turns + 1) one = loop turns two) :
    Leads loop needed one two := by
  intro turns enough
  cases turns with
  | zero => exact absurd enough (Nat.not_lt_zero _)
  | succ turns => exact ⟨turns, Nat.lt_of_lt_of_le fewer (Nat.le_of_lt_succ enough), turn turns⟩

theorem ends_of_turn (turn : ∀ turns, loop (turns + 1) one = result) : Ends loop needed one result := by
  intro turns enough
  cases turns with
  | zero => exact absurd enough (Nat.not_lt_zero _)
  | succ turns => exact turn turns

end EvmBackend.Turns
