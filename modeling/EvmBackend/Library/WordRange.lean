/-
Ranges of addresses in a space of words: a first address and a size, where
addresses go round at the end of the space.

A range covers an address when the distance up from its start is below its
size. A range that does not go round is an interval of numbers, and intervals
that lie one behind the other are disjoint.
-/

import Mathlib.Data.List.Pairwise
import Mathlib.Tactic.Ring

namespace EvmBackend

structure WordRange (width : Nat) where
  start : BitVec width
  size : BitVec width
  deriving DecidableEq, Repr

namespace WordRange

variable {width : Nat} {left right range : WordRange width}

def Covers (range : WordRange width) (address : BitVec width) : Prop :=
  address - range.start < range.size

instance decidableCovers (range : WordRange width) (address : BitVec width) :
    Decidable (range.Covers address) :=
  inferInstanceAs (Decidable (_ < _))

def Disjoint (left right : WordRange width) : Prop :=
  ∀ address, left.Covers address → ¬ right.Covers address

def finish (range : WordRange width) : Nat := range.start.toNat + range.size.toNat

theorem Disjoint.symm (disjoint : left.Disjoint right) : right.Disjoint left := by
  intro address inRight inLeft
  exact disjoint address inLeft inRight

theorem not_covers_of_empty (empty : range.size = 0) (address : BitVec width) :
    ¬ range.Covers address := by
  unfold Covers
  rw [empty, BitVec.lt_def]
  simp

theorem disjoint_of_empty (empty : left.size = 0) : left.Disjoint right := by
  intro address inLeft
  exact absurd inLeft (not_covers_of_empty empty address)

theorem covers_iff (fits : range.finish ≤ 2 ^ width) (address : BitVec width) :
    range.Covers address ↔
      range.start.toNat ≤ address.toNat ∧ address.toNat < range.finish := by
  have bound := address.isLt
  unfold Covers
  rw [BitVec.lt_def, BitVec.toNat_sub]
  unfold finish at fits ⊢
  by_cases above : range.start.toNat ≤ address.toNat
  · have once : 2 ^ width - range.start.toNat + address.toNat =
        2 ^ width + (address.toNat - range.start.toNat) := by omega
    rw [once, Nat.add_mod_left, Nat.mod_eq_of_lt (by omega)]
    omega
  · rw [Nat.mod_eq_of_lt (by omega)]
    omega

theorem disjoint_of_le (below : left.finish ≤ right.start.toNat)
    (fits : right.finish ≤ 2 ^ width) : left.Disjoint right := by
  intro address inLeft inRight
  have upper := ((covers_iff (by omega) address).mp inLeft).2
  have lower := ((covers_iff fits address).mp inRight).1
  omega

end WordRange

end EvmBackend
