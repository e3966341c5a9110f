/-
Intersection, union and complement of ranges, with a preference between the
ranges that cover a set which is not a range.

A failed assertion is none.
-/

import EvmBackend.ConstantRange.Arithmetic
import EvmBackend.Library.Arcs

namespace EvmBackend

open APInt

inductive PreferredRangeType where
  | Smallest
  | Unsigned
  | Signed
  deriving DecidableEq, Repr

namespace ConstantRange

variable {W : Nat}

def create (lower upper : BitVec W) : Option (ConstantRange W) := do
  guard (lower ≠ upper ∨ lower = getMaxValue W ∨ lower = 0)
  some ⟨lower, upper⟩

def inverse (range : ConstantRange W) : Option (ConstantRange W) :=
  if range.isFullSet then some (getEmpty W)
  else if range.isEmptySet then some (getFull W)
  else create range.Upper range.Lower

def containsRange (range other : ConstantRange W) : Bool :=
  if range.isFullSet || other.isEmptySet then true
  else if range.isEmptySet || other.isFullSet then false
  else if !range.isUpperWrapped then
    if other.isUpperWrapped then false
    else range.Lower.ule other.Lower && other.Upper.ule range.Upper
  else if !other.isUpperWrapped then other.Upper.ule range.Upper || range.Lower.ule other.Lower
  else other.Upper.ule range.Upper && range.Lower.ule other.Lower

end ConstantRange

namespace PreferredRangeType

open ConstantRange

variable {W : Nat} (type : PreferredRangeType)

def prefers (first second : ConstantRange W) : Bool :=
  match type with
  | Smallest => false
  | Unsigned => !first.isWrappedSet && second.isWrappedSet
  | Signed => !first.isSignWrappedSet && second.isSignWrappedSet

def getPreferredRange (first second : ConstantRange W) : ConstantRange W :=
  if type.prefers first second then first
  else if type.prefers second first then second
  else if first.isSizeStrictlySmallerThan second then first
  else second

def intersectWrapped (range other : ConstantRange W) : Option (ConstantRange W) :=
  if !other.isUpperWrapped then
    if other.Lower.ult range.Upper then
      if other.Upper.ult range.Upper then some other
      else if other.Upper.ule range.Lower then create other.Lower range.Upper
      else some (type.getPreferredRange range other)
    else if other.Lower.ult range.Lower then
      if other.Upper.ule range.Lower then some (getEmpty W)
      else create range.Lower other.Upper
    else some other
  else if other.Upper.ult range.Upper then
    if other.Lower.ult range.Upper then some (type.getPreferredRange range other)
    else if other.Lower.ult range.Lower then create range.Lower other.Upper
    else some other
  else if other.Upper.ule range.Lower then
    if other.Lower.ult range.Lower then some range
    else create other.Lower range.Upper
  else some (type.getPreferredRange range other)

def intersectWith (range other : ConstantRange W) : Option (ConstantRange W) :=
  if range.isEmptySet || other.isFullSet then some range
  else if other.isEmptySet || range.isFullSet then some other
  else if !range.isUpperWrapped && other.isUpperWrapped then type.intersectWrapped other range
  else if !range.isUpperWrapped && !other.isUpperWrapped then
    if range.Lower.ult other.Lower then
      if range.Upper.ule other.Lower then some (getEmpty W)
      else if range.Upper.ult other.Upper then create other.Lower range.Upper
      else some other
    else if range.Upper.ult other.Upper then some range
    else if range.Lower.ult other.Upper then create range.Lower other.Upper
    else some (getEmpty W)
  else type.intersectWrapped range other

/-- The preferred one of the two ranges that close a gap between two ranges. -/
def closeGap (range other : ConstantRange W) : Option (ConstantRange W) := do
  let first ← create range.Lower other.Upper
  let second ← create other.Lower range.Upper
  some (type.getPreferredRange first second)

def unionWrapped (range other : ConstantRange W) : Option (ConstantRange W) :=
  if !other.isUpperWrapped then
    if other.Upper.ule range.Upper || range.Lower.ule other.Lower then some range
    else if other.Lower.ule range.Upper && range.Lower.ule other.Upper then some (getFull W)
    else if range.Upper.ult other.Lower && other.Upper.ult range.Lower then
      type.closeGap range other
    else if range.Upper.ult other.Lower && range.Lower.ule other.Upper then
      create other.Lower range.Upper
    else do
      guard (other.Lower.ule range.Upper && other.Upper.ult range.Lower)
      create range.Lower other.Upper
  else if other.Lower.ule range.Upper || range.Lower.ule other.Upper then some (getFull W)
  else
    create (if other.Lower.ult range.Lower then other.Lower else range.Lower)
      (if range.Upper.ult other.Upper then other.Upper else range.Upper)

def unionWith (range other : ConstantRange W) : Option (ConstantRange W) :=
  if range.isFullSet || other.isEmptySet then some range
  else if other.isFullSet || range.isEmptySet then some other
  else if !range.isUpperWrapped && other.isUpperWrapped then type.unionWrapped other range
  else if !range.isUpperWrapped && !other.isUpperWrapped then
    if other.Upper.ult range.Lower || range.Upper.ult other.Lower then type.closeGap range other
    else
      let lower := if other.Lower.ult range.Lower then other.Lower else range.Lower
      let upper := if (range.Upper - 1).ult (other.Upper - 1) then other.Upper else range.Upper
      if lower = 0 ∧ upper = 0 then some (getFull W) else create lower upper
  else type.unionWrapped range other

end PreferredRangeType

end EvmBackend
