/-
Ranges of fixed-width integers, possibly wrapping through zero, and the range
arithmetic of the optimiser.

A range is a half-open circular interval. Equal bounds stand for the empty set
when they are 0 and for the full set when they are all ones; nothing else is
built with equal bounds.
-/

import EvmBackend.APInt

namespace EvmBackend

open APInt

structure ConstantRange (W : Nat) where
  Lower : BitVec W
  Upper : BitVec W
  deriving DecidableEq, Repr

namespace ConstantRange

variable {W : Nat}

def getEmpty (W : Nat) : ConstantRange W := ⟨0, 0⟩

def getFull (W : Nat) : ConstantRange W := ⟨getMaxValue W, getMaxValue W⟩

def getNonEmpty (lower upper : BitVec W) : ConstantRange W :=
  if lower = upper then getFull W else ⟨lower, upper⟩

section Queries

variable (range other : ConstantRange W)

def isFullSet : Bool := range.Lower == range.Upper && range.Lower == getMaxValue W

def isEmptySet : Bool := range.Lower == range.Upper && range.Lower == 0

def isWrappedSet : Bool := range.Upper.ult range.Lower && range.Upper != 0

def isUpperWrapped : Bool := range.Upper.ult range.Lower

def isSignWrappedSet : Bool := range.Upper.slt range.Lower && !isMinSignedValue range.Upper

def isUpperSignWrapped : Bool := range.Upper.slt range.Lower

def isSizeStrictlySmallerThan : Bool :=
  if range.isFullSet then false
  else if other.isFullSet then true
  else (range.Upper - range.Lower).ult (other.Upper - other.Lower)

def getUnsignedMax : BitVec W :=
  if range.isFullSet || range.isUpperWrapped then getMaxValue W else range.Upper - 1

def getUnsignedMin : BitVec W :=
  if range.isFullSet || range.isWrappedSet then 0 else range.Lower

def getSignedMax : BitVec W :=
  if range.isFullSet || range.isUpperSignWrapped then getSignedMaxValue W else range.Upper - 1

def getSignedMin : BitVec W :=
  if range.isFullSet || range.isSignWrappedSet then getSignedMinValue W else range.Lower

def contains (value : BitVec W) : Bool :=
  if range.Lower = range.Upper then range.isFullSet
  else if !range.isUpperWrapped then range.Lower.ule value && value.ult range.Upper
  else range.Lower.ule value || value.ult range.Upper

end Queries

/-! ### Union and change of width -/

/-- The preferred one of two ranges is the smaller one; the other preferences
are never asked for here. -/
def getPreferredRange (first second : ConstantRange W) : ConstantRange W :=
  if first.isSizeStrictlySmallerThan second then first else second

def unionWithWrapped (range other : ConstantRange W) : ConstantRange W :=
  if !other.isUpperWrapped then
    if other.Upper.ule range.Upper || range.Lower.ule other.Lower then range
    else if other.Lower.ule range.Upper && range.Lower.ule other.Upper then getFull W
    else if range.Upper.ult other.Lower && other.Upper.ult range.Lower then
      getPreferredRange ⟨range.Lower, other.Upper⟩ ⟨other.Lower, range.Upper⟩
    else if range.Upper.ult other.Lower && range.Lower.ule other.Upper then
      ⟨other.Lower, range.Upper⟩
    else ⟨range.Lower, other.Upper⟩
  else if other.Lower.ule range.Upper || range.Lower.ule other.Upper then getFull W
  else
    ⟨if other.Lower.ult range.Lower then other.Lower else range.Lower,
      if range.Upper.ult other.Upper then other.Upper else range.Upper⟩

def unionWith (range other : ConstantRange W) : ConstantRange W :=
  if range.isFullSet || other.isEmptySet then range
  else if other.isFullSet || range.isEmptySet then other
  else if !range.isUpperWrapped && other.isUpperWrapped then unionWithWrapped other range
  else if !range.isUpperWrapped && !other.isUpperWrapped then
    if other.Upper.ult range.Lower || range.Upper.ult other.Lower then
      getPreferredRange ⟨range.Lower, other.Upper⟩ ⟨other.Lower, range.Upper⟩
    else
      let lower := if other.Lower.ult range.Lower then other.Lower else range.Lower
      let upper := if (range.Upper - 1).ult (other.Upper - 1) then other.Upper else range.Upper
      if lower = 0 ∧ upper = 0 then getFull W else ⟨lower, upper⟩
  else unionWithWrapped range other

def zeroExtend (range : ConstantRange W) (width : Nat) : ConstantRange width :=
  if range.isEmptySet then getEmpty width
  else if range.isFullSet || range.isUpperWrapped then
    -- [X, 0) does not really wrap around
    ⟨if range.Upper = 0 then range.Lower.setWidth width else 0, getOneBitSet width W⟩
  else ⟨range.Lower.setWidth width, range.Upper.setWidth width⟩

def signExtend (range : ConstantRange W) (width : Nat) : ConstantRange width :=
  if range.isEmptySet then getEmpty width
  else if isMinSignedValue range.Upper then
    -- [X, INT_MIN) does not really wrap around
    ⟨range.Lower.signExtend width, range.Upper.setWidth width⟩
  else if range.isFullSet || range.isSignWrappedSet then
    ⟨getHighBitsSet width (width - W + 1), getLowBitsSet width (W - 1) + 1⟩
  else ⟨range.Lower.signExtend width, range.Upper.signExtend width⟩

/-- The part of a range that does not wrap, joined with what the wrapping part
has left. -/
def truncateFrom (width : Nat) (lower upper : BitVec W) (union : ConstantRange width) :
    ConstantRange width :=
  let adjust := if width < getActiveBits lower then lower &&& getBitsSetFrom W width else 0
  let lowerDiv := lower - adjust
  let upperDiv := upper - adjust
  let upperDivWidth := getActiveBits upperDiv
  if upperDivWidth ≤ width then
    unionWith ⟨lowerDiv.setWidth width, upperDiv.setWidth width⟩ union
  else if upperDivWidth = width + 1 then
    let cleared := upperDiv &&& ~~~ getOneBitSet W width
    if cleared.ult lowerDiv then
      unionWith ⟨lowerDiv.setWidth width, cleared.setWidth width⟩ union
    else getFull width
  else getFull width

def truncate (range : ConstantRange W) (width : Nat) : ConstantRange width :=
  if range.isEmptySet then getEmpty width
  else if range.isFullSet then getFull width
  else if range.isUpperWrapped then
    -- [0, Upper) and [Lower, MaxValue]
    if decide (width < getActiveBits range.Upper) || countTrailingOnes range.Upper == width then
      getFull width
    else
      let union : ConstantRange width := ⟨getMaxValue width, range.Upper.setWidth width⟩
      if range.Lower = getMaxValue W then union
      else truncateFrom width range.Lower (getMaxValue W) union
  else truncateFrom width range.Lower range.Upper (getEmpty width)

section Operations

variable (range other : ConstantRange W)

def orFullIfWrapped (lower upper : BitVec W) : ConstantRange W :=
  if lower = upper then getFull W
  else if isSizeStrictlySmallerThan ⟨lower, upper⟩ range ||
      isSizeStrictlySmallerThan ⟨lower, upper⟩ other then getFull W
  else ⟨lower, upper⟩

def add : ConstantRange W :=
  if range.isEmptySet || other.isEmptySet then getEmpty W
  else if range.isFullSet || other.isFullSet then getFull W
  else orFullIfWrapped range other (range.Lower + other.Lower) (range.Upper + other.Upper - 1)

def sub : ConstantRange W :=
  if range.isEmptySet || other.isEmptySet then getEmpty W
  else if range.isFullSet || other.isFullSet then getFull W
  else orFullIfWrapped range other (range.Lower - other.Upper + 1) (range.Upper - other.Lower)

def smaller (left right : BitVec W) : BitVec W := if right.slt left then right else left

def larger (left right : BitVec W) : BitVec W := if left.slt right then right else left

/-- The least and the greatest of the products of the bounds, in twice the width. -/
def signedProducts : BitVec (W * 2) × BitVec (W * 2) :=
  let thisMin := range.getSignedMin.signExtend (W * 2)
  let thisMax := range.getSignedMax.signExtend (W * 2)
  let otherMin := other.getSignedMin.signExtend (W * 2)
  let otherMax := other.getSignedMax.signExtend (W * 2)
  (smaller (smaller (smaller (thisMin * otherMin) (thisMin * otherMax)) (thisMax * otherMin))
      (thisMax * otherMax),
    larger (larger (larger (thisMin * otherMin) (thisMin * otherMax)) (thisMax * otherMin))
      (thisMax * otherMax))

def multiply : ConstantRange W :=
  if range.isEmptySet || other.isEmptySet then getEmpty W
  else
    let thisMin := range.getUnsignedMin.setWidth (W * 2)
    let thisMax := range.getUnsignedMax.setWidth (W * 2)
    let otherMin := other.getUnsignedMin.setWidth (W * 2)
    let otherMax := other.getUnsignedMax.setWidth (W * 2)
    let UR := truncate ⟨thisMin * otherMin, thisMax * otherMax + 1⟩ W
    if !UR.isUpperWrapped && (isNonNegative UR.Upper || isMinSignedValue UR.Upper) then UR
    else
      let (least, greatest) := signedProducts range other
      let SR := truncate ⟨least, greatest + 1⟩ W
      if UR.isSizeStrictlySmallerThan SR then UR else SR

def between (least greatest : BitVec W) : ConstantRange W :=
  if range.isEmptySet || other.isEmptySet then getEmpty W else getNonEmpty least (greatest + 1)

def umaxOf (left right : BitVec W) : BitVec W := if right.ult left then left else right

def uminOf (left right : BitVec W) : BitVec W := if left.ult right then left else right

def smaxOf (left right : BitVec W) : BitVec W := if right.slt left then left else right

def sminOf (left right : BitVec W) : BitVec W := if left.slt right then left else right

def smax : ConstantRange W :=
  between range other (smaxOf range.getSignedMin other.getSignedMin)
    (smaxOf range.getSignedMax other.getSignedMax)

def umax : ConstantRange W :=
  between range other (umaxOf range.getUnsignedMin other.getUnsignedMin)
    (umaxOf range.getUnsignedMax other.getUnsignedMax)

def smin : ConstantRange W :=
  between range other (sminOf range.getSignedMin other.getSignedMin)
    (sminOf range.getSignedMax other.getSignedMax)

def umin : ConstantRange W :=
  between range other (uminOf range.getUnsignedMin other.getUnsignedMin)
    (uminOf range.getUnsignedMax other.getUnsignedMax)

/-- The lowest divisor other than zero: 1, or X for a range of the form [X, 1). -/
def lowestDivisor : BitVec W :=
  if other.getUnsignedMin = 0 then if other.Upper.toNat = 1 then other.Lower else 1
  else other.getUnsignedMin

def udiv : ConstantRange W :=
  if range.isEmptySet || other.isEmptySet || other.getUnsignedMax == 0 then getEmpty W
  else getNonEmpty (range.getUnsignedMin / other.getUnsignedMax)
    (range.getUnsignedMax / lowestDivisor other + 1)

def urem : ConstantRange W :=
  if range.isEmptySet || other.isEmptySet || other.getUnsignedMax == 0 then getEmpty W
  else if range.getUnsignedMax.ult other.getUnsignedMin then range
  else getNonEmpty 0 (uminOf range.getUnsignedMax (other.getUnsignedMax - 1) + 1)

def binaryAnd : ConstantRange W :=
  between range other 0 (uminOf other.getUnsignedMax range.getUnsignedMax)

def binaryOr : ConstantRange W :=
  if range.isEmptySet || other.isEmptySet then getEmpty W
  else getNonEmpty (umaxOf range.getUnsignedMin other.getUnsignedMin) 0

def shl : ConstantRange W :=
  if range.isEmptySet || other.isEmptySet then getEmpty W
  else if other.getUnsignedMax = 0 then range
  else if countLeadingZeros range.getUnsignedMax < other.getUnsignedMax.toNat then getFull W
  else ⟨range.getUnsignedMin <<< other.getUnsignedMin,
    range.getUnsignedMax <<< other.getUnsignedMax + 1⟩

def lshr : ConstantRange W :=
  between range other (range.getUnsignedMin >>> other.getUnsignedMax)
    (range.getUnsignedMax >>> other.getUnsignedMin)

def ashr : ConstantRange W :=
  let posMax := range.getSignedMax.sshiftRight' other.getUnsignedMin
  let posMin := range.getSignedMin.sshiftRight' other.getUnsignedMax
  let negMax := range.getSignedMax.sshiftRight' other.getUnsignedMax
  let negMin := range.getSignedMin.sshiftRight' other.getUnsignedMin
  if isNonNegative range.getSignedMin then between range other posMin posMax
  else if isNegative range.getSignedMax then between range other negMin negMax
  else between range other negMin posMax

def uadd_sat : ConstantRange W :=
  between range other (APInt.uadd_sat range.getUnsignedMin other.getUnsignedMin)
    (APInt.uadd_sat range.getUnsignedMax other.getUnsignedMax)

def sadd_sat : ConstantRange W :=
  between range other (APInt.sadd_sat range.getSignedMin other.getSignedMin)
    (APInt.sadd_sat range.getSignedMax other.getSignedMax)

def usub_sat : ConstantRange W :=
  between range other (APInt.usub_sat range.getUnsignedMin other.getUnsignedMax)
    (APInt.usub_sat range.getUnsignedMax other.getUnsignedMin)

def ssub_sat : ConstantRange W :=
  between range other (APInt.ssub_sat range.getSignedMin other.getSignedMax)
    (APInt.ssub_sat range.getSignedMax other.getSignedMin)

def umul_sat : ConstantRange W :=
  between range other (APInt.umul_sat range.getUnsignedMin other.getUnsignedMin)
    (APInt.umul_sat range.getUnsignedMax other.getUnsignedMax)

def smul_sat : ConstantRange W :=
  between range other (truncSSat W (signedProducts range other).1)
    (truncSSat W (signedProducts range other).2)

def ushl_sat : ConstantRange W :=
  between range other (APInt.ushl_sat range.getUnsignedMin other.getUnsignedMin)
    (APInt.ushl_sat range.getUnsignedMax other.getUnsignedMax)

def sshl_sat : ConstantRange W :=
  between range other
    (APInt.sshl_sat range.getSignedMin
      (if isNonNegative range.getSignedMin then other.getUnsignedMin else other.getUnsignedMax))
    (APInt.sshl_sat range.getSignedMax
      (if isNegative range.getSignedMax then other.getUnsignedMin else other.getUnsignedMax))

end Operations

end ConstantRange

end EvmBackend
