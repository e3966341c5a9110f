/-
A division by a constant as a multiplication by a magic number.

The quotient of the numerator by every element of the divisor is the high half
of a product, shifted; a numerator is added or subtracted where the multiplier
does not fit. A division that is not built is `some none`; `none` stands for a
search that is given too few rounds, or a failed assertion.
-/

import EvmBackend.APInt.Magicu
import EvmBackend.TargetLowering

namespace EvmBackend.TargetLowering

open APInt

variable {W : Nat}

def highHalf (target : Target) (IsAfterLegalization : Bool) (single double : ISD) (X Y : SDNode W) :
    Option (SDNode W) :=
  if target.supports IsAfterLegalization single then some (.node single X Y)
  else if target.supports IsAfterLegalization double then some (.node double X Y)
  else none

def getSExtValue (value : BitVec W) : Int := (value.signExtend 64).toInt

structure SDIVElement (W : Nat) where
  MagicFactor : BitVec W
  Factor : BitVec W
  Shift : Nat
  ShiftMask : BitVec W
  deriving DecidableEq, Repr

def BuildSDIVPattern (rounds : Nat) (Divisor : BitVec W) : Option (Option (SDIVElement W)) :=
  if Divisor = 0 then some none
  else do
    let magics ← magic rounds Divisor
    let unit : Bool := Divisor == 1 || Divisor == BitVec.allOnes W
    let NumeratorFactor : Int :=
      if unit then getSExtValue Divisor
      else if isStrictlyPositive Divisor && isNegative magics.m then 1
      else if isNegative Divisor && isStrictlyPositive magics.m then -1
      else 0
    let magics : ms W := if unit then { m := 0, s := 0 } else magics
    let ShiftMask : Int := if unit then 0 else -1
    let Factor ← getConstant W (BitVec.ofInt 64 NumeratorFactor)
    let ShiftMask ← getConstant W (BitVec.ofInt 64 ShiftMask)
    some (some
      { MagicFactor := magics.m, Factor := Factor, Shift := magics.s, ShiftMask := ShiftMask })

def BuildSDIV (rounds : Nat) (target : Target) (IsAfterLegalization : Bool) (N1 : Constant W) :
    Option (Option (SDNode W)) :=
  if target.isTypeLegal then do
    match ← matchUnaryPredicate (BuildSDIVPattern rounds) N1.elements with
    | none => some none
    | some built =>
        match highHalf target IsAfterLegalization .MULHS .SMUL_LOHI .operand
            (.constant (built.map (·.MagicFactor))) with
        | none => some none
        | some Q =>
            let Factor := .node .MUL .operand (.constant (built.map (·.Factor)))
            let Q := .node .ADD Q Factor
            let Q := .shift .SRA Q (built.map (·.Shift))
            let T := .shift .SRL Q (built.map fun _ => W - 1)
            let T := .node .AND T (.constant (built.map (·.ShiftMask)))
            some (some (.node .ADD Q T))
  else some none

structure UDIVElement (W : Nat) where
  PreShift : Nat
  MagicFactor : BitVec W
  SelNPQ : Bool
  PostShift : Nat
  deriving DecidableEq, Repr

def UDIVElement.NPQFactor (element : UDIVElement W) : BitVec W :=
  if element.SelNPQ then getOneBitSet W (W - 1) else 0

/-- A shift of zero less one would be far above the width. -/
def BuildUDIVPattern (rounds : Nat) (Divisor : BitVec W) : Option (Option (UDIVElement W)) :=
  if Divisor = 0 then some none
  else do
    let magics ← magicu rounds 0 Divisor
    let (PreShift, magics) ←
      if magics.a && !Divisor.getLsbD 0 then do
        let PreShift := countTrailingZeros Divisor
        let magics ← magicu rounds PreShift (Divisor >>> PreShift)
        if magics.a then none else some (PreShift, magics)
      else some (0, magics)
    if !magics.a || Divisor == 1 then
      if magics.s < W then
        some (some { PreShift := PreShift, MagicFactor := magics.m, SelNPQ := false, PostShift := magics.s })
      else none
    else if magics.s = 0 then none
    else
      some (some { PreShift := PreShift, MagicFactor := magics.m, SelNPQ := true, PostShift := magics.s - 1 })

def BuildUDIV (rounds : Nat) (target : Target) (IsAfterLegalization : Bool) (N1 : Constant W) :
    Option (Option (SDNode W)) :=
  if target.isTypeLegal then do
    match ← matchUnaryPredicate (BuildUDIVPattern rounds) N1.elements with
    | none => some none
    | some built =>
        let GetMULHU := highHalf target IsAfterLegalization .MULHU .UMUL_LOHI
        let Q := .shift .SRL .operand (built.map (·.PreShift))
        match GetMULHU Q (.constant (built.map (·.MagicFactor))) with
        | none => some none
        | some Q =>
            let UseNPQ := built.any (·.SelNPQ)
            let NPQ := .node .SUB .operand Q
            let NPQ :=
              if N1.isVector then GetMULHU NPQ (.constant (built.map (·.NPQFactor)))
              else some (.shift .SRL NPQ (built.map fun _ => 1))
            let fixed := if UseNPQ then NPQ.map fun NPQ => .node .ADD NPQ Q else some Q
            some (fixed.map fun Q =>
              .select (.constant N1.elements) (.constant (N1.elements.map fun _ => 1)) .SETEQ .operand
                (.shift .SRL Q (built.map (·.PostShift))))
  else some none

end EvmBackend.TargetLowering
