/-
Integers as text: the digits that are read and written, the width that a text
needs, and the text of a value.

A failed assertion is `none`; with `NDEBUG` the assertions are compiled out. A
loop that writes digits goes at most for the given rounds. The width that a text needs is
an unsigned word, and wraps; lengths are numbers without a bound.
-/

import EvmBackend.APInt.Division

namespace EvmBackend.APInt

variable {W : Nat}

def distance (cdigit base : Char) : Nat := (cdigit.toNat + 2 ^ 32 - base.toNat) % 2 ^ 32

def getDecimalDigit (cdigit : Char) (radix : Nat) : Nat :=
  if distance cdigit '0' < radix then distance cdigit '0' else 2 ^ 32 - 1

/-- The digit, or the largest word for another character. -/
def getDigit (cdigit : Char) (radix : Nat) : Nat :=
  if radix = 16 ∨ radix = 36 then
    if distance cdigit '0' ≤ 9 then distance cdigit '0'
    else if distance cdigit 'A' ≤ radix - 11 then distance cdigit 'A' + 10
    else if distance cdigit 'a' ≤ radix - 11 then distance cdigit 'a' + 10
    else getDecimalDigit cdigit 10
  else getDecimalDigit cdigit radix

def radixes : List Nat := [10, 8, 16, 2, 36]

/-- Whether there is a minus, and what follows the sign. -/
def splitSign : List Char → Bool × List Char
  | '-' :: digits => (true, digits)
  | '+' :: digits => (false, digits)
  | digits => (false, digits)

def shiftFor (radix : Nat) : Nat := if radix = 16 then 4 else if radix = 8 then 3 else if radix = 2 then 1 else 0

section Reading

variable (NDEBUG : Bool)

def insufficientBitWidth (slen numbits radix : Nat) : Bool :=
  decide (radix = 2 ∧ numbits < slen) || decide (radix = 8 ∧ numbits < (slen - 1) * 3) ||
    decide (radix = 16 ∧ numbits < (slen - 1) * 4) || decide (radix = 10 ∧ numbits < (slen - 1) * 64 / 22)

def readDigit (radix slen : Nat) (value : BitVec W) (cdigit : Char) : Option (BitVec W) := do
  let digit := getDigit cdigit radix
  guard (NDEBUG ∨ digit < radix)
  let shift := shiftFor radix
  guard (NDEBUG ∨ slen ≤ 1 ∨ shift ≤ W)
  let moved := if 1 < slen then (if shift ≠ 0 then value <<< shift else value * BitVec.ofNat W radix) else value
  some (moved + BitVec.ofNat W digit)

def fromString (numbits : Nat) (str : List Char) (radix : Nat) : Option (BitVec numbits) := do
  guard (str ≠ [])
  guard (NDEBUG ∨ radix ∈ radixes)
  let (isNeg, digits) := splitSign str
  let slen := digits.length
  guard (NDEBUG ∨ slen ≠ 0)
  guard (NDEBUG ∨ insufficientBitWidth slen numbits radix = false)
  let value ← digits.foldlM (readDigit NDEBUG radix slen) 0
  some (if isNeg then -value else value)

end Reading

/-- No value for a zero, where the logarithm is minus one. -/
def logBase2 (value : BitVec W) : Option Nat :=
  if getActiveBits value = 0 then none else some (getActiveBits value - 1)

def countOnes : Nat → Nat → Nat
  | 0, _ => 0
  | bits + 1, value => value % 2 + countOnes bits (value / 2)

def countPopulation (value : BitVec W) : Nat := countOnes W value.toNat

def isPowerOf2 (value : BitVec W) : Bool :=
  if W ≤ 64 then value.toNat ≠ 0 ∧ value.toNat &&& (value.toNat - 1) = 0 else countPopulation value = 1

def estimatedBits (radix slen : Nat) : Nat :=
  if radix = 10 then (if slen = 1 then 4 else slen * 64 / 18) else (if slen = 1 then 7 else slen * 16 / 3)

/-- A number of bits that is meant to be enough for all texts of the length. -/
def sufficientBits (radix slen : Nat) : Nat := estimatedBits radix slen % 2 ^ 32

def getBitsNeeded (NDEBUG : Bool) (str : List Char) (radix : Nat) : Option Nat := do
  guard (str ≠ [])
  guard (NDEBUG ∨ radix ∈ radixes)
  let (isNeg, digits) := splitSign str
  let slen := digits.length
  let isNegative := isNeg.toNat
  guard (NDEBUG ∨ slen ≠ 0)
  if radix = 2 then some ((slen + isNegative) % 2 ^ 32)
  else if radix = 8 then some ((slen * 3 + isNegative) % 2 ^ 32)
  else if radix = 16 then some ((slen * 4 + isNegative) % 2 ^ 32)
  else
    let sufficient := sufficientBits radix slen
    guard (NDEBUG ∨ sufficient ≠ 0)
    let tmp ← fromString NDEBUG sufficient digits radix
    match logBase2 tmp with
    | none => some (isNegative + 1)
    | some log =>
        if isNeg && isPowerOf2 tmp then some ((isNegative + log) % 2 ^ 32)
        else some ((isNegative + log + 1) % 2 ^ 32)

def DigitsTable : List Char := "0123456789ABCDEFGHIJKLMNOPQRSTUVWXYZ".toList

def digitChar (digit : Nat) : Char := DigitsTable.getD digit '0'

def prefixFor : Nat → Option (List Char)
  | 2 => some "0b".toList
  | 8 => some "0".toList
  | 10 => some []
  | 16 => some "0x".toList
  | _ => none

def wordDigits (Radix : Nat) : Nat → Nat → List Char → Option (List Char)
  | 0, N, buffer => if N = 0 then some buffer else none
  | rounds + 1, N, buffer =>
      if N = 0 then some buffer else wordDigits Radix rounds (N / Radix) (digitChar (N % Radix) :: buffer)

def shiftedDigits (ShiftAmt MaskAmt : Nat) : Nat → BitVec W → Option (List Char)
  | 0, Tmp => if Tmp = 0 then some [] else none
  | rounds + 1, Tmp =>
      if Tmp = 0 then some []
      else do
        let Digit := (getRawData Tmp).getD 0 0 % 2 ^ 32 &&& MaskAmt
        let others ← shiftedDigits ShiftAmt MaskAmt rounds (Tmp >>> ShiftAmt)
        some (digitChar Digit :: others)

/-- The lowest digit first; the quotient goes where the dividend was. -/
def dividedDigits (memory : (W : Nat) → BitVec W) (NDEBUG : Bool) (Radix : Nat) :
    Nat → Variables Unit → Option (List Char)
  | 0, vars => if (vars ()).value = 0 then some [] else none
  | rounds + 1, vars =>
      if (vars ()).value = 0 then some []
      else do
        let (vars, Digit) ← udivremWord memory () (BitVec.ofNat 64 Radix) () vars
        guard (NDEBUG ∨ Digit.toNat < Radix)
        let others ← dividedDigits memory NDEBUG Radix rounds vars
        some (digitChar Digit.toNat :: others)

def wordMagnitude (Signed : Bool) (value : BitVec W) : Bool × Nat :=
  if Signed then
    let I := value.signExtend 64
    if I.msb then (true, (-I).toNat) else (false, I.toNat)
  else (false, value.toNat)

def toString (memory : (W : Nat) → BitVec W) (NDEBUG : Bool) (rounds : Nat) (value : BitVec W) (Radix : Nat)
    (Signed formatAsCLiteral : Bool) : Option (List Char) := do
  guard (NDEBUG ∨ Radix ∈ radixes)
  let Prefix ← if formatAsCLiteral then prefixFor Radix else some []
  if value = 0 then some (Prefix ++ ['0'])
  else if W ≤ 64 then do
    let (negative, N) := wordMagnitude Signed value
    let digits ← wordDigits Radix rounds N []
    some ((if negative then ['-'] else []) ++ Prefix ++ digits)
  else do
    let negative := Signed && isNegative value
    let Tmp := if negative then -value else value
    let digits ←
      if shiftFor Radix ≠ 0 then shiftedDigits (shiftFor Radix) (Radix - 1) rounds Tmp
      else dividedDigits memory NDEBUG Radix rounds fun _ => ⟨W, Tmp⟩
    some ((if negative then ['-'] else []) ++ Prefix ++ digits.reverse)

end EvmBackend.APInt
