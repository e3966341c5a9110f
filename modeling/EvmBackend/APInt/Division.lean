/-
Division of fixed-width integers that take more than one word.

The operands are cut into digits of 32 bits, the lowest first, so that a
machine can multiply and divide single digits. A divisor of one digit is
divided by from the top; a longer one by Knuth's algorithm D, whose steps keep
the names they have there. An array of the source is a list, a loop over it a
recursion, and what a loop leaves of an array stands where the array stood.
-/

import EvmBackend.APInt

namespace EvmBackend.APInt

def u32 (value : Nat) : Nat := value % 2 ^ 32

def u64 (value : Nat) : Nat := value % 2 ^ 64

def Lo_32 (value : Int) : Nat := (value % 2 ^ 32).toNat

def Hi_32 (value : Int) : Nat := (value / 2 ^ 32 % 2 ^ 32).toNat

def Make_64 (high low : Nat) : Nat := high * 2 ^ 32 + low

/-! ### Knuth's algorithm D -/

/-- D1. The digits shifted to the left, with what is shifted out at the top. -/
def shiftLeftDigits (shift : Nat) : List Nat → Nat → List Nat × Nat
  | [], carry => ([], carry)
  | digit :: rest, carry =>
      let later := shiftLeftDigits shift rest (digit >>> (32 - shift))
      ((u32 (digit <<< shift) ||| carry) :: later.1, later.2)

/-- D3. The trial value of a digit, at most two decrements below the first one. -/
def trialDigit (u2 u1 u0 v1 v2 : Nat) : Nat :=
  let dividend := Make_64 u2 u1
  let qp := dividend / v1
  let rp := dividend % v1
  if qp = 2 ^ 32 ∨ u64 (qp * v2) > u64 (2 ^ 32 * rp + u0) then
    let qp := qp - 1
    let rp := rp + v1
    if rp < 2 ^ 32 ∧ (qp = 2 ^ 32 ∨ u64 (qp * v2) > u64 (2 ^ 32 * rp + u0)) then qp - 1 else qp
  else qp

/-- D4. The digits less a multiple of the divisor, with the borrow from the left. -/
def multiplyAndSubtract (qp : Nat) : List Nat → List Nat → Nat → List Nat × Nat
  | digit :: u, factor :: v, borrow =>
      let p := u64 (qp * factor)
      let subres : Int := digit - borrow - Lo_32 p
      let later := multiplyAndSubtract qp u v (Lo_32 (Hi_32 p - Hi_32 subres))
      (Lo_32 subres :: later.1, later.2)
  | u, _, borrow => (u, borrow)

def addBack : List Nat → List Nat → Bool → List Nat × Bool
  | digit :: u, addend :: v, carry =>
      let limit := min digit addend
      let sum := u32 (digit + u32 (addend + carry.toNat))
      let later := addBack u v (decide (sum < limit) || (carry && sum == limit))
      (sum :: later.1, later.2)
  | u, _, carry => (u, carry)

/-- D3 to D6 for the digit `j` of the quotient: the dividend that is left, and
the digit. -/
def divideDigit (v : List Nat) (n : Nat) (u : List Nat) (j : Nat) : List Nat × Nat :=
  let qp := trialDigit (u.getD (j + n) 0) (u.getD (j + n - 1) 0) (u.getD (j + n - 2) 0)
    (v.getD (n - 1) 0) (v.getD (n - 2) 0)
  let subtracted := multiplyAndSubtract qp ((u.drop j).take n) (v.take n) 0
  let isNeg := u.getD (j + n) 0 < subtracted.2
  let top := Lo_32 (u.getD (j + n) 0 - subtracted.2)
  if isNeg then
    let added := addBack subtracted.1 (v.take n) false
    (u.take j ++ (added.1 ++ u32 (top + added.2.toNat) :: u.drop (j + n + 1)),
      Lo_32 (Lo_32 qp - 1))
  else (u.take j ++ (subtracted.1 ++ top :: u.drop (j + n + 1)), Lo_32 qp)

/-- D2 and D7. The digits of the quotient from `j` down. -/
def divideDigits (v : List Nat) (n : Nat) : Nat → List Nat → List Nat → List Nat × List Nat
  | 0, u, q =>
      let divided := divideDigit v n u 0
      (divided.1, q.set 0 divided.2)
  | j + 1, u, q =>
      let divided := divideDigit v n u (j + 1)
      divideDigits v n j divided.1 (q.set (j + 1) divided.2)

/-- D8. The digits shifted back, from the top, with what is shifted out below. -/
def shiftRightDigits (shift : Nat) : List Nat → List Nat × Nat
  | [] => ([], 0)
  | digit :: rest =>
      let higher := shiftRightDigits shift rest
      ((digit >>> shift ||| higher.2) :: higher.1, u32 (digit <<< (32 - shift)))

/-- The quotient and the remainder of `m + n` digits by `n`; the other digits
of `q` and `r` stay. -/
def KnuthDiv (u v q r : List Nat) (m n : Nat) : List Nat × List Nat :=
  let shift := countLeadingZeros (BitVec.ofNat 32 (v.getD (n - 1) 0))
  let shiftedU := if shift ≠ 0 then shiftLeftDigits shift (u.take (m + n)) 0 else (u.take (m + n), 0)
  let shiftedV := if shift ≠ 0 then (shiftLeftDigits shift (v.take n) 0).1 else v.take n
  let divided := divideDigits shiftedV n m (shiftedU.1 ++ shiftedU.2 :: u.drop (m + n + 1)) q
  let remainder := if shift ≠ 0 then (shiftRightDigits shift (divided.1.take n)).1
    else divided.1.take n
  (divided.2, remainder ++ r.drop n)

def shortDivision (divisor : Nat) : List Nat → List Nat × Nat
  | [] => ([], 0)
  | digit :: rest =>
      let higher := shortDivision divisor rest
      let dividend := Make_64 higher.2 digit
      if dividend = 0 then (0 :: higher.1, 0)
      else if dividend < divisor then (0 :: higher.1, Lo_32 dividend)
      else if dividend = divisor then (1 :: higher.1, 0)
      else
        let q := Lo_32 (dividend / divisor)
        (q :: higher.1, Lo_32 (dividend - u32 (q * divisor)))

def digitsOfWords (words : List Nat) : List Nat :=
  words.flatMap fun word : Nat => [Lo_32 word, Hi_32 word]

def wordsOfDigits (count : Nat) (digits : List Nat) : List Nat :=
  (List.range count).map fun index =>
    Make_64 (digits.getD (index * 2 + 1) 0) (digits.getD (index * 2) 0)

/-- How many of the first digits are left when the zeros above them are dropped. -/
def significantDigits (digits : List Nat) : Nat → Nat
  | 0 => 0
  | count + 1 => if digits.getD count 0 = 0 then significantDigits digits count else count + 1

/-- The words of the quotient, as many as the dividend has, and those of the
remainder, as many as the divisor has. A divisor of zero, or one with more
digits than the dividend, must not be given. -/
def divide (LHS RHS : List Nat) : Option (List Nat × List Nat) :=
  let U := digitsOfWords LHS ++ [0]
  let V := digitsOfWords RHS
  let Q := List.replicate (LHS.length * 2) 0
  let R := List.replicate (RHS.length * 2) 0
  let n := significantDigits V (RHS.length * 2)
  let total := significantDigits U (LHS.length * 2)
  if n = 0 ∨ total < n then none
  else
    let m := total - n
    let divided :=
      if n = 1 then
        let short := shortDivision (V.getD 0 0) (U.take (m + 1))
        (short.1 ++ Q.drop (m + 1), R.set 0 short.2)
      else KnuthDiv U V Q R m n
    some (wordsOfDigits LHS.length divided.1, wordsOfDigits RHS.length divided.2)

/-! ### Division of values -/

def getNumWords (bits : Nat) : Nat := (bits + 63) / 64

def getRawData {W : Nat} (value : BitVec W) : List Nat :=
  (List.range (getNumWords W)).map fun index => value.toNat / 2 ^ (64 * index) % 2 ^ 64

def ofRawData (W : Nat) (words : List Nat) : BitVec W :=
  BitVec.ofNat W (words.foldr (fun word higher => word + 2 ^ 64 * higher) 0)

def nativeDivide (left right : Nat) : Option Nat := if right = 0 then none else some (left / right)

def nativeRemainder (left right : Nat) : Option Nat := if right = 0 then none else some (left % right)

section Values

variable {W : Nat}

def udiv (LHS RHS : BitVec W) : Option (BitVec W) :=
  if W ≤ 64 then (nativeDivide LHS.toNat RHS.toNat).map (BitVec.ofNat W)
  else
    let lhsWords := getNumWords (getActiveBits LHS)
    let rhsBits := getActiveBits RHS
    let rhsWords := getNumWords rhsBits
    if lhsWords = 0 then some (BitVec.ofNat W 0)
    else if rhsBits = 1 then some LHS
    else if lhsWords < rhsWords ∨ LHS.ult RHS then some (BitVec.ofNat W 0)
    else if LHS = RHS then some (BitVec.ofNat W 1)
    else if lhsWords = 1 then
      (nativeDivide ((getRawData LHS).getD 0 0) ((getRawData RHS).getD 0 0)).map (BitVec.ofNat W)
    else
      (divide ((getRawData LHS).take lhsWords) ((getRawData RHS).take rhsWords)).map fun divided =>
        ofRawData W divided.1

def urem (LHS RHS : BitVec W) : Option (BitVec W) :=
  if W ≤ 64 then (nativeRemainder LHS.toNat RHS.toNat).map (BitVec.ofNat W)
  else
    let lhsWords := getNumWords (getActiveBits LHS)
    let rhsBits := getActiveBits RHS
    let rhsWords := getNumWords rhsBits
    if lhsWords = 0 then some (BitVec.ofNat W 0)
    else if rhsBits = 1 then some (BitVec.ofNat W 0)
    else if lhsWords < rhsWords ∨ LHS.ult RHS then some LHS
    else if LHS = RHS then some (BitVec.ofNat W 0)
    else if lhsWords = 1 then
      (nativeRemainder ((getRawData LHS).getD 0 0) ((getRawData RHS).getD 0 0)).map (BitVec.ofNat W)
    else
      (divide ((getRawData LHS).take lhsWords) ((getRawData RHS).take rhsWords)).map fun divided =>
        ofRawData W divided.2

/-! The same by a word that is not of the width; it may even be wider. -/

def udivWord (LHS : BitVec W) (RHS : BitVec 64) : Option (BitVec W) :=
  if W ≤ 64 then (nativeDivide LHS.toNat RHS.toNat).map (BitVec.ofNat W)
  else
    let lhsWords := getNumWords (getActiveBits LHS)
    if lhsWords = 0 then some (BitVec.ofNat W 0)
    else if RHS = 1 then some LHS
    else if LHS.toNat < RHS.toNat then some (BitVec.ofNat W 0)
    else if LHS.toNat = RHS.toNat then some (BitVec.ofNat W 1)
    else if lhsWords = 1 then
      (nativeDivide ((getRawData LHS).getD 0 0) RHS.toNat).map (BitVec.ofNat W)
    else
      (divide ((getRawData LHS).take lhsWords) [RHS.toNat]).map fun divided => ofRawData W divided.1

def uremWord (LHS : BitVec W) (RHS : BitVec 64) : Option (BitVec 64) :=
  if W ≤ 64 then (nativeRemainder LHS.toNat RHS.toNat).map (BitVec.ofNat 64)
  else
    let lhsWords := getNumWords (getActiveBits LHS)
    if lhsWords = 0 then some (BitVec.ofNat 64 0)
    else if RHS = 1 then some (BitVec.ofNat 64 0)
    else if LHS.toNat < RHS.toNat then some (LHS.setWidth 64)
    else if LHS.toNat = RHS.toNat then some (BitVec.ofNat 64 0)
    else if lhsWords = 1 then
      (nativeRemainder ((getRawData LHS).getD 0 0) RHS.toNat).map (BitVec.ofNat 64)
    else
      (divide ((getRawData LHS).take lhsWords) [RHS.toNat]).map fun divided => ofRawData 64 divided.2

/-! Signed division divides the magnitudes. -/

def sdiv (LHS RHS : BitVec W) : Option (BitVec W) :=
  if isNegative LHS then
    if isNegative RHS then udiv (-LHS) (-RHS)
    else (udiv (-LHS) RHS).map Neg.neg
  else if isNegative RHS then (udiv LHS (-RHS)).map Neg.neg
  else udiv LHS RHS

def sdivWord (LHS : BitVec W) (RHS : BitVec 64) : Option (BitVec W) :=
  if isNegative LHS then
    if isNegative RHS then udivWord (-LHS) (-RHS)
    else (udivWord (-LHS) RHS).map Neg.neg
  else if isNegative RHS then (udivWord LHS (-RHS)).map Neg.neg
  else udivWord LHS RHS

def srem (LHS RHS : BitVec W) : Option (BitVec W) :=
  if isNegative LHS then
    if isNegative RHS then (urem (-LHS) (-RHS)).map Neg.neg
    else (urem (-LHS) RHS).map Neg.neg
  else if isNegative RHS then urem LHS (-RHS)
  else urem LHS RHS

def sremWord (LHS : BitVec W) (RHS : BitVec 64) : Option (BitVec 64) :=
  if isNegative LHS then
    if isNegative RHS then (uremWord (-LHS) (-RHS)).map Neg.neg
    else (uremWord (-LHS) RHS).map Neg.neg
  else if isNegative RHS then uremWord LHS (-RHS)
  else uremWord LHS RHS

end Values

/-! ### Quotient and remainder at once -/

structure Variable where
  BitWidth : Nat
  bits : BitVec BitWidth
  deriving DecidableEq

namespace Variable

def value (var : Variable) : Nat := var.bits.toNat

def pVal (var : Variable) : List Nat := getRawData var.bits

def activeBits (var : Variable) : Nat := getActiveBits var.bits

def negative (var : Variable) : Bool := isNegative var.bits

def negated (var : Variable) : Variable := ⟨var.BitWidth, -var.bits⟩

section Fields

variable {W : Nat} (bits : BitVec W)

@[simp]
theorem value_mk : value ⟨W, bits⟩ = bits.toNat := rfl

@[simp]
theorem pVal_mk : pVal ⟨W, bits⟩ = getRawData bits := rfl

@[simp]
theorem activeBits_mk : activeBits ⟨W, bits⟩ = getActiveBits bits := rfl

@[simp]
theorem negative_mk : negative ⟨W, bits⟩ = isNegative bits := rfl

@[simp]
theorem negated_mk : negated ⟨W, bits⟩ = ⟨W, -bits⟩ := rfl

end Fields

end Variable

abbrev Variables (Name : Type) := Name → Variable

section Variables

variable {Name : Type} [DecidableEq Name]

def assign (W : Nat) (name : Name) (value : Nat) (vars : Variables Name) : Variables Name :=
  Function.update vars name ⟨W, BitVec.ofNat W value⟩

def copy (name source : Name) (vars : Variables Name) : Variables Name :=
  Function.update vars name (vars source)

/-- Room for the given width; the words stay when there are as many of them,
else they are what the memory holds. -/
def reallocate (memory : (W : Nat) → BitVec W) (W : Nat) (name : Name) (vars : Variables Name) :
    Variables Name :=
  if getNumWords (vars name).BitWidth = getNumWords W then assign W name (vars name).value vars
  else Function.update vars name ⟨W, memory W⟩

def divremFrom (memory : (W : Nat) → BitVec W) (BitWidth lhsWords rhsWords : Nat)
    (LHS RHS Quotient Remainder : Name) (vars : Variables Name) : Option (Variables Name) :=
  if lhsWords < rhsWords ∨ (vars LHS).value < (vars RHS).value then
    some (assign BitWidth Quotient 0 (copy Remainder LHS vars))
  else if (vars LHS).value = (vars RHS).value then
    some (assign BitWidth Remainder 0 (assign BitWidth Quotient 1 vars))
  else
    let vars := reallocate memory BitWidth Remainder (reallocate memory BitWidth Quotient vars)
    if lhsWords = 1 then do
      let lhsValue := (vars LHS).pVal.getD 0 0
      let rhsValue := (vars RHS).pVal.getD 0 0
      let quotient ← nativeDivide lhsValue rhsValue
      let remainder ← nativeRemainder lhsValue rhsValue
      some (assign BitWidth Remainder remainder (assign BitWidth Quotient quotient vars))
    else
      (divide ((vars LHS).pVal.take lhsWords) ((vars RHS).pVal.take rhsWords)).map
        fun divided => assign BitWidth Remainder (ofRawData BitWidth divided.2).toNat
          (assign BitWidth Quotient (ofRawData BitWidth divided.1).toNat vars)

def udivrem (memory : (W : Nat) → BitVec W) (LHS RHS Quotient Remainder : Name)
    (vars : Variables Name) : Option (Variables Name) :=
  let BitWidth := (vars LHS).BitWidth
  if BitWidth ≤ 64 then do
    let QuotVal ← nativeDivide (vars LHS).value (vars RHS).value
    let RemVal ← nativeRemainder (vars LHS).value (vars RHS).value
    some (assign BitWidth Remainder RemVal (assign BitWidth Quotient QuotVal vars))
  else
    let lhsWords := getNumWords (vars LHS).activeBits
    let rhsBits := (vars RHS).activeBits
    let rhsWords := getNumWords rhsBits
    if lhsWords = 0 then some (assign BitWidth Remainder 0 (assign BitWidth Quotient 0 vars))
    else if rhsBits = 1 then
      -- the results of a division by one are put, but the function does not return here
      divremFrom memory BitWidth lhsWords rhsWords LHS RHS Quotient Remainder
        (assign BitWidth Remainder 0 (copy Quotient LHS vars))
    else divremFrom memory BitWidth lhsWords rhsWords LHS RHS Quotient Remainder vars

def udivremWord (memory : (W : Nat) → BitVec W) (LHS : Name) (RHS : BitVec 64) (Quotient : Name)
    (vars : Variables Name) : Option (Variables Name × BitVec 64) :=
  let BitWidth := (vars LHS).BitWidth
  if BitWidth ≤ 64 then do
    let QuotVal ← nativeDivide (vars LHS).value RHS.toNat
    let Remainder ← nativeRemainder (vars LHS).value RHS.toNat
    some (assign BitWidth Quotient QuotVal vars, BitVec.ofNat 64 Remainder)
  else
    let lhsWords := getNumWords (vars LHS).activeBits
    if lhsWords = 0 then some (assign BitWidth Quotient 0 vars, 0)
    else if RHS = 1 then some (copy Quotient LHS vars, 0)
    else if (vars LHS).value < RHS.toNat then
      some (assign BitWidth Quotient 0 vars, BitVec.ofNat 64 (vars LHS).value)
    else if (vars LHS).value = RHS.toNat then some (assign BitWidth Quotient 1 vars, 0)
    else
      let vars := reallocate memory BitWidth Quotient vars
      if lhsWords = 1 then do
        let quotient ← nativeDivide ((vars LHS).pVal.getD 0 0) RHS.toNat
        let Remainder ← nativeRemainder ((vars LHS).pVal.getD 0 0) RHS.toNat
        some (assign BitWidth Quotient quotient vars, BitVec.ofNat 64 Remainder)
      else
        (divide ((vars LHS).pVal.take lhsWords) [RHS.toNat]).map fun divided =>
          (assign BitWidth Quotient (ofRawData BitWidth divided.1).toNat vars, ofRawData 64 divided.2)

def negate (name : Name) (vars : Variables Name) : Variables Name :=
  Function.update vars name (vars name).negated

def withNegated (LHS RHS : Name) (vars : Variables Name) : Variables (Name ⊕ Bool) :=
  Sum.elim vars fun second =>
    if second then (vars RHS).negated else (vars LHS).negated

def sdivrem (memory : (W : Nat) → BitVec W) (LHS RHS Quotient Remainder : Name)
    (vars : Variables Name) : Option (Variables Name) :=
  let negatedLHS : Name ⊕ Bool := .inr false
  let negatedRHS : Name ⊕ Bool := .inr true
  let divideInto (left right : Name ⊕ Bool) : Option (Variables Name) :=
    (udivrem memory left right (.inl Quotient) (.inl Remainder) (withNegated LHS RHS vars)).map
      (· ∘ Sum.inl)
  if (vars LHS).negative then
    if (vars RHS).negative then (divideInto negatedLHS negatedRHS).map (negate Remainder)
    else (divideInto negatedLHS (.inl RHS)).map (negate Remainder ∘ negate Quotient)
  else if (vars RHS).negative then (divideInto (.inl LHS) negatedRHS).map (negate Quotient)
  else divideInto (.inl LHS) (.inl RHS)

def sdivremWord (memory : (W : Nat) → BitVec W) (LHS : Name) (RHS : BitVec 64) (Quotient : Name)
    (vars : Variables Name) : Option (Variables Name × BitVec 64) :=
  let divideInto (left : Name ⊕ Bool) (right : BitVec 64) : Option (Variables Name × BitVec 64) :=
    (udivremWord memory left right (.inl Quotient) (withNegated LHS LHS vars)).map fun divided =>
      (divided.1 ∘ Sum.inl, divided.2)
  if (vars LHS).negative then
    if isNegative RHS then (divideInto (.inr false) (-RHS)).map fun divided => (divided.1, -divided.2)
    else (divideInto (.inr false) RHS).map fun divided => (negate Quotient divided.1, -divided.2)
  else if isNegative RHS then
    (divideInto (.inl LHS) (-RHS)).map fun divided => (negate Quotient divided.1, divided.2)
  else divideInto (.inl LHS) RHS

end Variables

end EvmBackend.APInt
