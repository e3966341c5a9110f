/-
The codes of the bitstream format that writer and reader share: the fixed
abbreviation numbers, the operands of an abbreviation and the characters that
fit into six bits.

The data of an encoding that has none is never looked at, so it is left out.
-/

import Mathlib.Tactic.Ring

namespace EvmBackend

namespace Bitc

def blockIDWidth : Nat := 8

def codeLenWidth : Nat := 4

def blockSizeWidth : Nat := 32

def endBlock : Nat := 0

def enterSubblock : Nat := 1

def defineAbbrev : Nat := 2

def unabbrevRecord : Nat := 3

def firstApplicationAbbrev : Nat := 4

def blockInfoBlockID : Nat := 0

def blockInfoCodeSetBID : Nat := 1

def blockInfoCodeBlockName : Nat := 2

def blockInfoCodeSetRecordName : Nat := 3

end Bitc

/-! ### Abbreviations -/

/-- One operand of an abbreviation: a literal value, or how values are encoded. -/
inductive BitCodeAbbrevOp
  | literal (value : Nat)
  | fixed (width : Nat)
  | vbr (width : Nat)
  | array
  | char6
  | blob
  deriving DecidableEq, Repr

namespace BitCodeAbbrevOp

def isLiteral : BitCodeAbbrevOp → Bool
  | literal _ => true
  | _ => false

def getEncoding : BitCodeAbbrevOp → Nat
  | literal _ => 0
  | fixed _ => 1
  | vbr _ => 2
  | array => 3
  | char6 => 4
  | blob => 5

def encodeChar6 (char : Nat) : Option Nat :=
  if 97 ≤ char ∧ char ≤ 122 then some (char - 97)
  else if 65 ≤ char ∧ char ≤ 90 then some (char - 65 + 26)
  else if 48 ≤ char ∧ char ≤ 57 then some (char - 48 + 26 + 26)
  else if char = 46 then some 62
  else if char = 95 then some 63
  else none

def decodeChar6 (value : Nat) : Nat :=
  if value < 26 then value + 97
  else if value < 52 then value - 26 + 65
  else if value < 62 then value - 52 + 48
  else if value = 62 then 46
  else 95

theorem decodeChar6_encodeChar6 {char value : Nat} (encoded : encodeChar6 char = some value) :
    value < 2 ^ 6 ∧ decodeChar6 value = char := by
  unfold encodeChar6 at encoded
  unfold decodeChar6
  split at encoded
  · cases encoded
    split <;> omega
  · split at encoded
    · cases encoded
      split
      · omega
      · split <;> omega
    · split at encoded
      · cases encoded
        split
        · omega
        · split
          · omega
          · split <;> omega
      · split at encoded
        · cases encoded
          simp_all
        · split at encoded
          · cases encoded
            simp_all
          · cases encoded

end BitCodeAbbrevOp

abbrev BitCodeAbbrev := List BitCodeAbbrevOp

structure BlockInfo where
  blockID : Nat
  abbrevs : List BitCodeAbbrev
  deriving DecidableEq, Repr

namespace BlockInfo

/-- The place of the info for a block number: the last entry if it matches, else
the first that does. -/
def find (blockID : Nat) (records : List BlockInfo) : Option Nat :=
  match records.getLast? with
  | none => none
  | some last =>
      if last.blockID = blockID then some (records.length - 1)
      else records.findIdx? fun info => info.blockID == blockID

def getBlockInfo (blockID : Nat) (records : List BlockInfo) : Option BlockInfo :=
  (find blockID records).bind (records[·]?)

def getOrCreateBlockInfo (blockID : Nat) (records : List BlockInfo) : List BlockInfo × Nat :=
  match find blockID records with
  | some place => (records, place)
  | none => (records ++ [⟨blockID, []⟩], records.length)

def addAbbrev (place : Nat) (abbv : BitCodeAbbrev) (records : List BlockInfo) : List BlockInfo :=
  records.modify place fun info => { info with abbrevs := info.abbrevs ++ [abbv] }

end BlockInfo

end EvmBackend
