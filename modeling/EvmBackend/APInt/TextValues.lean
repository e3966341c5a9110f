/-
What a text denotes, and what is read of it.

The width that is found for a text is large enough but for two digits of base 36,
where the number of bits that is meant to be enough for all texts of that length
is one less than some need. The assertion on the width of decimal texts counts
their leading zeros, which the width does not.
-/

import EvmBackend.APInt.DivRem
import EvmBackend.APInt.Text

namespace EvmBackend.APInt

open List Option

variable {W : Nat}

def digitValue (c : Char) : Option Nat :=
  if 48 ≤ c.toNat ∧ c.toNat ≤ 57 then some (c.toNat - 48)
  else if 65 ≤ c.toNat ∧ c.toNat ≤ 90 then some (c.toNat - 65 + 10)
  else if 97 ≤ c.toNat ∧ c.toNat ≤ 122 then some (c.toNat - 97 + 10)
  else none

def appendDigit (radix value : Nat) (c : Char) : Nat := value * radix + (digitValue c).getD 0

def numeral (radix : Nat) (text : List Char) : Nat := text.foldl (appendDigit radix) 0

inductive Sign
  | none | plus | minus
  deriving DecidableEq, Repr

def Sign.text : Sign → List Char
  | .none => []
  | .plus => ['+']
  | .minus => ['-']

def Sign.negative (sign : Sign) : Bool := sign == .minus

structure Numeral (radix : Nat) (text : List Char) : Prop where
  known : radix ∈ radixes
  nonempty : text ≠ []
  digits : ∀ c ∈ text, ∃ d < radix, digitValue c = some d

theorem toNat_lt (c : Char) : c.toNat < 2 ^ 31 := by
  have valid := c.valid
  change c.val.toNat < _
  rcases valid with small | large
  · exact small.trans (by decide)
  · exact large.2.trans (by decide)

theorem distance_of_le {c base : Char} (above : base.toNat ≤ c.toNat) :
    distance c base = c.toNat - base.toNat := by
  have bound := toNat_lt c
  unfold distance
  omega

theorem getDecimalDigit_eq {c : Char} {radix d : Nat} (small : d < radix) (decimal : radix ≤ 10)
    (value : digitValue c = some d) : getDecimalDigit c radix = d := by
  unfold digitValue at value
  unfold getDecimalDigit
  have zero : '0'.toNat = 48 := rfl
  split at value
  · rename_i range
    rw [distance_of_le (by omega), zero]
    rw [Option.some.injEq] at value
    rw [if_pos (by omega), value]
  · split at value
    · rw [Option.some.injEq] at value
      omega
    · split at value
      · rw [Option.some.injEq] at value
        omega
      · cases value

theorem getDigit_eq {c : Char} {radix d : Nat} (member : radix ∈ radixes) (small : d < radix)
    (value : digitValue c = some d) : getDigit c radix = d := by
  have zero : '0'.toNat = 48 := rfl
  have upper : 'A'.toNat = 65 := rfl
  have lower : 'a'.toNat = 97 := rfl
  have bound : radix = 16 ∨ radix = 36 ∨ radix ≤ 10 := by
    simp only [radixes, mem_cons, not_mem_nil, or_false] at member
    omega
  unfold getDigit
  by_cases wide : radix = 16 ∨ radix = 36
  · rw [if_pos wide]
    unfold digitValue at value
    split at value
    · rw [Option.some.injEq] at value
      rw [distance_of_le (by omega), zero, if_pos (by omega), value]
    · split at value
      · rw [Option.some.injEq] at value
        rw [distance_of_le (by omega : '0'.toNat ≤ c.toNat), distance_of_le (by omega : 'A'.toNat ≤ c.toNat),
          zero, upper, if_neg (by omega), if_pos (by omega), value]
      · split at value
        · rw [Option.some.injEq] at value
          rw [distance_of_le (by omega : '0'.toNat ≤ c.toNat), distance_of_le (by omega : 'A'.toNat ≤ c.toNat),
            distance_of_le (by omega : 'a'.toNat ≤ c.toNat), zero, upper, lower, if_neg (by omega),
            if_neg (by omega), if_pos (by omega), value]
        · cases value
  · rw [if_neg wide]
    exact getDecimalDigit_eq small (by omega) value

/-! ### Reading -/

theorem numeral_append (radix : Nat) (text : List Char) (value : Nat) :
    text.foldl (appendDigit radix) value = value * radix ^ text.length + numeral radix text := by
  unfold numeral
  induction text generalizing value with
  | nil => simp
  | cons c text ih =>
      rw [foldl_cons, foldl_cons, ih, ih (appendDigit radix 0 c), length_cons, pow_succ]
      unfold appendDigit
      ring

theorem Numeral.lt {radix : Nat} {text : List Char} (holds : Numeral radix text) :
    numeral radix text < radix ^ text.length := by
  have digits := holds.digits
  clear holds
  induction text with
  | nil => exact Nat.one_pos
  | cons c text ih =>
      obtain ⟨d, small, value⟩ := digits c mem_cons_self
      have rest := ih fun c member => digits c (mem_cons_of_mem _ member)
      have first : appendDigit radix 0 c = d := by
        unfold appendDigit
        rw [value, getD_some, Nat.zero_mul, Nat.zero_add]
      have power := Nat.mul_le_mul_right (radix ^ text.length) small
      rw [Nat.succ_mul] at power
      rw [numeral, foldl_cons, numeral_append, first, length_cons, pow_succ, Nat.mul_comm _ radix]
      omega

theorem Numeral.least {radix : Nat} {text : List Char} (holds : Numeral radix text)
    (counts : ∀ c ∈ text.head?, digitValue c ≠ some 0) : radix ^ (text.length - 1) ≤ numeral radix text := by
  cases text with
  | nil => exact absurd rfl holds.nonempty
  | cons c text =>
      obtain ⟨d, _, value⟩ := holds.digits c mem_cons_self
      have some : d ≠ 0 := by
        rintro rfl
        exact counts c rfl value
      have first : appendDigit radix 0 c = d := by
        unfold appendDigit
        rw [value, getD_some, Nat.zero_mul, Nat.zero_add]
      rw [numeral, foldl_cons, numeral_append, first, length_cons, Nat.add_sub_cancel]
      exact (Nat.le_mul_of_pos_left _ (Nat.pos_of_ne_zero some)).trans (Nat.le_add_right _ _)

theorem two_pow_shiftFor {radix : Nat} (shifts : shiftFor radix ≠ 0) : radix = 2 ^ shiftFor radix := by
  unfold shiftFor at shifts ⊢
  split at shifts
  · simp [*]
  · split at shifts
    · simp [*]
    · split at shifts
      · simp [*]
      · exact absurd rfl shifts

section Reading

variable {NDEBUG : Bool} {radix slen d : Nat} {c : Char} {text : List Char} {sign : Sign}

theorem readDigit_eq (member : radix ∈ radixes) (small : d < radix) (value : digitValue c = some d)
    (room : NDEBUG ∨ slen ≤ 1 ∨ shiftFor radix ≤ W) {before : Nat} (start : slen ≤ 1 → before = 0) :
    readDigit NDEBUG radix slen (BitVec.ofNat W before) c =
      some (BitVec.ofNat W (appendDigit radix before c)) := by
  have digit := getDigit_eq member small value
  have moved : (if 1 < slen then
      (if shiftFor radix ≠ 0 then BitVec.ofNat W before <<< shiftFor radix
        else BitVec.ofNat W before * BitVec.ofNat W radix) else BitVec.ofNat W before) =
      BitVec.ofNat W (before * radix) := by
    by_cases many : 1 < slen
    · rw [if_pos many]
      by_cases shifts : shiftFor radix ≠ 0
      · rw [if_pos shifts]
        apply BitVec.eq_of_toNat_eq
        rw [BitVec.toNat_shiftLeft, BitVec.toNat_ofNat, BitVec.toNat_ofNat, Nat.shiftLeft_eq, Nat.mod_mul_mod,
          ← two_pow_shiftFor shifts]
      · rw [if_neg shifts, BitVec.ofNat_mul]
    · rw [if_neg many, start (by omega), Nat.zero_mul]
  unfold readDigit appendDigit
  simp only [digit, value, getD_some, bind_eq_bind, moved, BitVec.ofNat_add]
  rw [(guard_eq_some' ()).mpr (.inr small), bind_some, (guard_eq_some' ()).mpr room,
    bind_some]

theorem readDigits_eq (member : radix ∈ radixes) (digits : ∀ c ∈ text, ∃ d < radix, digitValue c = some d)
    (room : NDEBUG ∨ slen ≤ 1 ∨ shiftFor radix ≤ W) (before : Nat)
    (start : slen ≤ 1 → text.length ≤ 1 ∧ before = 0) :
    text.foldlM (readDigit NDEBUG radix slen) (BitVec.ofNat W before) =
      some (BitVec.ofNat W (text.foldl (appendDigit radix) before)) := by
  induction text generalizing before with
  | nil => rfl
  | cons c text ih =>
      obtain ⟨d, small, value⟩ := digits c mem_cons_self
      rw [foldlM_cons, readDigit_eq member small value room fun few => (start few).2]
      cases text with
      | nil => rfl
      | cons next text =>
          apply ih fun c member => digits c (mem_cons_of_mem _ member)
          intro few
          have short := (start few).1
          simp at short

theorem splitSign_eq (holds : Numeral radix text) :
    splitSign (sign.text ++ text) = (sign.negative, text) := by
  cases sign with
  | plus | minus => rfl
  | none =>
      cases text with
      | nil => exact absurd rfl holds.nonempty
      | cons c text =>
          obtain ⟨d, _, value⟩ := holds.digits c mem_cons_self
          change splitSign (c :: text) = (false, c :: text)
          unfold splitSign
          split
          · rename_i same
            cases same
            cases value
          · rename_i same
            cases same
            cases value
          · rfl

/-- The checks on the width that are made before and while a text is read. -/
def WidthAccepted (NDEBUG : Bool) (W radix slen : Nat) : Prop :=
  NDEBUG ∨ insufficientBitWidth slen W radix = false ∧ (slen ≤ 1 ∨ shiftFor radix ≤ W)

theorem fromString_eq (sign : Sign) (holds : Numeral radix text)
    (accepted : WidthAccepted NDEBUG W radix text.length) :
    fromString NDEBUG W (sign.text ++ text) radix =
      some (if sign.negative then -BitVec.ofNat W (numeral radix text)
        else BitVec.ofNat W (numeral radix text)) := by
  have some : sign.text ++ text ≠ [] := by
    intro empty
    exact holds.nonempty (append_eq_nil_iff.mp empty).2
  have many : text.length ≠ 0 := fun none => holds.nonempty (length_eq_zero_iff.mp none)
  have wide : NDEBUG ∨ insufficientBitWidth text.length W radix = false := accepted.imp_right And.left
  have room : NDEBUG ∨ text.length ≤ 1 ∨ shiftFor radix ≤ W := accepted.imp_right And.right
  have read := readDigits_eq holds.known holds.digits room 0 fun few => ⟨few, rfl⟩
  unfold fromString
  rw [splitSign_eq holds]
  simp only [bind_eq_bind]
  rw [(guard_eq_some' ()).mpr some, bind_some, (guard_eq_some' ()).mpr (.inr holds.known),
    bind_some, (guard_eq_some' ()).mpr (.inr many), bind_some,
    (guard_eq_some' ()).mpr wide, bind_some]
  change ((text.foldlM (readDigit NDEBUG radix text.length) (BitVec.ofNat W 0)).bind _) = _
  rw [read]
  rfl

end Reading

end EvmBackend.APInt
