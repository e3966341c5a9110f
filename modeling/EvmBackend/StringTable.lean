/-
String tables: strings are added, laid out with the tails of one another merged,
and written behind the header of the object format.

The map from strings to offsets is a list in some order, since nothing is known
of the order a hash map goes through its entries. Sizes are numbers that do not
overflow. A failed assertion, and a copy outside the table, has no value.
-/

import EvmBackend.Library.ThreeWayPartition
import Mathlib.Tactic.Ring

namespace EvmBackend.StringTable

open List

abbrev Byte := BitVec 8

inductive Kind
  | ELF | WinCOFF | MachO | RAW | DWARF | XCOFF
  deriving DecidableEq, Repr

structure StringTableBuilder where
  stringIndexMap : List (List Byte × Nat)
  size : Nat
  k : Kind
  alignment : Nat
  finalized : Bool
  deriving DecidableEq, Repr

def initSize : Kind → Nat
  | .RAW | .DWARF => 0
  | .MachO | .ELF => 1
  | .XCOFF | .WinCOFF => 4

def alignTo (value align : Nat) : Nat := (value + align - 1) / align * align

def terminator (k : Kind) : Nat := if k ≠ .RAW then 1 else 0

namespace StringTableBuilder

def create (k : Kind) (alignment : Nat) : StringTableBuilder := ⟨[], initSize k, k, alignment, false⟩

def add (s : List Byte) (builder : StringTableBuilder) : Option (StringTableBuilder × Nat) := do
  if builder.k = .WinCOFF then guard (8 < s.length)
  guard (builder.finalized = false)
  match builder.stringIndexMap.lookup s with
  | some offset => some (builder, offset)
  | none =>
      let start := alignTo builder.size builder.alignment
      some ({ builder with
        stringIndexMap := builder.stringIndexMap ++ [(s, start)],
        size := start + s.length + terminator builder.k }, start)

def addAll : List (List Byte) → StringTableBuilder → Option StringTableBuilder
  | [], builder => some builder
  | s :: strings, builder => do
      let (next, _) ← builder.add s
      addAll strings next

end StringTableBuilder

/-! ### The order of the strings -/

def charTailAt (s : List Byte) (pos : Nat) : Int :=
  if s.length ≤ pos then -1 else (s.getD (s.length - pos - 1) 0).toNat

def tailKey (s : List Byte) : List Nat := s.reverse.map BitVec.toNat

theorem charTailAt_eq (s : List Byte) (pos : Nat) :
    charTailAt s pos = ((tailKey s)[pos]?).elim (-1) Int.ofNat := by
  unfold charTailAt tailKey
  by_cases short : s.length ≤ pos
  · rw [if_pos short, List.getElem?_eq_none (by simpa using short)]
    rfl
  · have inside : pos < s.length := Nat.lt_of_not_le short
    rw [if_neg short, getElem?_map, getElem?_reverse inside, getD_eq_getElem?_getD]
    have place : s.length - pos - 1 = s.length - 1 - pos := by omega
    rw [place, List.getElem?_eq_getElem (by omega)]
    rfl

theorem charTailAt_ne (s : List Byte) (pos : Nat) : charTailAt s pos ≠ -1 ↔ pos < s.length := by
  unfold charTailAt
  split <;> omega

open ThreeWayPartition

def remaining (vec : List (List Byte)) (pos : Nat) : Nat := (vec.map fun s => s.length - pos).sum

theorem remaining_append (left right : List (List Byte)) (pos : Nat) :
    remaining (left ++ right) pos = remaining left pos + remaining right pos := by
  unfold remaining
  rw [map_append, sum_append]

theorem remaining_perm {left right : List (List Byte)} (perm : left.Perm right) (pos : Nat) :
    remaining left pos = remaining right pos := (perm.map _).sum_nat

theorem remaining_next {vec : List (List Byte)} {pos : Nat} (on : ∀ s ∈ vec, pos < s.length) :
    remaining vec (pos + 1) + vec.length = remaining vec pos := by
  induction vec with
  | nil => rfl
  | cons s vec ih =>
      have here := on s mem_cons_self
      have others := ih (forall_mem_cons.mp on).2
      unfold remaining at others ⊢
      rw [map_cons, sum_cons, map_cons, sum_cons, length_cons]
      omega

theorem pass_parts (s : List Byte) (rest : List (List Byte)) (pos : Nat) :
    ∃ above equal below,
      partitionLoop (charTailAt · pos) (charTailAt s pos) (s :: rest) 0 (s :: rest).length 1 =
        (above ++ equal ++ below, above.length, above.length + equal.length) ∧
      Partitioned (charTailAt · pos) (charTailAt s pos) (s :: rest) above equal below ∧
      (above ++ equal ++ below).take above.length = above ∧
      ((above ++ equal ++ below).take (above.length + equal.length)).drop above.length = equal ∧
      (above ++ equal ++ below).drop (above.length + equal.length) = below := by
  obtain ⟨above, equal, below, ran, parts⟩ := @partitionLoop_whole _ _ _ (charTailAt · pos) s rest
  refine ⟨above, equal, below, ran, parts, ?_, ?_, ?_⟩
  · rw [List.append_assoc, take_left]
  · rw [← length_append, take_left, drop_left]
  · rw [← length_append, drop_left]

theorem parts_smaller (s : List Byte) (rest : List (List Byte)) (pos : Nat) :
    let parts := partitionLoop (charTailAt · pos) (charTailAt s pos) (s :: rest) 0 (s :: rest).length 1
    (Prod.Lex (· < ·) (· < ·) (remaining (parts.1.take parts.2.1) pos, (parts.1.take parts.2.1).length)
        (remaining (s :: rest) pos, (s :: rest).length)) ∧
      (Prod.Lex (· < ·) (· < ·) (remaining (parts.1.drop parts.2.2) pos, (parts.1.drop parts.2.2).length)
        (remaining (s :: rest) pos, (s :: rest).length)) ∧
      (charTailAt s pos ≠ -1 →
        Prod.Lex (· < ·) (· < ·)
          (remaining ((parts.1.take parts.2.2).drop parts.2.1) (pos + 1),
            ((parts.1.take parts.2.2).drop parts.2.1).length)
          (remaining (s :: rest) pos, (s :: rest).length)) := by
  obtain ⟨above, equal, below, ran, parts, first, middle, last⟩ := pass_parts s rest pos
  have total := remaining_perm parts.perm pos
  have count := parts.perm.length_eq
  have some := length_pos_iff.mpr parts.filled
  rw [remaining_append, remaining_append] at total
  rw [length_append, length_append] at count
  rw [ran]
  dsimp only
  rw [first, middle, last, ← total, ← count]
  refine ⟨Prod.Lex.right' _ (by omega) (by omega), Prod.Lex.right' _ (by omega) (by omega), fun on => ?_⟩
  have next := @remaining_next equal pos fun t member => by
    have same := parts.equal t member
    rw [← charTailAt_ne, same]
    exact on
  exact Prod.Lex.left _ _ (by omega)

/-- Places count without bound; in the source `Pos` is an `int`, which is the same as
long as no two different strings share a tail of 2^31 bytes. -/
def multikeySort (vec : List (List Byte)) (pos : Nat) : List (List Byte) :=
  match vec with
  | [] => []
  | [s] => [s]
  | s :: next :: rest =>
      let pivot := charTailAt s pos
      let parts := partitionLoop (charTailAt · pos) pivot (s :: next :: rest) 0 (s :: next :: rest).length 1
      let middle := (parts.1.take parts.2.2).drop parts.2.1
      multikeySort (parts.1.take parts.2.1) pos ++
        (if pivot ≠ -1 then multikeySort middle (pos + 1) else middle) ++
        multikeySort (parts.1.drop parts.2.2) pos
termination_by (remaining vec pos, vec.length)
decreasing_by
  · exact (parts_smaller s (next :: rest) pos).1
  · exact (parts_smaller s (next :: rest) pos).2.2 ‹_›
  · exact (parts_smaller s (next :: rest) pos).2.1

def setOffset (s : List Byte) (offset : Nat) (map : List (List Byte × Nat)) : List (List Byte × Nat) :=
  map.map fun entry => if entry.1 = s then (s, offset) else entry

def assign (s : List Byte) (offset : Nat) (map : List (List Byte × Nat)) : List (List Byte × Nat) :=
  if (map.lookup s).isSome then setOffset s offset map else map ++ [(s, offset)]

structure Layout where
  map : List (List Byte × Nat)
  size : Nat
  previous : List Byte

/-- One string of the sorted ones: merged into the one before, or behind it. -/
def place (k : Kind) (alignment : Nat) (layout : Layout) (s : List Byte) : Layout :=
  let pos := layout.size - s.length - terminator k
  if s <:+ layout.previous ∧ pos &&& (alignment - 1) = 0 then { layout with map := setOffset s pos layout.map }
  else
    let start := alignTo layout.size alignment
    ⟨setOffset s start layout.map, start + s.length + terminator k, s⟩

namespace StringTableBuilder

def finalizeStringTable (optimize : Bool) (builder : StringTableBuilder) : StringTableBuilder :=
  let layout :=
    if optimize then
      (multikeySort (builder.stringIndexMap.map Prod.fst) 0).foldl (place builder.k builder.alignment)
        ⟨builder.stringIndexMap, initSize builder.k, []⟩
    else ⟨builder.stringIndexMap, builder.size, []⟩
  { builder with
    finalized := true
    size := if builder.k = .MachO then alignTo layout.size 4 else layout.size
    stringIndexMap := if builder.k = .ELF then assign [] 0 layout.map else layout.map }

def finalize (builder : StringTableBuilder) : Option StringTableBuilder :=
  if builder.k ≠ .DWARF then some (builder.finalizeStringTable true) else none

def getOffset (s : List Byte) (builder : StringTableBuilder) : Option Nat :=
  if builder.finalized then builder.stringIndexMap.lookup s else none

end StringTableBuilder

def copy (offset : Nat) (data table : List Byte) : Option (List Byte) :=
  if offset + data.length ≤
    table.length then some (table.take offset ++ data ++ table.drop (offset + data.length))
  else none

def bytesOfWord (value : Nat) : List Byte :=
  [BitVec.ofNat 8 value, BitVec.ofNat 8 (value / 2 ^ 8), BitVec.ofNat 8 (value / 2 ^ 16),
    BitVec.ofNat 8 (value / 2 ^ 24)]

def copyStrings : List (List Byte × Nat) → List Byte → Option (List Byte)
  | [], table => some table
  | (s, offset) :: entries, table =>
      (if s ≠ [] then copy offset s table else some table).bind (copyStrings entries)

def writeSize (k : Kind) (size : Nat) (table : List Byte) : Option (List Byte) :=
  match k with
  | .WinCOFF => copy 0 (bytesOfWord size) table
  | .XCOFF => copy 0 (bytesOfWord size).reverse table
  | _ => some table

/-- The table of a finalized builder, all zeros before the strings are copied. -/
def StringTableBuilder.write (builder : StringTableBuilder) : Option (List Byte) := do
  guard builder.finalized
  let table ← copyStrings builder.stringIndexMap (List.replicate builder.size 0)
  writeSize builder.k builder.size table

end EvmBackend.StringTable
