/-
Sections with fragments of every kind.

One switch over the kinds says how long a fragment is, another writes it.
They agree on every kind but those the target pads with nops: its
`writeNopData` reports success and writes nothing, so that whatever stands
behind such padding is written earlier than it was laid out.
-/

import EvmBackend.Assembler

namespace EvmBackend.Sections

open BigEndian List

/-- The kinds that are written as they are stored, data apart. -/
inductive StoredKind
  | relaxable
  | compactEncodedInst
  | leb
  | dwarf
  | dwarfFrame
  | cvInlineLines
  | cvDefRange
  deriving DecidableEq, Repr

/-- A fragment of any kind. The count of a fill and the place of an origin are
expressions, given by their value in the layout, if they have one. -/
inductive Fragment
  | data (contents : List Byte) (fixups : List MCFixup)
  | stored (kind : StoredKind) (contents : List Byte)
  | fill (value valueSize : Nat) (numValues : Option Int)
  | boundaryAlign (size : Nat)
  | symbolId (index : Nat)
  | align (alignment value valueSize maxBytesToEmit : Nat) (emitNops : Bool)
  | org (value : Byte) (targetLocation : Option Int)
  deriving DecidableEq, Repr

/-- Sizes are signed and of 64 bits where they are computed. -/
def int64 (value : Int) : Int := value.bmod (2 ^ 64)

def computeFragmentSize (offset : Nat) : Fragment → Nat
  | .data contents _ => contents.length
  | .stored _ contents => contents.length
  | .fill _ _ none => 0
  | .fill _ valueSize (some numValues) =>
      let size := int64 (numValues * valueSize)
      if size < 0 then 0 else size.toNat
  | .boundaryAlign size => size
  | .symbolId _ => 4
  | .align alignment _ _ maxBytesToEmit _ =>
      -- the smallest nop of the target is one byte, so nops do not make it longer
      let size := offsetToAlignment (offset % 2 ^ 32) alignment
      if size > maxBytesToEmit then 0 else size
  | .org _ none => 0
  | .org _ (some targetLocation) =>
      let size := int64 (targetLocation - offset)
      if size < 0 ∨ size ≥ 0x40000000 then 0 else size.toNat

def layoutFragments : List Fragment → Nat → Nat
  | [], offset => offset
  | fragment :: rest, offset => layoutFragments rest (offset + computeFragmentSize offset fragment)

def getFragmentOffset (fragments : List Fragment) (index : Nat) : Nat :=
  layoutFragments (fragments.take index) 0

def fragmentSizes (fragments : List Fragment) : List Nat :=
  fragments.zipIdx.map fun entry =>
    computeFragmentSize (getFragmentOffset fragments entry.2) entry.1

structure Section where
  isVirtual : Bool
  fragments : List Fragment
  deriving DecidableEq, Repr

def getSectionAddressSize (sec : Section) : Nat :=
  layoutFragments sec.fragments 0

def getSectionFileSize (sec : Section) : Nat :=
  if sec.isVirtual then 0 else getSectionAddressSize sec

def maxChunkSize : Nat := 16

def fillData (value valueSize : Nat) : List Byte :=
  (List.range maxChunkSize).map fun index =>
    (bytesOf valueSize value).getD (index % valueSize) 0

def writeFill (value valueSize size : Nat) : List Byte :=
  let data := fillData value valueSize
  let chunkSize := valueSize * (maxChunkSize / valueSize)
  (List.replicate (size / chunkSize) (data.take chunkSize)).flatten ++ data.take (size % chunkSize)

/-- There is no result where an error is fatal or the code must not be reached. -/
def writeFragment (offset : Nat) (fragment : Fragment) : Option (List Byte) :=
  let size := computeFragmentSize offset fragment
  match fragment with
  | .align _ value valueSize _ emitNops =>
      let count := size / valueSize
      if valueSize = 0 ∨ count * valueSize ≠ size then none
      else if emitNops then some (writeNopData count)
      else if count = 0 ∨ valueSize ∈ [1, 2, 4, 8] then
        some (List.replicate count (bytesOf valueSize value)).flatten
      else none
  | .data contents _ => some contents
  | .stored _ contents => some contents
  | .fill value valueSize _ =>
      if 0 < valueSize ∧ valueSize ≤ maxChunkSize then some (writeFill value valueSize size)
      else none
  | .boundaryAlign _ => some (writeNopData size)
  | .symbolId index => some (bytesOf 4 index)
  | .org value _ => some (List.replicate size value)

def writeFragments : List Fragment → Nat → Option (List Byte)
  | [], _ => some []
  | fragment :: rest, offset => do
      let written ← writeFragment offset fragment
      let later ← writeFragments rest (offset + computeFragmentSize offset fragment)
      some (written ++ later)

def isLegalVirtual : Fragment → Bool
  | .data contents fixups => fixups.isEmpty && contents.all (· == 0)
  | .align .. => true
  | .fill .. => true
  | _ => false

def writeSectionData (sec : Section) : Option (List Byte) :=
  if sec.isVirtual then
    if sec.fragments.all isLegalVirtual then some [] else none
  else writeFragments sec.fragments 0

/-! ### Sizes -/

/-- Nops are called for: the padding of a code alignment that its limit allows,
or that of a branch. -/
def NeedsNops (offset : Nat) : Fragment → Prop
  | .align alignment _ _ maxBytesToEmit emitNops =>
      emitNops = true ∧ 0 < offsetToAlignment (offset % 2 ^ 32) alignment ∧
        offsetToAlignment (offset % 2 ^ 32) alignment ≤ maxBytesToEmit
  | .boundaryAlign size => 0 < size
  | _ => False

variable {offset : Nat} {written : List Byte} {fragment : Fragment} {fragments : List Fragment}

theorem NeedsNops.size_pos (needed : NeedsNops offset fragment) :
    0 < computeFragmentSize offset fragment := by
  cases fragment with
  | align alignment value valueSize maxBytesToEmit emitNops =>
      obtain ⟨_, positive, within⟩ := needed
      have kept : ¬ offsetToAlignment (offset % 2 ^ 32) alignment > maxBytesToEmit := by omega
      simp only [computeFragmentSize, if_neg kept]
      exact positive
  | boundaryAlign size => exact needed
  | data | stored | fill | symbolId | org => exact needed.elim

theorem length_writeFill {value valueSize size : Nat} (positive : 0 < valueSize)
    (within : valueSize ≤ maxChunkSize) : (writeFill value valueSize size).length = size := by
  have data : (fillData value valueSize).length = maxChunkSize := by
    rw [fillData, length_map, length_range]
  have several : 0 < maxChunkSize / valueSize := Nat.div_pos within positive
  have chunk : 0 < valueSize * (maxChunkSize / valueSize) := Nat.mul_pos positive several
  have fits : valueSize * (maxChunkSize / valueSize) ≤ maxChunkSize := Nat.mul_div_le _ _
  have left := Nat.mod_lt size chunk
  simp only [writeFill, length_append, length_replicate_flatten, length_take, data]
  rw [Nat.min_eq_left fits, Nat.min_eq_left (by omega), Nat.mul_comm, Nat.div_add_mod]

section

variable (done : writeFragment offset fragment = some written)

include done

theorem length_writeFragment
    (plain : ¬ NeedsNops offset fragment) :
    written.length = computeFragmentSize offset fragment := by
  cases fragment with
  | data | stored =>
      cases done
      rfl
  | fill value valueSize numValues =>
      unfold writeFragment at done
      simp only at done
      split at done
      · rename_i legal
        cases done
        exact length_writeFill legal.1 legal.2
      · cases done
  | boundaryAlign size =>
      cases done
      have zero : size = 0 := Nat.eq_zero_of_not_pos plain
      exact zero.symm
  | symbolId index =>
      cases done
      exact length_bytesOf 4 index
  | org value targetLocation =>
      cases done
      exact length_replicate
  | align alignment value valueSize maxBytesToEmit emitNops =>
      unfold writeFragment at done
      simp only at done
      split at done
      · cases done
      · rename_i whole
        cases emitNops with
        | true =>
            cases done
            simp only [NeedsNops, true_and, not_and, not_le] at plain
            simp only [computeFragmentSize, writeNopData, length_nil]
            split
            · rfl
            · omega
        | false =>
            simp only [Bool.false_eq_true, if_false] at done
            split at done
            · cases done
              rw [length_replicate_flatten, length_bytesOf]
              exact not_not.mp (not_or.mp whole).2
            · cases done

theorem writeFragment_nops
    (needed : NeedsNops offset fragment) : written = [] := by
  cases fragment with
  | align alignment value valueSize maxBytesToEmit emitNops =>
      obtain ⟨rfl, _⟩ := needed
      unfold writeFragment at done
      simp only at done
      split at done
      · cases done
      · cases done
        rfl
  | boundaryAlign size =>
      cases done
      rfl
  | data | stored | fill | symbolId | org => exact needed.elim

theorem length_writeFragment_le :
    written.length ≤ computeFragmentSize offset fragment := by
  by_cases needed : NeedsNops offset fragment
  · rw [writeFragment_nops done needed]
    exact Nat.zero_le _
  · exact (length_writeFragment done needed).le

theorem length_writeFragment_iff :
    written.length = computeFragmentSize offset fragment ↔ ¬ NeedsNops offset fragment := by
  constructor
  · intro same needed
    have positive := needed.size_pos
    rw [writeFragment_nops done needed, length_nil] at same
    omega
  · exact length_writeFragment done

end

theorem writeFragments_cons {rest : List Fragment}
    (done : writeFragments (fragment :: rest) offset = some written) :
    ∃ first later, writeFragment offset fragment = some first ∧
      writeFragments rest (offset + computeFragmentSize offset fragment) = some later ∧
      written = first ++ later := by
  obtain ⟨first, one, done⟩ := Option.bind_eq_some_iff.mp done
  obtain ⟨later, remaining, same⟩ := Option.bind_eq_some_iff.mp done
  exact ⟨first, later, one, remaining, (Option.some.inj same).symm⟩

def PlainFrom (fragments : List Fragment) (offset : Nat) : Prop :=
  ∀ index fragment, fragments[index]? = some fragment →
    ¬ NeedsNops (layoutFragments (fragments.take index) offset) fragment

theorem plainFrom_cons {rest : List Fragment} :
    PlainFrom (fragment :: rest) offset ↔
      ¬ NeedsNops offset fragment ∧ PlainFrom rest (offset + computeFragmentSize offset fragment) := by
  constructor
  · intro plain
    exact ⟨plain 0 fragment rfl, fun index other found => plain (index + 1) other found⟩
  · intro ⟨first, later⟩ index other found
    cases index with
    | zero =>
        obtain rfl := Option.some.inj found
        exact first
    | succ index => exact later index other found

theorem PlainFrom.take (plain : PlainFrom fragments offset) (count : Nat) :
    PlainFrom (fragments.take count) offset := by
  intro index fragment found
  have inside : index < count := by
    by_contra beyond
    rw [getElem?_take_eq_none (Nat.le_of_not_lt beyond)] at found
    cases found
  rw [getElem?_take_of_lt inside] at found
  rw [take_take, Nat.min_eq_left inside.le]
  exact plain index fragment found

section

variable (done : writeFragments fragments offset = some written)

include done

theorem length_writeFragments_le :
    offset + written.length ≤ layoutFragments fragments offset := by
  induction fragments generalizing offset written with
  | nil =>
      cases done
      exact Nat.le_refl _
  | cons fragment rest ih =>
      obtain ⟨first, later, one, remaining, rfl⟩ := writeFragments_cons done
      have small := length_writeFragment_le one
      have others := ih remaining
      rw [layoutFragments, length_append]
      omega

theorem length_writeFragments_iff :
    offset + written.length = layoutFragments fragments offset ↔ PlainFrom fragments offset := by
  induction fragments generalizing offset written with
  | nil =>
      cases done
      constructor
      · intro _ index fragment found
        cases found
      · intro _
        rfl
  | cons fragment rest ih =>
      obtain ⟨first, later, one, remaining, rfl⟩ := writeFragments_cons done
      have small := length_writeFragment_le one
      have others := length_writeFragments_le remaining
      rw [plainFrom_cons, ← length_writeFragment_iff one, ← ih remaining, layoutFragments,
        length_append]
      omega

theorem writeFragments_take (count : Nat) :
    ∃ before later, writeFragments (fragments.take count) offset = some before ∧
      writeFragments (fragments.drop count) (layoutFragments (fragments.take count) offset) =
        some later ∧ written = before ++ later := by
  induction fragments generalizing offset written count with
  | nil =>
      cases done
      rw [take_nil, drop_nil]
      exact ⟨[], [], rfl, rfl, rfl⟩
  | cons fragment rest ih =>
      cases count with
      | zero => exact ⟨[], written, rfl, done, rfl⟩
      | succ count =>
          obtain ⟨first, later, one, remaining, rfl⟩ := writeFragments_cons done
          obtain ⟨before, behind, taken, dropped, rfl⟩ := ih remaining count
          refine ⟨first ++ before, behind, ?_, dropped, (List.append_assoc ..).symm⟩
          rw [take_succ_cons, writeFragments, one, Option.bind_eq_bind, Option.bind_some, taken]
          rfl

end

/-! ### Written as laid out -/

def getSymbolOffset (fragments : List Fragment) (place : Location) : Nat :=
  getFragmentOffset fragments place.fragment + place.offset

/-- What is written before the fragment of a symbol, and the symbol's offset in it. -/
def symbolPosition (fragments : List Fragment) (place : Location) : Option Nat :=
  (writeFragments (fragments.take place.fragment) 0).map fun before =>
    before.length + place.offset

/-- The output advances by the size of the section, which is the sum of the
sizes of its fragments, and every symbol of a section in the file is where its
offset says. -/
structure WrittenAsLaidOut (sec : Section) (written : List Byte) : Prop where
  fileSize : written.length = getSectionFileSize sec
  sum : sec.isVirtual = false → written.length = (fragmentSizes sec.fragments).sum
  symbols : sec.isVirtual = false → ∀ place,
    symbolPosition sec.fragments place = some (getSymbolOffset sec.fragments place)

theorem layoutFragments_append (before fragments : List Fragment) (offset : Nat) :
    layoutFragments (before ++ fragments) offset =
      layoutFragments fragments (layoutFragments before offset) := by
  induction before generalizing offset with
  | nil => rfl
  | cons first others ih => exact ih _

private theorem layoutFragments_eq_sum (fragments : List Fragment) (offset start : Nat)
    (before : List Fragment) (reached : layoutFragments before 0 = offset)
    (length : before.length = start) :
    layoutFragments fragments offset = offset +
      ((fragments.zipIdx start).map fun entry =>
        computeFragmentSize (getFragmentOffset (before ++ fragments) entry.2) entry.1).sum := by
  induction fragments generalizing offset start before with
  | nil => rfl
  | cons fragment rest ih =>
      have one : layoutFragments (before ++ [fragment]) 0 =
          offset + computeFragmentSize offset fragment := by
        rw [layoutFragments_append, reached]
        rfl
      have here : getFragmentOffset (before ++ fragment :: rest) start = offset := by
        rw [getFragmentOffset, ← length, take_left, reached]
      have later := ih _ (start + 1) (before ++ [fragment]) one (by simp [length])
      rw [List.append_assoc, singleton_append] at later
      rw [layoutFragments, later, zipIdx_cons, map_cons, sum_cons, here, Nat.add_assoc]

theorem getSectionAddressSize_eq (sec : Section) :
    getSectionAddressSize sec = (fragmentSizes sec.fragments).sum := by
  have whole := layoutFragments_eq_sum sec.fragments 0 0 [] rfl rfl
  rw [Nat.zero_add] at whole
  exact whole

/-- A section is written as it is laid out when it is virtual or none of its
fragments needs nops where it is laid out, and only then. -/
theorem writtenAsLaidOut_iff {sec : Section} (done : writeSectionData sec = some written) :
    WrittenAsLaidOut sec written ↔ (sec.isVirtual = false → ∀ index fragment,
      sec.fragments[index]? = some fragment →
        ¬ NeedsNops (getFragmentOffset sec.fragments index) fragment) := by
  unfold writeSectionData at done
  cases virtual : sec.isVirtual with
  | true =>
      rw [virtual, if_pos rfl] at done
      have nothing : written = [] := by
        split at done
        · exact (Option.some.inj done).symm
        · cases done
      constructor
      · intro _ concrete
        cases concrete
      · intro _
        constructor
        · rw [nothing, getSectionFileSize, virtual, if_pos rfl]
          rfl
        · intro concrete
          rw [virtual] at concrete
          cases concrete
        · intro concrete
          rw [virtual] at concrete
          cases concrete
  | false =>
      rw [virtual, if_neg Bool.false_ne_true] at done
      have exactly := length_writeFragments_iff done
      rw [Nat.zero_add] at exactly
      constructor
      · intro laid _
        have same := laid.fileSize
        rw [getSectionFileSize, virtual, if_neg Bool.false_ne_true] at same
        exact exactly.mp same
      · intro plain
        have same := exactly.mpr (plain rfl)
        refine ⟨?_, fun _ => ?_, fun _ place => ?_⟩
        · rw [getSectionFileSize, virtual, if_neg Bool.false_ne_true]
          exact same
        · rw [← getSectionAddressSize_eq]
          exact same
        · obtain ⟨before, _, taken, _, _⟩ := writeFragments_take done place.fragment
          have position := (length_writeFragments_iff taken).mpr
            (PlainFrom.take (plain rfl) place.fragment)
          rw [Nat.zero_add] at position
          rw [symbolPosition, taken, getSymbolOffset, getFragmentOffset, ← position]
          rfl

/-- Three bytes of data, a fill of two values and padding to a multiple of four. -/
theorem filled_section_laidOut :
    WrittenAsLaidOut ⟨false, [.data [1, 2, 3] [], .fill 7 4 (some 2), .align 4 0 1 4 false]⟩
      [1, 2, 3, 0, 0, 0, 7, 0, 0, 0, 7, 0] := by
  have written : writeSectionData
      ⟨false, [.data [1, 2, 3] [], .fill 7 4 (some 2), .align 4 0 1 4 false]⟩ =
        some [1, 2, 3, 0, 0, 0, 7, 0, 0, 0, 7, 0] := by decide
  refine (writtenAsLaidOut_iff written).mpr fun _ index fragment found needed => ?_
  have member := mem_of_getElem? found
  simp only [mem_cons, not_mem_nil, or_false] at member
  rcases member with rfl | rfl | rfl
  · exact needed
  · exact needed
  · exact Bool.false_ne_true needed.1

/-- One byte of code and the alignment of what follows it. -/
theorem aligned_code_not_laidOut :
    ∃ written, writeSectionData ⟨false, [.data [0x5b] [], .align 4 0 1 4 true, .data [0x5b] []]⟩ =
        some written ∧
      ¬ WrittenAsLaidOut ⟨false, [.data [0x5b] [], .align 4 0 1 4 true, .data [0x5b] []]⟩ written := by
  refine ⟨[0x5b, 0x5b], by decide, fun laid => ?_⟩
  have same := laid.fileSize
  revert same
  decide

/-! ### Sections of data and padding alone

The results about labels are about sections with two of the kinds. As sections
with fragments of every kind they are laid out and written the same, so what is
shown here of their fragments holds of them. -/

def ofMCFragment : MCFragment → Fragment
  | .data contents fixups => .data contents fixups
  | .align alignment value valueSize maxBytesToEmit emitNops =>
      .align alignment value valueSize maxBytesToEmit emitNops

def ofMCSection (sec : MCSection) : Section :=
  ⟨sec.isVirtual, sec.fragments.map ofMCFragment⟩

theorem computeFragmentSize_ofMCFragment (offset : Nat) (fragment : MCFragment) :
    computeFragmentSize offset (ofMCFragment fragment) =
      EvmBackend.computeFragmentSize offset fragment := by
  cases fragment with
  | data | align => rfl

theorem writeFragment_ofMCFragment (offset : Nat) (fragment : MCFragment) :
    writeFragment offset (ofMCFragment fragment) = EvmBackend.writeFragment offset fragment := by
  cases fragment with
  | data | align => rfl

theorem writeFragments_ofMCFragment (fragments : List MCFragment) (offset : Nat) :
    writeFragments (fragments.map ofMCFragment) offset =
      EvmBackend.writeFragments fragments offset := by
  induction fragments generalizing offset with
  | nil => rfl
  | cons fragment rest ih =>
      rw [map_cons, writeFragments, EvmBackend.writeFragments, writeFragment_ofMCFragment,
        computeFragmentSize_ofMCFragment, ih]

theorem writeSectionData_ofMCSection (sec : MCSection) :
    writeSectionData (ofMCSection sec) = EvmBackend.writeSectionData sec := by
  have legal : ∀ fragment : MCFragment,
      isLegalVirtual (ofMCFragment fragment) = EvmBackend.isLegalVirtual fragment := by
    intro fragment
    cases fragment with
    | data | align => rfl
  have all : (sec.fragments.map ofMCFragment).all isLegalVirtual =
      sec.fragments.all EvmBackend.isLegalVirtual := by
    rw [List.all_map]
    exact congrArg sec.fragments.all (funext legal)
  unfold writeSectionData EvmBackend.writeSectionData ofMCSection
  rw [writeFragments_ofMCFragment, all]

end EvmBackend.Sections
