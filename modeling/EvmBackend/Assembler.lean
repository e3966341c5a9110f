/-
The assembler: sections are streamed into fragments, fragments are laid out,
fixups are filled in, and the writer puts the sections one behind the other.

Layout counts offsets from the start of each section and counts the padding of
code alignment, for which the target writes nothing. Only data and alignment
fragments are generated, and nothing is relaxed.
-/

import EvmBackend.CodeEmitter

namespace EvmBackend

open BigEndian List

inductive MCFragment
  | data (contents : List Byte) (fixups : List MCFixup)
  | align (alignment value valueSize maxBytesToEmit : Nat) (emitNops : Bool)
  deriving DecidableEq, Repr

structure Location where
  fragment : Nat
  offset : Nat
  deriving DecidableEq, Repr

/-! ### Streaming -/

inductive Directive
  | label (symbol : Nat)
  | instruction (inst : MCInst)
  | bytes (data : List Byte)
  | valueToAlignment (alignment value valueSize maxBytesToEmit : Nat)
  | codeAlignment (alignment maxBytesToEmit : Nat)
  deriving DecidableEq, Repr

/-- A section while it is streamed, the newest fragment first, with the labels
that wait for the next one. -/
structure MCObjectStreamer where
  fragments : List MCFragment
  pendingLabels : List Nat
  symbols : List (Nat × Location)
  deriving DecidableEq, Repr

namespace MCObjectStreamer

def fresh : MCObjectStreamer := ⟨[], [], []⟩

def insert (fragment : MCFragment) (streamer : MCObjectStreamer) : MCObjectStreamer :=
  ⟨fragment :: streamer.fragments, [],
    streamer.symbols ++
      streamer.pendingLabels.map fun symbol => (symbol, ⟨streamer.fragments.length, 0⟩)⟩

def EmitLabel (symbol : Nat) (streamer : MCObjectStreamer) : MCObjectStreamer :=
  match streamer.fragments with
  | .data contents _ :: older =>
      { streamer with symbols := streamer.symbols ++ [(symbol, ⟨older.length, contents.length⟩)] }
  | _ => { streamer with pendingLabels := streamer.pendingLabels ++ [symbol] }

def getOrCreateDataFragment (streamer : MCObjectStreamer) : MCObjectStreamer :=
  match streamer.fragments with
  | .data _ _ :: _ => streamer
  | _ => streamer.insert (.data [] [])

def append (code : List Byte) (fixups : List MCFixup) (streamer : MCObjectStreamer) :
    MCObjectStreamer :=
  match streamer.fragments with
  | .data contents old :: older =>
      let moved := fixups.map fun fixup => { fixup with offset := fixup.offset + contents.length }
      { streamer with fragments := .data (contents ++ code) (old ++ moved) :: older }
  | _ => streamer

def EmitInstToData (inst : MCInst) (streamer : MCObjectStreamer) : Option MCObjectStreamer :=
  (encodeInstruction inst).map fun encoded =>
    streamer.getOrCreateDataFragment.append encoded.1 encoded.2

def EmitBytes (data : List Byte) (streamer : MCObjectStreamer) : MCObjectStreamer :=
  streamer.getOrCreateDataFragment.append data []

def EmitValueToAlignment (alignment value valueSize maxBytesToEmit : Nat) (emitNops : Bool)
    (streamer : MCObjectStreamer) : MCObjectStreamer :=
  let limit := if maxBytesToEmit = 0 then alignment else maxBytesToEmit
  streamer.insert (.align alignment value valueSize limit emitNops)

def emit (directive : Directive) (streamer : MCObjectStreamer) : Option MCObjectStreamer :=
  match directive with
  | .label symbol => some (streamer.EmitLabel symbol)
  | .instruction inst => streamer.EmitInstToData inst
  | .bytes data => some (streamer.EmitBytes data)
  | .valueToAlignment alignment value valueSize maxBytesToEmit =>
      some (streamer.EmitValueToAlignment alignment value valueSize maxBytesToEmit false)
  | .codeAlignment alignment maxBytesToEmit =>
      some (streamer.EmitValueToAlignment alignment 0 1 maxBytesToEmit true)

def flushPendingLabels (streamer : MCObjectStreamer) : MCObjectStreamer :=
  if streamer.pendingLabels = [] then streamer else streamer.insert (.data [] [])

end MCObjectStreamer

structure MCSection where
  isVirtual : Bool
  fragments : List MCFragment
  symbols : List (Nat × Location)
  deriving DecidableEq, Repr

structure SectionSource where
  isVirtual : Bool
  directives : List Directive
  deriving DecidableEq, Repr

def streamSection (source : SectionSource) : Option MCSection :=
  (Runs.run MCObjectStreamer.emit source.directives .fresh).map fun streamer =>
    ⟨source.isVirtual, streamer.flushPendingLabels.fragments.reverse,
      streamer.flushPendingLabels.symbols⟩

def offsetToAlignment (offset alignment : Nat) : Nat :=
  (alignment - offset % alignment) % alignment

def computeFragmentSize (offset : Nat) : MCFragment → Nat
  | .data contents _ => contents.length
  | .align alignment _ _ maxBytesToEmit _ =>
      let size := offsetToAlignment (offset % 2 ^ 32) alignment
      if size > maxBytesToEmit then 0 else size

def layoutFragments : List MCFragment → Nat → Nat
  | [], offset => offset
  | fragment :: rest, offset => layoutFragments rest (offset + computeFragmentSize offset fragment)

def getFragmentOffset (fragments : List MCFragment) (index : Nat) : Nat :=
  layoutFragments (fragments.take index) 0

def symbolTable (sections : List MCSection) : List (Nat × Nat × Location) :=
  sections.zipIdx.flatMap fun entry =>
    entry.1.symbols.map fun symbol => (symbol.1, entry.2, symbol.2)

def fragmentsAt (sections : List MCSection) (index : Nat) : List MCFragment :=
  (sections[index]?.map MCSection.fragments).getD []

def getSymbolOffset (sections : List MCSection) (place : Nat × Location) : Nat :=
  getFragmentOffset (fragmentsAt sections place.1) place.2.fragment + place.2.offset

/-- The value of a symbol; one that is not defined counts as zero. -/
def evaluateFixup (sections : List MCSection) (fixup : MCFixup) : Nat :=
  (((symbolTable sections).lookup fixup.symbol).map (getSymbolOffset sections)).getD 0

/-- The value goes into two bytes; the assertion that it fits is not compiled in. -/
def applyFixupValue (offset value : Nat) (contents : List Byte) : Option (List Byte) :=
  if offset + 2 ≤ contents.length then
    some (contents.take offset ++ bytesOf 2 value ++ contents.drop (offset + 2))
  else none

def applyFixups (sections : List MCSection) (fragment : MCFragment) : Option MCFragment :=
  match fragment with
  | .data contents fixups =>
      (Runs.run (fun fixup => applyFixupValue fixup.offset (evaluateFixup sections fixup)) fixups
        contents).map fun filled => .data filled fixups
  | fragment => some fragment

def layoutSection (sections : List MCSection) (sec : MCSection) : Option MCSection :=
  (sec.fragments.mapM (applyFixups sections)).map fun fragments => { sec with fragments }

def deploySize : Nat := 0

def patchDeploySize (fragment : MCFragment) (offset : Nat) : Option MCFragment :=
  match fragment with
  | .data contents fixups =>
      (applyFixupValue offset contents.length contents).map fun patched => .data patched fixups
  | .align .. => none

def MCFragment.refersTo (symbol : Nat) : MCFragment → Bool
  | .data _ fixups => fixups.any fun fixup => fixup.symbol == symbol
  | .align .. => false

/-- The size of its fragment is written where `deploy.size` is defined; it must
be defined if it is used. -/
def finish (sections : List MCSection) : Option (List MCSection) :=
  match (symbolTable sections).lookup deploySize with
  | some (index, location) => do
      let sec ← sections[index]?
      let fragment ← sec.fragments[location.fragment]?
      let patched ← patchDeploySize fragment location.offset
      some (sections.set index { sec with fragments := sec.fragments.set location.fragment patched })
  | none =>
      if sections.any fun sec => sec.fragments.any (MCFragment.refersTo deploySize) then none
      else some sections

def writeNopData (_count : Nat) : List Byte := []

def writeFragment (offset : Nat) (fragment : MCFragment) : Option (List Byte) :=
  match fragment with
  | .data contents _ => some contents
  | .align _ value valueSize _ emitNops =>
      let size := computeFragmentSize offset fragment
      let count := size / valueSize
      if valueSize = 0 ∨ count * valueSize ≠ size then none
      else if emitNops then some (writeNopData count)
      else if count = 0 ∨ valueSize ∈ [1, 2, 4, 8] then
        some (List.replicate count (bytesOf valueSize value)).flatten
      else none

def writeFragments : List MCFragment → Nat → Option (List Byte)
  | [], _ => some []
  | fragment :: rest, offset => do
      let written ← writeFragment offset fragment
      let later ← writeFragments rest (offset + computeFragmentSize offset fragment)
      some (written ++ later)

def isLegalVirtual : MCFragment → Bool
  | .data contents fixups => fixups.isEmpty && contents.all (· == 0)
  | .align .. => true

def writeSectionData (sec : MCSection) : Option (List Byte) :=
  if sec.isVirtual then
    if sec.fragments.all isLegalVirtual then some [] else none
  else writeFragments sec.fragments 0

def writeObject : List MCSection → Option (List Byte)
  | [] => some []
  | sec :: rest => do
      let written ← writeSectionData sec
      let later ← writeObject rest
      some (written ++ later)

/-- The whole way from the directives to the file. There is no result where an
error is reported or the code must not be reached. -/
def assembleFile (sources : List SectionSource) : Option (List Byte) := do
  let sections ← sources.mapM streamSection
  if ((symbolTable sections).map Prod.fst).Nodup then
    let filled ← sections.mapM (layoutSection sections)
    let finished ← finish filled
    writeObject finished
  else none

def writtenSize (offset : Nat) : MCFragment → Nat
  | .data contents _ => contents.length
  | .align alignment value valueSize maxBytesToEmit emitNops =>
      if emitNops then 0
      else computeFragmentSize offset (.align alignment value valueSize maxBytesToEmit emitNops)

def writtenFrom : List MCFragment → Nat → Nat
  | [], _ => 0
  | fragment :: rest, offset =>
      writtenSize offset fragment + writtenFrom rest (offset + computeFragmentSize offset fragment)

def paddingFrom : List MCFragment → Nat → Nat
  | [], _ => 0
  | fragment :: rest, offset =>
      (computeFragmentSize offset fragment - writtenSize offset fragment) +
        paddingFrom rest (offset + computeFragmentSize offset fragment)

def sectionFileSize (sec : MCSection) : Nat :=
  if sec.isVirtual then 0 else writtenFrom sec.fragments 0

def sectionStart (sections : List MCSection) : Nat → Nat
  | 0 => 0
  | index + 1 => sectionStart sections index + (sections[index]?.map sectionFileSize).getD 0

def filePosition (sections : List MCSection) (place : Nat × Location) : Nat :=
  sectionStart sections place.1 +
    writtenFrom ((fragmentsAt sections place.1).take place.2.fragment) 0 + place.2.offset

def paddingBefore (sections : List MCSection) (place : Nat × Location) : Nat :=
  paddingFrom ((fragmentsAt sections place.1).take place.2.fragment) 0

theorem writtenSize_le (offset : Nat) (fragment : MCFragment) :
    writtenSize offset fragment ≤ computeFragmentSize offset fragment := by
  cases fragment with
  | data contents fixups => exact Nat.le_refl _
  | align alignment value valueSize maxBytesToEmit emitNops =>
      cases emitNops with
      | true => exact Nat.zero_le _
      | false => exact Nat.le_refl _

theorem layoutFragments_eq (fragments : List MCFragment) (offset : Nat) :
    layoutFragments fragments offset =
      offset + writtenFrom fragments offset + paddingFrom fragments offset := by
  induction fragments generalizing offset with
  | nil => rfl
  | cons fragment rest ih =>
      have bounded := writtenSize_le offset fragment
      rw [layoutFragments, ih, writtenFrom, paddingFrom]
      omega

/-- A symbol's offset is its position in the file, less what is in front of its
section, and with the padding. -/
theorem getSymbolOffset_eq (sections : List MCSection) (place : Nat × Location) :
    getSymbolOffset sections place + sectionStart sections place.1 =
      filePosition sections place + paddingBefore sections place := by
  unfold getSymbolOffset getFragmentOffset filePosition paddingBefore
  rw [layoutFragments_eq]
  omega

/-! ### Shapes -/

inductive SameShape : MCFragment → MCFragment → Prop
  | data {contents other : List Byte} (fixups : List MCFixup)
      (sizes : contents.length = other.length) : SameShape (.data contents fixups) (.data other fixups)
  | align (alignment value valueSize maxBytesToEmit : Nat) (emitNops : Bool) :
      SameShape (.align alignment value valueSize maxBytesToEmit emitNops)
        (.align alignment value valueSize maxBytesToEmit emitNops)

theorem SameShape.refl (fragment : MCFragment) : SameShape fragment fragment := by
  cases fragment with
  | data contents fixups => exact .data fixups rfl
  | align alignment value valueSize maxBytesToEmit emitNops => exact .align _ _ _ _ _

theorem SameShape.trans {first second third : MCFragment} (left : SameShape first second)
    (right : SameShape second third) : SameShape first third := by
  cases left with
  | data fixups sizes =>
      cases right with
      | data _ others => exact .data fixups (sizes.trans others)
  | align => exact right

theorem SameShape.computeFragmentSize {left right : MCFragment} (same : SameShape left right)
    (offset : Nat) : computeFragmentSize offset left = computeFragmentSize offset right := by
  cases same with
  | data fixups sizes => exact sizes
  | align => rfl

theorem SameShape.writtenSize {left right : MCFragment} (same : SameShape left right)
    (offset : Nat) : writtenSize offset left = writtenSize offset right := by
  cases same with
  | data fixups sizes => exact sizes
  | align => rfl

theorem writtenFrom_sameShape {left right : List MCFragment} (same : List.Forall₂ SameShape left right)
    (offset : Nat) : writtenFrom left offset = writtenFrom right offset := by
  induction same generalizing offset with
  | nil => rfl
  | cons head tail ih =>
      rw [writtenFrom, writtenFrom, head.writtenSize, head.computeFragmentSize, ih]

structure SameSection (left right : MCSection) : Prop where
  isVirtual : left.isVirtual = right.isVirtual
  fragments : List.Forall₂ SameShape left.fragments right.fragments
  symbols : left.symbols = right.symbols

theorem SameSection.sectionFileSize {left right : MCSection} (same : SameSection left right) :
    sectionFileSize left = sectionFileSize right := by
  unfold EvmBackend.sectionFileSize
  rw [same.isVirtual, writtenFrom_sameShape same.fragments]

section Sections

variable {left right : List MCSection} (same : List.Forall₂ SameSection left right)

include same

theorem sameSection_at (index : Nat) :
    (left[index]? = none ∧ right[index]? = none) ∨
      ∃ first second, left[index]? = some first ∧ right[index]? = some second ∧
        SameSection first second := by
  induction same generalizing index with
  | nil => exact .inl ⟨rfl, rfl⟩
  | cons head tail ih =>
      cases index with
      | zero => exact .inr ⟨_, _, rfl, rfl, head⟩
      | succ index => exact ih index

theorem sectionStart_sameSection (index : Nat) : sectionStart left index = sectionStart right index := by
  induction index with
  | zero => rfl
  | succ index ih =>
      rw [sectionStart, sectionStart, ih]
      rcases sameSection_at same index with ⟨noLeft, noRight⟩ | ⟨_, _, inLeft, inRight, one⟩
      · rw [noLeft, noRight]
      · rw [inLeft, inRight, Option.map_some, Option.map_some, one.sectionFileSize]

theorem fragmentsAt_sameSection (index : Nat) :
    List.Forall₂ SameShape (fragmentsAt left index) (fragmentsAt right index) := by
  unfold fragmentsAt
  rcases sameSection_at same index with ⟨noLeft, noRight⟩ | ⟨_, _, inLeft, inRight, one⟩
  · rw [noLeft, noRight]
    exact .nil
  · rw [inLeft, inRight]
    exact one.fragments

theorem filePosition_sameSection (place : Nat × Location) :
    filePosition left place = filePosition right place := by
  unfold filePosition
  have taken := forall₂_take place.2.fragment (fragmentsAt_sameSection same place.1)
  rw [sectionStart_sameSection same, writtenFrom_sameShape taken]

theorem symbolTable_sameSection : symbolTable left = symbolTable right := by
  have step : ∀ start, (left.zipIdx start).flatMap (fun entry =>
      entry.1.symbols.map fun symbol => (symbol.1, entry.2, symbol.2)) =
      (right.zipIdx start).flatMap fun entry =>
        entry.1.symbols.map fun symbol => (symbol.1, entry.2, symbol.2) := by
    induction same with
    | nil => exact fun _ => rfl
    | cons head tail ih =>
        intro start
        rw [zipIdx_cons, zipIdx_cons, flatMap_cons, flatMap_cons, head.symbols,
          ih]
  exact step 0

end Sections

/-! ### What the writer writes -/

theorem length_replicate_flatten (count : Nat) (block : List Byte) :
    (List.replicate count block).flatten.length = count * block.length := by
  induction count with
  | zero => simp
  | succ count ih =>
      rw [List.replicate_succ, flatten_cons, length_append, ih, Nat.succ_mul, Nat.add_comm]

theorem length_writeFragment {offset : Nat} {fragment : MCFragment} {written : List Byte}
    (done : writeFragment offset fragment = some written) :
    written.length = writtenSize offset fragment := by
  cases fragment with
  | data contents fixups =>
      cases done
      rfl
  | align alignment value valueSize maxBytesToEmit emitNops =>
      unfold writeFragment at done
      simp only at done
      split at done
      · cases done
      · rename_i whole
        cases emitNops with
        | true =>
            cases done
            rfl
        | false =>
            simp only [Bool.false_eq_true, if_false] at done
            split at done
            · cases done
              rw [length_replicate_flatten, length_bytesOf, writtenSize, if_neg Bool.false_ne_true]
              exact not_not.mp (not_or.mp whole).2
            · cases done

theorem writeFragments_cons {fragment : MCFragment} {rest : List MCFragment} {offset : Nat}
    {written : List Byte} (done : writeFragments (fragment :: rest) offset = some written) :
    ∃ first later, writeFragment offset fragment = some first ∧
      writeFragments rest (offset + computeFragmentSize offset fragment) = some later ∧
      written = first ++ later := by
  obtain ⟨first, one, done⟩ := Option.bind_eq_some_iff.mp done
  obtain ⟨later, remaining, same⟩ := Option.bind_eq_some_iff.mp done
  exact ⟨first, later, one, remaining, (Option.some.inj same).symm⟩

theorem length_writeFragments {fragments : List MCFragment} {offset : Nat} {written : List Byte}
    (done : writeFragments fragments offset = some written) :
    written.length = writtenFrom fragments offset := by
  induction fragments generalizing offset written with
  | nil =>
      cases done
      rfl
  | cons fragment rest ih =>
      obtain ⟨first, later, one, remaining, rfl⟩ := writeFragments_cons done
      rw [length_append, length_writeFragment one, ih remaining, writtenFrom]

theorem writeFragments_data {fragments : List MCFragment} {offset index : Nat} {written contents : List Byte}
    {fixups : List MCFixup} (done : writeFragments fragments offset = some written)
    (found : fragments[index]? = some (.data contents fixups)) {place : Nat}
    (inside : place < contents.length) :
    written[writtenFrom (fragments.take index) offset + place]? = contents[place]? := by
  induction fragments generalizing offset index written with
  | nil => cases found
  | cons fragment rest ih =>
      obtain ⟨first, later, one, remaining, rfl⟩ := writeFragments_cons done
      cases index with
      | zero =>
          obtain rfl := Option.some.inj found
          cases one
          rw [take_zero, writtenFrom, Nat.zero_add, getElem?_append_left inside]
      | succ index =>
          have size := length_writeFragment one
          rw [take_succ_cons, writtenFrom, Nat.add_assoc, ← size,
            getElem?_append_right (Nat.le_add_right _ _), Nat.add_sub_cancel_left]
          exact ih remaining found

theorem length_writeSectionData {sec : MCSection} {written : List Byte}
    (done : writeSectionData sec = some written) : written.length = sectionFileSize sec := by
  unfold writeSectionData at done
  unfold sectionFileSize
  cases virtual : sec.isVirtual with
  | true =>
      rw [virtual, if_pos rfl] at done
      split at done
      · cases done
        rfl
      · cases done
  | false =>
      rw [virtual, if_neg Bool.false_ne_true] at done
      exact length_writeFragments done

theorem writeObject_section {sections : List MCSection} {index : Nat} {file : List Byte} {sec : MCSection}
    (done : writeObject sections = some file) (found : sections[index]? = some sec) :
    ∃ written, writeSectionData sec = some written ∧ ∀ place < written.length,
      file[sectionStart sections index + place]? = written[place]? := by
  induction sections generalizing index file with
  | nil => cases found
  | cons first rest ih =>
      obtain ⟨bytes, one, done⟩ := Option.bind_eq_some_iff.mp done
      obtain ⟨later, remaining, same⟩ := Option.bind_eq_some_iff.mp done
      cases same
      cases index with
      | zero =>
          obtain rfl := Option.some.inj found
          refine ⟨bytes, one, fun place inside => ?_⟩
          rw [sectionStart, Nat.zero_add, getElem?_append_left inside]
      | succ index =>
          obtain ⟨written, ofSection, holds⟩ := ih remaining found
          refine ⟨written, ofSection, fun place inside => ?_⟩
          have start : sectionStart (first :: rest) (index + 1) =
              bytes.length + sectionStart rest index := by
            rw [length_writeSectionData one]
            clear holds ofSection found remaining
            induction index with
            | zero => simp [sectionStart]
            | succ index ih =>
                rw [sectionStart, ih, sectionStart, getElem?_cons_succ, Nat.add_assoc]
          rw [start, Nat.add_assoc, getElem?_append_right (Nat.le_add_right _ _),
            Nat.add_sub_cancel_left]
          exact holds place inside

theorem writeObject_data {sections : List MCSection} {file contents : List Byte}
    {fixups : List MCFixup} {index fragment : Nat} (done : writeObject sections = some file)
    (found : (fragmentsAt sections index)[fragment]? = some (.data contents fixups))
    (used : fixups ≠ []) {place : Nat} (inside : place < contents.length) :
    file[filePosition sections (index, ⟨fragment, place⟩)]? = contents[place]? := by
  unfold fragmentsAt at found
  cases present : sections[index]? with
  | none =>
      rw [present] at found
      cases found
  | some sec =>
      rw [present] at found
      obtain ⟨written, ofSection, holds⟩ := writeObject_section done present
      have concrete : sec.isVirtual = false := by
        by_contra virtual
        rw [Bool.not_eq_false] at virtual
        unfold writeSectionData at ofSection
        rw [virtual, if_pos rfl] at ofSection
        split at ofSection
        · rename_i legal
          have member : MCFragment.data contents fixups ∈ sec.fragments := mem_of_getElem? found
          have empty := List.all_eq_true.mp legal _ member
          rw [isLegalVirtual, Bool.and_eq_true, List.isEmpty_iff] at empty
          exact used empty.1
        · cases ofSection
      unfold writeSectionData at ofSection
      rw [concrete, if_neg Bool.false_ne_true] at ofSection
      have byte := writeFragments_data ofSection found inside
      have short : writtenFrom (sec.fragments.take fragment) 0 + place < written.length := by
        by_contra beyond
        rw [List.getElem?_eq_none (by omega), List.getElem?_eq_getElem inside] at byte
        cases byte
      rw [← byte, ← holds _ short]
      unfold filePosition fragmentsAt
      rw [present, Nat.add_assoc]
      rfl

end EvmBackend
