/-
Labels in the written file: the two bytes behind the opcode of a push whose
operand is a symbol, against the position where the symbol was emitted.

The bytes hold the offset of the symbol in its section, cut to 16 bits. That is
its position in the file if what stands before its section, together with what
was cut off, makes up for the padding nobody writes.
-/

import EvmBackend.Assembler
import Mathlib.Data.List.Forall2

namespace EvmBackend

open BigEndian List Option

variable {contents code : List Byte} {fixups : List MCFixup} {streamer : MCObjectStreamer}
    {index symbol fragment : Nat} {α : Type}

theorem applyFixupValue_spec {offset value : Nat} {filled : List Byte}
    (done : applyFixupValue offset value contents = some filled) :
    offset + 2 ≤ contents.length ∧ filled.length = contents.length ∧
      filled[offset]? = some (BitVec.ofNat 8 (value / 256)) ∧
      filled[offset + 1]? = some (BitVec.ofNat 8 value) ∧
      ∀ place, place < offset ∨ offset + 2 ≤ place → filled[place]? = contents[place]? := by
  unfold applyFixupValue at done
  split at done
  · rename_i fits
    cases done
    have bytes : bytesOf 2 value = [BitVec.ofNat 8 (value / 256), BitVec.ofNat 8 value] := by
      simp [bytesOf]
    have size : (contents.take offset).length = offset := by
      rw [length_take]
      omega
    rw [bytes]
    refine ⟨fits, ?_, ?_, ?_, fun place outside => ?_⟩
    · simp only [length_append, length_drop, size, length_cons, length_nil]
      omega
    · rw [List.append_assoc, getElem?_append_right (by omega), size, Nat.sub_self]
      rfl
    · rw [List.append_assoc, getElem?_append_right (by omega), size, Nat.add_sub_cancel_left]
      rfl
    · rcases outside with before | behind
      · rw [List.append_assoc, getElem?_append_left (by omega), getElem?_take_of_lt before]
      · have front : (contents.take offset ++ [BitVec.ofNat 8 (value / 256), BitVec.ofNat 8 value]).length =
            offset + 2 := by
          rw [length_append, size]
          rfl
        rw [getElem?_append_right (by omega), front, getElem?_drop]
        congr 1
        omega
  · cases done

def Spaced (fixups : List MCFixup) : Prop :=
  fixups.Pairwise fun left right => left.offset + 2 ≤ right.offset

theorem run_applyFixupValue {evaluate : MCFixup → Nat} {filled : List Byte}
    (spaced : Spaced fixups)
    (done : Runs.run (fun fixup => applyFixupValue fixup.offset (evaluate fixup)) fixups contents = some filled) :
    filled.length = contents.length ∧
      (∀ fixup ∈ fixups, filled[fixup.offset]? = some (BitVec.ofNat 8 (evaluate fixup / 256)) ∧
        filled[fixup.offset + 1]? = some (BitVec.ofNat 8 (evaluate fixup))) ∧
      ∀ place, (∀ fixup ∈ fixups, place < fixup.offset ∨ fixup.offset + 2 ≤ place) →
        filled[place]? = contents[place]? := by
  induction fixups generalizing contents with
  | nil =>
      cases done
      exact ⟨rfl, (fun _ absent => by cases absent), fun _ _ => rfl⟩
  | cons fixup rest ih =>
      obtain ⟨first, one, remaining⟩ := Runs.run_cons_eq_some _ done
      obtain ⟨apart, spacedRest⟩ := pairwise_cons.mp spaced
      obtain ⟨_, size, high, low, others⟩ := applyFixupValue_spec one
      obtain ⟨sizeRest, held, kept⟩ := ih spacedRest remaining
      refine ⟨sizeRest.trans size, fun entry member => ?_, fun place outside => ?_⟩
      · rcases mem_cons.mp member with rfl | later
        · have left : ∀ other ∈ rest, entry.offset < other.offset ∨ other.offset + 2 ≤ entry.offset :=
            fun other inside => .inl (by have := apart other inside; omega)
          have right : ∀ other ∈ rest,
              entry.offset + 1 < other.offset ∨ other.offset + 2 ≤ entry.offset + 1 :=
            fun other inside => .inl (by have := apart other inside; omega)
          exact ⟨(kept _ left).trans high, (kept _ right).trans low⟩
        · exact held entry later
      · rw [kept place fun other inside => outside other (mem_cons_of_mem fixup inside)]
        exact others place (outside fixup mem_cons_self)

/-! ### Streamed fragments -/

/-- Operands lie inside their fragment, each behind the opcode of a two-byte
push. -/
structure WellPlaced (contents : List Byte) (fixups : List MCFixup) : Prop where
  spaced : Spaced fixups
  inside : ∀ fixup ∈ fixups, 0 < fixup.offset ∧ fixup.offset + 2 ≤ contents.length
  pushed : ∀ fixup ∈ fixups, contents[fixup.offset - 1]? = some 0x61

def MCFragment.WellFormed : MCFragment → Prop
  | .data contents fixups => WellPlaced contents fixups
  | .align .. => True

/-- A label is at the edge of what was emitted, never inside an operand. -/
def MCFragment.LabelAt (offset : Nat) : MCFragment → Prop
  | .data contents fixups => offset ≤ contents.length ∧
      ∀ fixup ∈ fixups, offset < fixup.offset ∨ fixup.offset + 2 ≤ offset
  | .align .. => offset = 0

theorem encodeInstruction_fixups {inst : MCInst}
    (done : encodeInstruction inst = some (code, fixups)) :
    fixups = [] ∨ ∃ symbol, code = [0x61, 0, 0] ∧ fixups = [⟨1, symbol⟩] := by
  unfold encodeInstruction at done
  simp only at done
  split at done
  · split at done
    · cases done
    · split at done
      · split at done
        · rename_i push _ _ symbol _ two
          cases done
          refine .inr ⟨symbol, ?_, rfl⟩
          have number : getBinaryCodeForInstr inst.opcode = 0x61 := by
            unfold isPUSH at push
            rw [Bool.and_eq_true, decide_eq_true_eq, decide_eq_true_eq] at push
            omega
          rw [number]
          rfl
        · cases done
      · obtain ⟨data, _, same⟩ := map_eq_some_iff.mp done
        cases same
        exact .inl rfl
      · cases done
  · cases done
    exact .inl rfl

theorem WellPlaced.append {old added : List MCFixup} (placed : WellPlaced contents old)
    (encoded : added = [] ∨ ∃ symbol, code = [0x61, 0, 0] ∧ added = [⟨1, symbol⟩]) :
    WellPlaced (contents ++ code)
      (old ++ added.map fun fixup => { fixup with offset := fixup.offset + contents.length }) := by
  have earlier : ∀ fixup ∈ old, 0 < fixup.offset ∧ fixup.offset + 2 ≤ (contents ++ code).length := by
    intro fixup member
    have bounds := placed.inside fixup member
    rw [length_append]
    omega
  have opcodes : ∀ fixup ∈ old, (contents ++ code)[fixup.offset - 1]? = some 0x61 := by
    intro fixup member
    have bounds := placed.inside fixup member
    rw [getElem?_append_left (by omega)]
    exact placed.pushed fixup member
  rcases encoded with rfl | ⟨symbol, rfl, rfl⟩
  · rw [map_nil, append_nil]
    exact ⟨placed.spaced, earlier, opcodes⟩
  · refine ⟨?_, fun fixup member => ?_, fun fixup member => ?_⟩
    · refine pairwise_append.mpr ⟨placed.spaced, pairwise_singleton _ _, ?_⟩
      intro left inLeft right inRight
      obtain rfl := mem_singleton.mp inRight
      have bounds := placed.inside left inLeft
      simp only
      omega
    · rcases mem_append.mp member with before | last
      · exact earlier fixup before
      · obtain rfl := mem_singleton.mp last
        simp only [length_append, length_cons, length_nil]
        omega
    · rcases mem_append.mp member with before | last
      · exact opcodes fixup before
      · obtain rfl := mem_singleton.mp last
        simp only [Nat.add_sub_cancel_left]
        rw [getElem?_append_right (Nat.le_refl _), Nat.sub_self]
        rfl

namespace MCObjectStreamer

structure Sound (streamer : MCObjectStreamer) : Prop where
  fragments : ∀ fragment ∈ streamer.fragments, fragment.WellFormed
  symbols : ∀ symbol ∈ streamer.symbols, ∃ fragment,
    streamer.fragments.reverse[symbol.2.fragment]? = some fragment ∧ fragment.LabelAt symbol.2.offset

section

variable (sound : Sound streamer)

include sound

theorem Sound.insert {fragment : MCFragment}
    (formed : fragment.WellFormed) (start : fragment.LabelAt 0) : Sound (streamer.insert fragment) := by
  refine ⟨fun other member => ?_, fun symbol member => ?_⟩
  · rcases mem_cons.mp member with rfl | older
    · exact formed
    · exact sound.fragments other older
  · unfold MCObjectStreamer.insert
    simp only [reverse_cons]
    rcases mem_append.mp member with known | waiting
    · obtain ⟨holder, found, label⟩ := sound.symbols symbol known
      have short : symbol.2.fragment < streamer.fragments.reverse.length :=
        (List.getElem?_eq_some_iff.mp found).1
      exact ⟨holder, by rw [getElem?_append_left short, found], label⟩
    · obtain ⟨name, _, rfl⟩ := List.mem_map.mp waiting
      refine ⟨fragment, ?_, start⟩
      rw [getElem?_append_right (by simp), length_reverse, Nat.sub_self]
      rfl

theorem Sound.EmitLabel (symbol : Nat) :
    Sound (streamer.EmitLabel symbol) := by
  unfold MCObjectStreamer.EmitLabel
  split
  · rename_i contents fixups older current
    refine ⟨sound.fragments, fun entry member => ?_⟩
    rcases mem_append.mp member with known | new
    · exact sound.symbols entry known
    · obtain rfl := mem_singleton.mp new
      have formed : WellPlaced contents fixups := by
        have given := sound.fragments (.data contents fixups)
        rw [current] at given
        exact given mem_cons_self
      refine ⟨.data contents fixups, ?_, Nat.le_refl _, fun fixup inside => ?_⟩
      · simp only [current, reverse_cons]
        rw [getElem?_append_right (by simp), length_reverse, Nat.sub_self]
        rfl
      · exact .inr (formed.inside fixup inside).2
  · exact ⟨sound.fragments, sound.symbols⟩

theorem Sound.getOrCreateDataFragment :
    Sound streamer.getOrCreateDataFragment := by
  unfold MCObjectStreamer.getOrCreateDataFragment
  split
  · exact sound
  · refine sound.insert ⟨List.Pairwise.nil, ?_, ?_⟩ ⟨Nat.le_refl _, ?_⟩
    · exact fun _ absent => by cases absent
    · exact fun _ absent => by cases absent
    · exact fun _ absent => by cases absent

theorem Sound.append
    (encoded : fixups = [] ∨ ∃ symbol, code = [0x61, 0, 0] ∧ fixups = [⟨1, symbol⟩]) :
    Sound (streamer.append code fixups) := by
  unfold MCObjectStreamer.append
  split
  · rename_i contents old older current
    have formed : WellPlaced contents old := by
      have given := sound.fragments (.data contents old)
      rw [current] at given
      exact given mem_cons_self
    refine ⟨fun fragment member => ?_, fun symbol member => ?_⟩
    · rcases mem_cons.mp member with rfl | earlier
      · exact formed.append encoded
      · exact sound.fragments fragment (by rw [current]; exact mem_cons_of_mem _ earlier)
    · obtain ⟨holder, found, label⟩ := sound.symbols symbol member
      rw [current, reverse_cons] at found
      simp only [reverse_cons]
      by_cases before : symbol.2.fragment < older.reverse.length
      · rw [getElem?_append_left before] at found ⊢
        exact ⟨holder, found, label⟩
      · rw [getElem?_append_right (by omega)] at found ⊢
        obtain ⟨short, rfl⟩ := List.getElem?_eq_some_iff.mp found
        have last : symbol.2.fragment - older.reverse.length = 0 := by simpa using short
        simp only [last, getElem_cons_zero] at label ⊢
        refine ⟨_, rfl, ?_, fun fixup inside => ?_⟩
        · exact label.1.trans (by rw [length_append]; omega)
        · rcases mem_append.mp inside with earlier | new
          · exact label.2 fixup earlier
          · obtain ⟨added, ofCode, rfl⟩ := List.mem_map.mp new
            have positive : 0 < added.offset := by
              rcases encoded with rfl | ⟨name, _, rfl⟩
              · cases ofCode
              · obtain rfl := mem_singleton.mp ofCode
                exact Nat.one_pos
            have short := label.1
            exact .inl (by simp only; omega)
  · exact sound

theorem emit_sound {directive : Directive} {next : MCObjectStreamer}
    (done : emit directive streamer = some next) : Sound next := by
  cases directive with
  | label symbol =>
      obtain rfl := Option.some.inj done
      exact sound.EmitLabel symbol
  | instruction inst =>
      obtain ⟨encoded, coded, rfl⟩ := map_eq_some_iff.mp done
      exact sound.getOrCreateDataFragment.append (encodeInstruction_fixups coded)
  | bytes data =>
      obtain rfl := Option.some.inj done
      exact sound.getOrCreateDataFragment.append (.inl rfl)
  | valueToAlignment | codeAlignment =>
      obtain rfl := Option.some.inj done
      exact sound.insert trivial rfl

theorem Sound.flushPendingLabels : Sound streamer.flushPendingLabels := by
  unfold MCObjectStreamer.flushPendingLabels
  split
  · exact sound
  · refine sound.insert ⟨List.Pairwise.nil, ?_, ?_⟩ ⟨Nat.le_refl _, ?_⟩
    · exact fun _ absent => by cases absent
    · exact fun _ absent => by cases absent
    · exact fun _ absent => by cases absent

end

end MCObjectStreamer

structure MCSection.Sound (sec : MCSection) : Prop where
  fragments : ∀ fragment ∈ sec.fragments, fragment.WellFormed
  symbols : ∀ symbol ∈ sec.symbols, ∃ fragment,
    sec.fragments[symbol.2.fragment]? = some fragment ∧ fragment.LabelAt symbol.2.offset

theorem streamSection_sound {source : SectionSource} {sec : MCSection}
    (done : streamSection source = some sec) : sec.Sound := by
  obtain ⟨streamer, streamed, rfl⟩ := map_eq_some_iff.mp done
  have start : MCObjectStreamer.Sound .fresh :=
    ⟨(fun _ absent => by cases absent), fun _ absent => by cases absent⟩
  have ended := Runs.run_keeps MCObjectStreamer.Sound
    (fun _ _ _ sound stepped => MCObjectStreamer.emit_sound sound stepped) start streamed
  have sound := ended.flushPendingLabels
  exact ⟨fun fragment member => sound.fragments fragment (mem_reverse.mp member), sound.symbols⟩

/-! ### Through the stages -/

private theorem forall₂_of_mapM {β : Type} {convert : α → Option β} {inputs : List α}
    {outputs : List β} (done : inputs.mapM convert = some outputs) :
    List.Forall₂ (fun input output => convert input = some output) inputs outputs := by
  induction inputs generalizing outputs with
  | nil =>
      cases done
      exact .nil
  | cons input rest ih =>
      rw [mapM_cons] at done
      obtain ⟨first, one, done⟩ := bind_eq_some_iff.mp done
      obtain ⟨later, remaining, same⟩ := bind_eq_some_iff.mp done
      cases same
      exact .cons one (ih remaining)

private theorem forall₂_at {β : Type} {Related : α → β → Prop} {left : List α} {right : List β}
    (related : List.Forall₂ Related left right) {first : α} (found : left[index]? = some first) :
      ∃ second, right[index]? = some second ∧ Related first second := by
  induction related generalizing index with
  | nil => cases found
  | cons head tail ih =>
      cases index with
      | zero =>
          obtain rfl := Option.some.inj found
          exact ⟨_, rfl, head⟩
      | succ index => exact ih found

private theorem forall₂_trans {Related : α → α → Prop} {left middle right : List α}
    (first : List.Forall₂ Related left middle) (second : List.Forall₂ Related middle right)
    (trans : ∀ one two three, Related one two → Related two three → Related one three) :
    List.Forall₂ Related left right := by
  induction first generalizing right with
  | nil =>
      cases second
      exact .nil
  | cons head tail ih =>
      cases second with
      | cons next rest => exact .cons (trans _ _ _ head next) (ih rest)

section Stages

variable {sections filled finished : List MCSection}

theorem length_run_applyFixupValue {evaluate : MCFixup → Nat} {last : List Byte}
    (done : Runs.run (fun fixup => applyFixupValue fixup.offset (evaluate fixup)) fixups contents =
      some last) : last.length = contents.length :=
  Runs.run_keeps (fun bytes : List Byte => bytes.length = contents.length)
    (fun _ _ _ same stepped => (applyFixupValue_spec stepped).2.1.trans same) rfl done

theorem applyFixups_sameShape {fragment next : MCFragment}
    (done : applyFixups sections fragment = some next) : SameShape fragment next := by
  cases fragment with
  | data contents fixups =>
      obtain ⟨last, ran, rfl⟩ := map_eq_some_iff.mp done
      exact .data fixups (length_run_applyFixupValue ran).symm
  | align alignment value valueSize maxBytesToEmit emitNops =>
      cases done
      exact .align _ _ _ _ _

theorem layoutSection_sameSection {sec next : MCSection}
    (done : layoutSection sections sec = some next) : SameSection sec next := by
  obtain ⟨fragments, mapped, rfl⟩ := map_eq_some_iff.mp done
  exact ⟨rfl, (forall₂_of_mapM mapped).imp fun _ _ => applyFixups_sameShape, rfl⟩

theorem filled_data (laid : sections.mapM (layoutSection sections) = some filled)
    (found : (fragmentsAt sections index)[fragment]? = some (.data contents fixups)) :
    ∃ last, (fragmentsAt filled index)[fragment]? = some (.data last fixups) ∧
      Runs.run (fun fixup => applyFixupValue fixup.offset (evaluateFixup sections fixup)) fixups
        contents = some last := by
  unfold fragmentsAt at found ⊢
  cases present : sections[index]? with
  | none =>
      rw [present] at found
      cases found
  | some sec =>
      rw [present] at found
      obtain ⟨next, inFilled, converted⟩ := forall₂_at (forall₂_of_mapM laid) present
      obtain ⟨fragments, mapped, rfl⟩ := map_eq_some_iff.mp converted
      obtain ⟨after, there, applied⟩ := forall₂_at (forall₂_of_mapM mapped) found
      obtain ⟨last, ran, rfl⟩ := map_eq_some_iff.mp applied
      exact ⟨last, by rw [inFilled]; exact there, ran⟩

theorem finish_cases (done : finish filled = some finished) :
    ((symbolTable filled).lookup deploySize = none ∧ finished = filled) ∨
      ∃ index location sec contents fixups patched,
        (symbolTable filled).lookup deploySize = some (index, location) ∧
        filled[index]? = some sec ∧
        sec.fragments[location.fragment]? = some (.data contents fixups) ∧
        applyFixupValue location.offset contents.length contents = some patched ∧
        finished = filled.set index
          { sec with fragments := sec.fragments.set location.fragment (.data patched fixups) } := by
  unfold finish at done
  cases defined : (symbolTable filled).lookup deploySize with
  | none =>
      rw [defined] at done
      simp only at done
      split at done
      · cases done
      · exact .inl ⟨rfl, (Option.some.inj done).symm⟩
  | some place =>
      obtain ⟨index, location⟩ := place
      rw [defined] at done
      obtain ⟨sec, present, done⟩ := bind_eq_some_iff.mp done
      obtain ⟨fragment, found, done⟩ := bind_eq_some_iff.mp done
      obtain ⟨next, patching, same⟩ := bind_eq_some_iff.mp done
      cases fragment with
      | data contents fixups =>
          obtain ⟨patched, filling, rfl⟩ := map_eq_some_iff.mp patching
          exact .inr ⟨index, location, sec, contents, fixups, patched, rfl, present, found, filling,
            (Option.some.inj same).symm⟩
      | align => cases patching

private theorem forall₂_set {Related : α → α → Prop} (refl : ∀ item, Related item item)
    {items : List α} {old new : α} (found : items[index]? = some old) (related : Related old new) :
      List.Forall₂ Related items (items.set index new) := by
  induction items generalizing index with
  | nil => exact .nil
  | cons item rest ih =>
      cases index with
      | zero =>
          obtain rfl := Option.some.inj found
          exact .cons related (forall₂_same.mpr fun other _ => refl other)
      | succ index => exact .cons (refl item) (ih found)

theorem SameSection.refl (sec : MCSection) : SameSection sec sec :=
  ⟨rfl, forall₂_same.mpr fun fragment _ => SameShape.refl fragment, rfl⟩

theorem SameSection.trans {first second third : MCSection} (left : SameSection first second)
    (right : SameSection second third) : SameSection first third :=
  ⟨left.isVirtual.trans right.isVirtual,
    forall₂_trans left.fragments right.fragments fun _ _ _ => SameShape.trans,
    left.symbols.trans right.symbols⟩

theorem finish_sameSection (done : finish filled = some finished) :
    List.Forall₂ SameSection filled finished := by
  rcases finish_cases done with ⟨_, rfl⟩ | ⟨index, location, sec, contents, fixups, patched, _, present,
    found, filling, rfl⟩
  · exact forall₂_same.mpr fun sec _ => SameSection.refl sec
  · refine forall₂_set SameSection.refl present ⟨rfl, ?_, rfl⟩
    exact forall₂_set SameShape.refl found (.data fixups (applyFixupValue_spec filling).2.1.symm)

end Stages

/-! ### Operands in the file -/

/-- A push in a section has a symbol as its operand, and this is where its two
bytes are. -/
def IsLabelOperand (sections : List MCSection) (place : Nat × Location) (symbol : Nat) : Prop :=
  ∃ contents fixups,
    (fragmentsAt sections place.1)[place.2.fragment]? = some (.data contents fixups) ∧
    ⟨place.2.offset, symbol⟩ ∈ fixups

def EmittedAt (sections : List MCSection) (symbol : Nat) (target : Nat × Location) : Prop :=
  (symbolTable sections).lookup symbol = some target ∧
    ∃ sec, sections[target.1]? = some sec ∧ sec.isVirtual = false

def readTwoBytes (file : List Byte) (position : Nat) : Option Nat := do
  let high ← file[position]?
  let low ← file[position + 1]?
  some (high.toNat * 256 + low.toNat)

/-- Every operand that is a symbol holds the position of the symbol in the file. -/
def LabelsResolve (sections : List MCSection) (file : List Byte) : Prop :=
  ∀ place symbol target, IsLabelOperand sections place symbol → EmittedAt sections symbol target →
    readTwoBytes file (filePosition sections place) = some (filePosition sections target)

/-- The size of `deploy.size` is written over the opcode and the high byte. -/
def OverwrittenByDeploySize (sections : List MCSection) (place : Nat × Location) : Prop :=
  (symbolTable sections).lookup deploySize =
    some (place.1, ⟨place.2.fragment, place.2.offset - 1⟩)

instance (sections : List MCSection) (place : Nat × Location) :
    Decidable (OverwrittenByDeploySize sections place) :=
  inferInstanceAs (Decidable (_ = _))

def fragmentSize (sections : List MCSection) (place : Nat × Location) : Nat :=
  ((fragmentsAt sections place.1)[place.2.fragment]?.map (computeFragmentSize 0)).getD 0

theorem mem_symbols_of_lookup {sections : List MCSection} {location : Location}
    (found : (symbolTable sections).lookup symbol = some (index, location)) :
    ∃ sec, sections[index]? = some sec ∧ (symbol, location) ∈ sec.symbols := by
  obtain ⟨front, back, split, _⟩ := lookup_eq_some_iff.mp found
  have member : (symbol, index, location) ∈ symbolTable sections := by
    rw [split]
    exact mem_append_right front mem_cons_self
  obtain ⟨⟨sec, place⟩, listed, inSection⟩ := mem_flatMap.mp member
  obtain ⟨entry, known, same⟩ := List.mem_map.mp inSection
  cases same
  exact ⟨sec, mem_zipIdx_iff_getElem?.mp listed, known⟩

section Operands

variable {sections filled finished : List MCSection} {file : List Byte}

theorem finished_data (ended : finish filled = some finished)
    (found : (fragmentsAt filled index)[fragment]? = some (.data contents fixups)) :
    (∃ offset patched, (symbolTable filled).lookup deploySize = some (index, ⟨fragment, offset⟩) ∧
        applyFixupValue offset contents.length contents = some patched ∧
        (fragmentsAt finished index)[fragment]? = some (.data patched fixups)) ∨
      ((∀ offset, (symbolTable filled).lookup deploySize ≠ some (index, ⟨fragment, offset⟩)) ∧
        (fragmentsAt finished index)[fragment]? = some (.data contents fixups)) := by
  rcases finish_cases ended with ⟨undefined, rfl⟩ | ⟨holder, location, sec, old, oldFixups, patched,
    defined, present, foundThere, patching, rfl⟩
  · refine .inr ⟨fun offset defined => ?_, found⟩
    rw [undefined] at defined
    cases defined
  · have inSection := (List.getElem?_eq_some_iff.mp present).1
    by_cases hit : holder = index ∧ location.fragment = fragment
    · obtain ⟨rfl, rfl⟩ := hit
      unfold fragmentsAt at found
      rw [present, map_some, getD_some, foundThere] at found
      cases found
      refine .inl ⟨location.offset, patched, defined, patching, ?_⟩
      unfold fragmentsAt
      rw [getElem?_set_self inSection]
      exact getElem?_set_self (List.getElem?_eq_some_iff.mp foundThere).1
    · refine .inr ⟨fun offset same => ?_, ?_⟩
      · have places := Option.some.inj (defined.symm.trans same)
        exact hit ⟨congrArg Prod.fst places, congrArg (fun place => place.2.fragment) places⟩
      · unfold fragmentsAt at found ⊢
        by_cases here : holder = index
        · subst here
          have away : location.fragment ≠ fragment := fun same => hit ⟨rfl, same⟩
          rw [present] at found
          rw [getElem?_set_self inSection, map_some, getD_some]
          exact (getElem?_set_ne away).trans found
        · rw [getElem?_set_ne here]
          exact found

theorem operand_section (sound : ∀ sec ∈ sections, sec.Sound)
    (found : (fragmentsAt sections index)[fragment]? = some (.data contents fixups)) :
    WellPlaced contents fixups ∧ ∀ offset,
      (symbolTable sections).lookup deploySize = some (index, ⟨fragment, offset⟩) →
        ∀ fixup ∈ fixups, offset < fixup.offset ∨ fixup.offset + 2 ≤ offset := by
  unfold fragmentsAt at found
  cases present : sections[index]? with
  | none =>
      rw [present] at found
      cases found
  | some sec =>
      rw [present] at found
      have here := sound sec (mem_of_getElem? present)
      refine ⟨here.fragments _ (mem_of_getElem? found), fun offset defined => ?_⟩
      obtain ⟨holder, presentToo, known⟩ := mem_symbols_of_lookup defined
      cases present.symm.trans presentToo
      obtain ⟨fragment, foundToo, label⟩ := here.symbols _ known
      cases foundToo.symm.trans found
      exact label.2

theorem operand_bytes (sound : ∀ sec ∈ sections, sec.Sound)
    (laid : sections.mapM (layoutSection sections) = some filled)
    (ended : finish filled = some finished) (written : writeObject finished = some file)
    {place : Nat × Location} (operand : IsLabelOperand sections place symbol) :
    file[filePosition sections place]? = some (BitVec.ofNat 8
        (if OverwrittenByDeploySize sections place then fragmentSize sections place
          else evaluateFixup sections ⟨place.2.offset, symbol⟩ / 256)) ∧
      file[filePosition sections place + 1]? =
        some (BitVec.ofNat 8 (evaluateFixup sections ⟨place.2.offset, symbol⟩)) := by
  obtain ⟨index, fragment, offset⟩ := place
  obtain ⟨contents, fixups, found, listed⟩ := operand
  simp only at found listed ⊢
  have sameFilled : List.Forall₂ SameSection sections filled :=
    (forall₂_of_mapM laid).imp fun _ _ => layoutSection_sameSection
  have same : List.Forall₂ SameSection sections finished :=
    forall₂_trans sameFilled (finish_sameSection ended) fun _ _ _ => SameSection.trans
  obtain ⟨placed, clear⟩ := operand_section sound found
  obtain ⟨positive, fits⟩ := placed.inside _ listed
  simp only at positive fits
  have size : fragmentSize sections (index, ⟨fragment, offset⟩) = contents.length := by
    unfold fragmentSize
    rw [found]
    rfl
  obtain ⟨last, inFilled, ran⟩ := filled_data laid found
  obtain ⟨sizeFilled, values, _⟩ := run_applyFixupValue placed.spaced ran
  obtain ⟨high, low⟩ := values _ listed
  have bytesAt : ∀ final, (fragmentsAt finished index)[fragment]? = some (.data final fixups) →
      final.length = contents.length →
      file[filePosition sections (index, ⟨fragment, offset⟩)]? = final[offset]? ∧
      file[filePosition sections (index, ⟨fragment, offset⟩) + 1]? = final[offset + 1]? := by
    intro final inFinished finalSize
    have used : fixups ≠ [] := ne_nil_of_mem listed
    have first := writeObject_data written inFinished used (show offset < final.length by omega)
    have second := writeObject_data written inFinished used (show offset + 1 < final.length by omega)
    rw [← filePosition_sameSection same] at first second
    exact ⟨first, second⟩
  have table := symbolTable_sameSection sameFilled
  rcases finished_data ended inFilled with ⟨label, patched, defined, patching, inFinished⟩ |
    ⟨elsewhere, inFinished⟩
  · rw [← table] at defined
    have off : label < offset ∨ offset + 2 ≤ label := clear label defined _ listed
    obtain ⟨_, samePatched, _, lowPatched, outside⟩ := applyFixupValue_spec patching
    obtain ⟨first, second⟩ := bytesAt patched inFinished (samePatched.trans sizeFilled)
    rw [first, second, outside (offset + 1) (by omega), low]
    refine ⟨?_, rfl⟩
    by_cases overwritten : OverwrittenByDeploySize sections (index, ⟨fragment, offset⟩)
    · -- the label is on the opcode, so the low byte of the size is the high byte here
      have next : label + 1 = offset := by
        have places := Option.some.inj (defined.symm.trans overwritten)
        have offsets := congrArg (fun place => place.2.offset) places
        simp only at offsets
        omega
      rw [if_pos overwritten, size, ← next, lowPatched, sizeFilled]
    · rw [if_neg overwritten, outside offset, high]
      by_contra inner
      have before : label = offset - 1 := by omega
      exact overwritten (defined.trans (by rw [before]))
  · have apart : ¬ OverwrittenByDeploySize sections (index, ⟨fragment, offset⟩) := by
      unfold OverwrittenByDeploySize
      rw [table]
      exact elsewhere _
    obtain ⟨first, second⟩ := bytesAt last inFinished sizeFilled
    rw [first, second, high, low, if_neg apart]
    exact ⟨rfl, rfl⟩

theorem evaluateFixup_emitted {offset : Nat} {target : Nat × Location}
    (emitted : EmittedAt sections symbol target) :
    evaluateFixup sections ⟨offset, symbol⟩ = getSymbolOffset sections target := by
  unfold evaluateFixup
  rw [emitted.1]
  rfl

end Operands

/-- What stands before the target's section and what 16 bits cut off are made
up for by padding that is not written. Where `deploy.size` falls on the push,
the high byte comes from the size of the fragment. -/
def TargetReached (sections : List MCSection) (place target : Nat × Location) : Prop :=
  if OverwrittenByDeploySize sections place then
    sectionStart sections target.1 + getSymbolOffset sections target =
      paddingBefore sections target +
        (fragmentSize sections place % 256 * 256 + getSymbolOffset sections target % 256)
  else
    sectionStart sections target.1 + getSymbolOffset sections target / 65536 * 65536 =
      paddingBefore sections target

instance (sections : List MCSection) (place target : Nat × Location) :
    Decidable (TargetReached sections place target) :=
  inferInstanceAs (Decidable (ite _ _ _))

theorem operand_holds_iff {sections filled finished : List MCSection} {file : List Byte}
    (sound : ∀ sec ∈ sections, sec.Sound)
    (laid : sections.mapM (layoutSection sections) = some filled)
    (ended : finish filled = some finished) (written : writeObject finished = some file)
    {place target : Nat × Location} (operand : IsLabelOperand sections place symbol)
    (emitted : EmittedAt sections symbol target) :
    readTwoBytes file (filePosition sections place) = some (filePosition sections target) ↔
      TargetReached sections place target := by
  obtain ⟨high, low⟩ := operand_bytes sound laid ended written operand
  rw [evaluateFixup_emitted emitted] at high low
  have counted := getSymbolOffset_eq sections target
  have read : readTwoBytes file (filePosition sections place) = some
      ((if OverwrittenByDeploySize sections place then fragmentSize sections place
        else getSymbolOffset sections target / 256) % 256 * 256 +
        getSymbolOffset sections target % 256) := by
    unfold readTwoBytes
    rw [high, low]
    simp only [bind_eq_bind, bind_some, BitVec.toNat_ofNat]
  rw [read, Option.some.injEq]
  unfold TargetReached
  by_cases overwritten : OverwrittenByDeploySize sections place
  · rw [if_pos overwritten, if_pos overwritten]
    omega
  · rw [if_neg overwritten, if_neg overwritten]
    omega

/-- Labels resolve to the position of their target exactly where every target
of an operand is reached. -/
theorem labelsResolve_iff_targetsReached {sources : List SectionSource} {sections : List MCSection}
    {file : List Byte} (streamed : sources.mapM streamSection = some sections)
    (assembled : assembleFile sources = some file) :
    LabelsResolve sections file ↔
      ∀ place symbol target, IsLabelOperand sections place symbol →
        EmittedAt sections symbol target → TargetReached sections place target := by
  unfold assembleFile at assembled
  rw [streamed] at assembled
  simp only [bind_eq_bind, bind_some] at assembled
  split at assembled
  · obtain ⟨filled, laid, assembled⟩ := bind_eq_some_iff.mp assembled
    obtain ⟨finished, ended, written⟩ := bind_eq_some_iff.mp assembled
    have sound : ∀ sec ∈ sections, sec.Sound := by
      intro sec member
      obtain ⟨index, present⟩ := getElem?_of_mem member
      obtain ⟨source, _, done⟩ := forall₂_at (forall₂_of_mapM streamed).flip present
      exact streamSection_sound done
    constructor
    · intro resolved place symbol target operand emitted
      exact (operand_holds_iff sound laid ended written operand emitted).mp
        (resolved place symbol target operand emitted)
    · intro reached place symbol target operand emitted
      exact (operand_holds_iff sound laid ended written operand emitted).mpr
        (reached place symbol target operand emitted)
  · cases assembled

def forwardJump : List SectionSource :=
  [⟨false, [.instruction ⟨PUSH2, [.expr 1]⟩, .instruction ⟨.JUMP, []⟩, .instruction ⟨.STOP, []⟩,
    .label 1, .instruction ⟨.JUMPDEST, []⟩]⟩]

theorem forwardJump_resolves :
    ∃ sections, forwardJump.mapM streamSection = some sections ∧
      assembleFile forwardJump = some [0x61, 0x00, 0x05, 0x56, 0x00, 0x5b] ∧
      LabelsResolve sections [0x61, 0x00, 0x05, 0x56, 0x00, 0x5b] := by
  have assembled : assembleFile forwardJump = some [0x61, 0x00, 0x05, 0x56, 0x00, 0x5b] := by decide
  refine ⟨[⟨false, [.data [0x61, 0, 0, 0x56, 0x00, 0x5b] [⟨1, 1⟩]], [(1, ⟨0, 5⟩)]⟩], by decide,
    assembled, ?_⟩
  refine (labelsResolve_iff_targetsReached (by decide) assembled).mpr ?_
  rintro ⟨index, fragment, offset⟩ symbol target ⟨contents, fixups, found, listed⟩ ⟨emitted, _⟩
  match index, fragment, found with
  | 0, 0, found =>
      cases found
      obtain ⟨rfl, rfl⟩ : offset = 1 ∧ symbol = 1 := by simpa using listed
      cases emitted
      decide

def twoSections : List SectionSource :=
  [⟨false, [.instruction ⟨PUSH2, [.expr 1]⟩, .instruction ⟨.JUMP, []⟩]⟩,
    ⟨false, [.label 1, .instruction ⟨.JUMPDEST, []⟩]⟩]

/-- The function is at position 4; the operand is its offset in its section. -/
theorem twoSections_not_resolved :
    ∃ sections, twoSections.mapM streamSection = some sections ∧
      assembleFile twoSections = some [0x61, 0x00, 0x00, 0x56, 0x5b] ∧
      ¬ LabelsResolve sections [0x61, 0x00, 0x00, 0x56, 0x5b] := by
  refine ⟨[⟨false, [.data [0x61, 0, 0, 0x56] [⟨1, 1⟩]], []⟩,
    ⟨false, [.data [0x5b] []], [(1, ⟨0, 0⟩)]⟩], by decide, by decide, fun resolved => ?_⟩
  have held := resolved (0, ⟨0, 1⟩) 1 (1, ⟨0, 0⟩) ⟨_, _, rfl, mem_cons_self⟩ ⟨rfl, _, rfl, rfl⟩
  exact absurd held (by decide)

end EvmBackend
