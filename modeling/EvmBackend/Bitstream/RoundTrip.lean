/-
The round trip. What a client has written item by item, in blocks within blocks,
another client sees as events: the blocks and records that the items say, and for each
block the length that its header gives. It can pass over what it does not want to see.

The items go in order, and from one item to the next both clients know the same code
size, abbreviations and block infos.
-/

import EvmBackend.Bitstream.Skipping

namespace EvmBackend.Bitstream

open BitLists BitstreamCursor List

/-- A record or a block is passed over as it is read: the record with the same code,
the block up to its end. -/
def SkipsAsRead : Entry → BitstreamCursor → Prop
  | .record abbrevID, cursor => ∃ record last skipped, cursor.readRecord abbrevID true = .ok (record, last) ∧
      cursor.skipRecord abbrevID = .ok (record.code, skipped) ∧ SamePlace skipped last
  | .subBlock blockID, cursor => ∃ size entered last skipped, cursor.enterSubBlock blockID = .ok (size, entered) ∧
      (if blockID = Bitc.blockInfoBlockID then ∃ infos, cursor.readBlockInfoBlock = .ok (infos, last)
        else ∃ events places middle, Reads entered events places middle ∧ Advances middle .endBlock last ∧
          last.blockScope = cursor.blockScope) ∧
      cursor.skipBlock = .ok skipped ∧ SamePlace skipped last
  | _, _ => True

def Scope.FewCharacters (abbrevID : Nat) (record : Record) (scope : Scope) : Prop :=
  characters ((scope.abbrevs[abbrevID - Bitc.firstApplicationAbbrev]?).getD []).tail record.vals * 6 < 2 ^ 32

mutual

def Item.FewCharacters (scope : Scope) : Item → Prop
  | .block blockID _ items => FewCharactersIn ⟨scope.inherited blockID, scope.infos⟩ items
  | .blockInfo _ | .define _ => True
  | .record code vals abbrevID =>
      abbrevID = 0 ∨ scope.FewCharacters abbrevID (scope.recordWith abbrevID (some code) vals none)
  | .recordWithBlob abbrevID vals blob =>
    scope.FewCharacters abbrevID (scope.recordWith abbrevID none vals (some blob))
  | .recordWithArray abbrevID vals array =>
    scope.FewCharacters abbrevID (scope.recordWith abbrevID none vals (some array))

def FewCharactersIn (scope : Scope) : List Item → Prop
  | [] => True
  | item :: items => item.FewCharacters scope ∧ FewCharactersIn (item.content scope).2 items

end

instance (abbrevID : Nat) (record : Record) (scope : Scope) :
    Decidable (scope.FewCharacters abbrevID record) := Nat.decLt _ _

structure Kept (writer next : BitstreamWriter) : Prop where
  good : Good next
  out : writer.out.length ≤ next.out.length
  codeSize : next.curCodeSize = writer.curCodeSize
  blockScope : next.blockScope = writer.blockScope
  longer : writer.curAbbrevs.length ≤ next.curAbbrevs.length

def scopeOf (writer : BitstreamWriter) : Scope := ⟨writer.curAbbrevs, writer.blockInfoRecords⟩

structure Scope.Formed (scope : Scope) : Prop where
  abbrevs : ∀ abbv ∈ scope.abbrevs, WellFormed abbv
  infos : ∀ info ∈ scope.infos, ∀ abbv ∈ info.abbrevs, WellFormed abbv

variable {writer middle next last inner filled : BitstreamWriter} {scope : Scope} {blockID : Nat}

theorem Kept.trans (one : Kept writer middle) (two : Kept middle next) : Kept writer next :=
  ⟨two.good, Nat.le_trans one.out two.out, two.codeSize.trans one.codeSize, two.blockScope.trans one.blockScope,
    Nat.le_trans one.longer two.longer⟩

theorem Scope.Formed.inherited (formed : scope.Formed) (blockID : Nat) :
    Scope.Formed ⟨scope.inherited blockID, scope.infos⟩ := by
  refine ⟨?_, formed.infos⟩
  unfold Scope.inherited
  cases found : BlockInfo.getBlockInfo blockID scope.infos with
  | none => exact fun _ none => absurd none not_mem_nil
  | some info =>
      obtain ⟨place, _, there⟩ := Option.bind_eq_some_iff.mp found
      exact formed.infos info (mem_of_getElem? there)

theorem formed_addInfo {infos : List BlockInfo} {definition : Nat × BitCodeAbbrev}
    (proper : WellFormed definition.2)
    (formed : ∀ info ∈ infos, ∀ abbv ∈ info.abbrevs, WellFormed abbv) :
    ∀ info ∈ Scope.addInfo infos definition, ∀ abbv ∈ info.abbrevs, WellFormed abbv := by
  have created : ∀ info ∈ (BlockInfo.getOrCreateBlockInfo definition.1 infos).1, ∀ abbv ∈ info.abbrevs,
      WellFormed abbv := by
    unfold BlockInfo.getOrCreateBlockInfo
    split
    · exact formed
    · intro info member
      rcases mem_append.mp member with old | new
      · exact formed info old
      · rw [mem_singleton.mp new]
        exact fun _ none => absurd none not_mem_nil
  intro info member
  obtain ⟨index, there⟩ := getElem?_of_mem member
  unfold Scope.addInfo BlockInfo.addAbbrev at there
  rw [getElem?_modify] at there
  obtain ⟨old, found, same⟩ := Option.map_eq_some_iff.mp there
  have wellFormed := created old (mem_of_getElem? found)
  split at same
  · rw [← same]
    exact forall_mem_append.mpr ⟨wellFormed, forall_mem_singleton.mpr proper⟩
  · rw [← same]
    exact wellFormed

theorem formed_foldl {definitions : List (Nat × BitCodeAbbrev)} : ∀ {infos : List BlockInfo},
    (∀ definition ∈ definitions, WellFormed definition.2) →
    (∀ info ∈ infos, ∀ abbv ∈ info.abbrevs, WellFormed abbv) →
      ∀ info ∈ definitions.foldl Scope.addInfo infos, ∀ abbv ∈ info.abbrevs, WellFormed abbv := by
  induction definitions with
  | nil => exact fun _ formed => formed
  | cons definition definitions ih =>
      intro infos proper formed
      have both := forall_mem_cons.mp proper
      exact ih both.2 (formed_addInfo both.1 formed)

/-- The client sees what the items between the two writers say. It is where the second
writer is, or would be after definitions that come before the next entry. -/
structure Tells (writer next : BitstreamWriter) (contents : List Content) (few : Prop) : Prop where
  grows : written writer <+: written next
  come : ∀ bits cursor, Covers bits writer next → Follows writer bits cursor → ∃ events places middle last,
    Reads cursor events places middle ∧ Leads middle last ∧ Shows contents events ∧ Follows next bits last ∧
      last.blockScope = cursor.blockScope ∧ (middle = last ∨ writer.curAbbrevs.length < next.curAbbrevs.length) ∧
      ((∀ place ∈ places, SkipsAsRead place.1 place.2) ↔ few)

variable {contents more : List Content} {few fewMore : Prop}

theorem Shows.append {events others : List Event} (one : Shows contents events) (two : Shows more others) :
    Shows (contents ++ more) (events ++ others) := by
  induction one with
  | nil => exact two
  | record _ ih => exact .record ih
  | blockInfo sized _ ih => exact .blockInfo sized ih
  | block sized shown _ _ ih =>
      rw [List.cons_append, List.cons_append, List.append_assoc]
      exact .block sized shown ih

theorem tells_nil (writer : BitstreamWriter) : Tells writer writer [] True := by
  refine ⟨prefix_refl _, ?_⟩
  intro bits cursor _ follows
  exact ⟨[], [], cursor, cursor, .nil, Turns.Leads.refl _, .nil, follows, rfl, .inl rfl,
    fun _ => trivial, fun _ _ none => absurd none not_mem_nil⟩

theorem Tells.append (kept : Kept writer middle) (keptNext : Kept middle next)
    (one : Tells writer middle contents few)
    (two : Tells middle next more fewMore) : Tells writer next (contents ++ more) (few ∧ fewMore) := by
  refine ⟨one.grows.trans two.grows, ?_⟩
  intro bits cursor covers follows
  obtain ⟨events, places, stopped, arrived, reads, leads, shows_, there, scope, defined, skips⟩ :=
    one.come bits cursor (covers.left one.grows two.grows) follows
  obtain ⟨others, further, stoppedNext, arrivedNext, readsNext, leadsNext, showsNext, thereNext, scopeNext,
    definedNext, skipsNext⟩ := two.come bits arrived (covers.right one.grows two.grows) there
  have both : (∀ place ∈ places ++ further, SkipsAsRead place.1 place.2) ↔ few ∧ fewMore := by
    rw [forall_mem_append]
    exact and_congr skips skipsNext
  cases readsNext with
  | nil =>
      refine ⟨events ++ [], places ++ [], stopped, arrivedNext, reads.append .nil,
        Turns.Leads.trans leads leadsNext, shows_.append showsNext,
        thereNext, scopeNext.trans scope, ?_, both⟩
      rcases defined with rfl | grew
      · rcases definedNext with same | grewNext
        · exact .inl same
        · exact .inr (Nat.lt_of_le_of_lt kept.longer grewNext)
      · exact .inr (Nat.lt_of_lt_of_le grew keptNext.longer)
  | step advances seen later =>
      refine ⟨_, _, stoppedNext, arrivedNext, reads.append (leads.reads (.step advances seen later)), leadsNext,
        shows_.append showsNext, thereNext, scopeNext.trans scope, ?_, both⟩
      rcases definedNext with same | grewNext
      · exact .inl same
      · exact .inr (Nat.lt_of_le_of_lt kept.longer grewNext)

theorem define_told {abbv : BitCodeAbbrev} (proper : ProperAbbrev abbv) (good : Good writer)
    (emitted : writer.emitAbbrev abbv = some next) :
    Kept writer next ∧ scopeOf next = { scopeOf writer with abbrevs := writer.curAbbrevs ++ [abbv] } ∧
      Tells writer next [] True := by
  obtain ⟨goodNext, state, grows, come⟩ := emitAbbrev_follows proper good emitted
  have abbrevs : next.curAbbrevs = writer.curAbbrevs ++ [abbv] := congrArg BitstreamWriter.curAbbrevs state
  have longer : writer.curAbbrevs.length < next.curAbbrevs.length := by
    rw [abbrevs, length_append, length_singleton]
    exact Nat.lt_succ_self _
  refine ⟨⟨goodNext, out_of_grown good goodNext grows, by rw [state], by rw [state], Nat.le_of_lt longer⟩,
    ?_, ⟨grows, ?_⟩⟩
  · unfold scopeOf
    rw [state]
  · intro bits cursor covers follows
    obtain ⟨last, leads, there, scope⟩ := come bits cursor covers follows
    exact ⟨[], [], cursor, last, .nil, leads, .nil, there, scope, .inr longer,
      fun _ => trivial, fun _ _ none => absurd none not_mem_nil⟩

variable {abbrevID : Nat} {vals : List Nat}

theorem record_told {record : Record} {coded : BitstreamWriter} (good : Good writer)
    (formed : ∀ abbv ∈ writer.curAbbrevs, WellFormed abbv)
    (numbered : writer.emitCode abbrevID = some coded) (isRecord : Bitc.unabbrevRecord ≤ abbrevID)
    {reads : Reading Record} (carries : Carries reads record coded next)
    (chosen : ∀ cursor : BitstreamCursor, cursor.curAbbrevs = writer.curAbbrevs →
      cursor.readRecord abbrevID true = onStream reads cursor)
    (counted : few ↔ abbrevID = Bitc.unabbrevRecord ∨ (scopeOf writer).FewCharacters abbrevID record) :
    Kept writer next ∧ scopeOf next = scopeOf writer ∧ Tells writer next [.record record] few := by
  obtain ⟨goodNext, same, grows, come⟩ := record_follows good numbered isRecord carries chosen
  refine ⟨⟨goodNext, out_of_grown good goodNext grows, by rw [same], by rw [same], by rw [same]⟩, ?_, ⟨grows, ?_⟩⟩
  · unfold scopeOf
    rw [same]
  · intro bits cursor covers follows
    obtain ⟨stopped, last, advances, here, read, there, scope, known⟩ := come bits cursor covers follows
    have wellFormed : ∀ abbv ∈ stopped.curAbbrevs, WellFormed abbv := by
      rw [known]
      exact formed
    obtain ⟨skipped, passed, few_⟩ := skipRecord_of_readRecord here wellFormed read
    have seen : eventOf (.record abbrevID) stopped = some (.record record, last) := by
      simp only [eventOf, read]
    refine ⟨[.record record], _, last, last, .step advances seen .nil, Turns.Leads.refl _, .record .nil,
      there, scope, .inl rfl, ?_⟩
    have numbers : numCharacters abbrevID stopped record * 6 < 2 ^ 32 ↔ few := by
      rw [counted]
      unfold numCharacters Scope.FewCharacters
      rw [known]
      split
      · rename_i unabbreviated
        exact ⟨fun _ => .inl unabbreviated, fun _ => by decide⟩
      · rename_i abbreviated
        exact ⟨.inr, fun either => either.resolve_left abbreviated⟩
    rw [forall_mem_singleton, ← numbers, ← few_]
    constructor
    · rintro ⟨other, lastOther, skippedOther, readOther, passedOther, same⟩
      rw [read] at readOther
      cases readOther
      rw [passed] at passedOther
      cases passedOther
      exact same
    · intro same
      exact ⟨record, last, skipped, read, passed, same⟩

theorem abbreviated_told {code : Option Nat} {bytes : Option (List UInt8)} (good : Good writer)
    (formed : (scopeOf writer).Formed) (proper : ProperVals vals)
    (codeSmall : ∀ given ∈ code, given < 2 ^ 32) (limited : ∀ blob ∈ bytes, ProperBytes blob)
    (blobs : bytes ≠ none → ShortBlob ((scopeOf writer).recordWith abbrevID code vals bytes))
    (emitted : writer.emitRecordWithAbbrevImpl abbrevID vals bytes code = some next) :
    Kept writer next ∧ scopeOf next = scopeOf writer ∧
      Tells writer next [.record ((scopeOf writer).recordWith abbrevID code vals bytes)]
        ((scopeOf writer).FewCharacters abbrevID ((scopeOf writer).recordWith abbrevID code vals bytes)) := by
  obtain ⟨abbv, coded, application, found, numbered, carries⟩ :=
    carries_abbreviated formed.abbrevs proper codeSmall limited good emitted
  have record : (scopeOf writer).recordWith abbrevID code vals bytes = keptRecord abbv code vals bytes := by
    unfold Scope.recordWith scopeOf
    rw [found]
    rfl
  rw [record] at blobs ⊢
  unfold Bitc.firstApplicationAbbrev at application
  refine record_told good formed.abbrevs numbered (by unfold Bitc.unabbrevRecord; omega) (carries blobs)
    (fun cursor same => ?_) ?_
  · exact readRecord_abbreviated application (by rw [same]; exact found)
  · exact ⟨.inr, fun either => either.resolve_left (by unfold Bitc.unabbrevRecord; omega)⟩

theorem blockInfo_told {definitions : List (Nat × BitCodeAbbrev)}
    (proper : ∀ definition ∈ definitions, definition.1 < 2 ^ 32 ∧ ProperAbbrev definition.2)
    (known : ∀ definition ∈ definitions.head?, definition.1 ≠ 2 ^ 32 - 1) (good : Good writer)
    (ran : Runs.run BitstreamWriter.apply (Item.blockInfo definitions).operations writer = some next) :
    Kept writer next ∧ scopeOf next = { scopeOf writer with infos := definitions.foldl Scope.addInfo [] } ∧
      (next.out.length < 2 ^ 32 → Tells writer next [.blockInfo] True) := by
  obtain ⟨goodNext, out, state, come⟩ := blockInfo_read proper known good ran
  refine ⟨⟨goodNext, out, by rw [state], by rw [state], by rw [state]⟩, ?_, fun short => ⟨(come short).1, ?_⟩⟩
  · unfold scopeOf
    rw [state]
  · intro bits cursor covers follows
    obtain ⟨size, stopped, entered, done, advances, enters, read, sized, there, scope, skipped, skips, same⟩ :=
      (come short).2 bits cursor covers follows
    have seen : eventOf (.subBlock Bitc.blockInfoBlockID) stopped = some
        (.blockInfo size entered.stream.getCurrentBitNo done.stream.getCurrentBitNo,
          done.setBlockInfo next.blockInfoRecords) := by
      simp only [eventOf, enters, read, if_true]
    refine ⟨_, _, _, _, .step advances seen .nil, Turns.Leads.refl _, .blockInfo sized .nil, there, scope,
      .inl rfl,
      fun _ => trivial, fun _ => ?_⟩
    rw [forall_mem_singleton]
    refine ⟨size, entered, done, skipped, enters, ?_, skips, same⟩
    rw [if_pos rfl]
    exact ⟨_, read⟩

theorem block_told {codeLen : Nat} {headed : BitstreamWriter} (positive : blockID ≠ Bitc.blockInfoBlockID)
    (good : Good writer)
    (opened : Opened blockID codeLen writer headed inner) (kept : Kept inner filled)
    (tells : filled.out.length < 2 ^ 32 → Tells inner filled contents few)
    (exit : filled.exitBlock = some next) :
    Kept writer next ∧ scopeOf next = { scopeOf writer with infos := filled.blockInfoRecords } ∧
      (next.out.length < 2 ^ 32 → Tells writer next [.block blockID contents] few) := by
  have innerSize : inner.curCodeSize = codeLen := by rw [opened.state]
  obtain ⟨goodNext, out, longer, state⟩ := opened.kept good kept.good kept.out kept.blockScope exit
  refine ⟨⟨goodNext, out, by rw [state], by rw [state], by rw [state]⟩, ?_, fun short => ?_⟩
  · unfold scopeOf
    rw [state]
  have tells := tells (Nat.lt_of_le_of_lt longer short)
  obtain ⟨size, around⟩ :=
    opened.around kept.good tells.grows kept.blockScope (kept.codeSize.trans innerSize) exit short
  refine ⟨around.grows, ?_⟩
  intro bits cursor covers follows
  obtain ⟨stream, inside, skipped, advances, enters, entered, here, items, skips, skippedHere, ends⟩ :=
    around.come bits cursor covers follows
  have insideFollows : Follows inner bits inside := by
    refine ⟨here, entered.codeSize.trans innerSize.symm, ?_, ?_⟩
    · rw [entered.abbrevs, opened.state]
      exact congrArg (fun infos => (BlockInfo.getBlockInfo blockID infos).elim [] BlockInfo.abbrevs) follows.infos
    · rw [entered.infos, opened.state]
      exact follows.infos
  obtain ⟨events, places, stopped, arrived, reads, leads, shows_, there, scope, _, few_⟩ :=
    tells.come bits inside items insideFollows
  obtain ⟨done, doneHere, ends⟩ :=
    ends arrived there.here (there.codeSize.trans (kept.codeSize.trans innerSize)) scope
  obtain ⟨outer, isOuter⟩ : ∃ outer : BitstreamCursor, outer = { arrived with
    stream := done, curCodeSize := cursor.curCodeSize, curAbbrevs := cursor.curAbbrevs,
    blockScope := cursor.blockScope } :=
      ⟨_, rfl⟩
  have stops : Advances stopped .endBlock outer := by
    rw [isOuter]
    exact Turns.Leads.ends leads (ends false)
  have seen : eventOf (.subBlock blockID) { cursor with stream := stream } =
      some (.enterBlock blockID size inside.stream.getCurrentBitNo, inside) := by
    simp only [eventOf, enters, positive, if_false]
  have sized : done.getCurrentBitNo = inside.stream.getCurrentBitNo + 32 * size := by
    rw [doneHere.bitNo, here.bitNo, around.finish]
  have followsNext : Follows next bits outer := by
    rw [isOuter]
    rw [state] at doneHere ⊢
    exact ⟨doneHere, follows.codeSize, follows.abbrevs, there.infos⟩
  have ended : eventOf .endBlock outer = some (.exitBlock done.getCurrentBitNo, outer) := by
    rw [isOuter]
    rfl
  have outerScope : outer.blockScope = cursor.blockScope := by rw [isOuter]
  refine ⟨.enterBlock blockID size inside.stream.getCurrentBitNo :: (events ++ [.exitBlock done.getCurrentBitNo]),
    _, outer, outer, .step advances seen (reads.append (.step stops ended .nil)), Turns.Leads.refl _,
      .block sized shows_ .nil,
    followsNext, outerScope, .inl rfl, ?_⟩
  rw [forall_mem_cons, forall_mem_append, forall_mem_singleton]
  have own : SkipsAsRead (.subBlock blockID) { cursor with stream := stream } := by
    refine ⟨size, inside, outer, { cursor with stream := skipped }, enters, ?_, skips, ?_⟩
    · rw [if_neg positive]
      exact ⟨events, places, stopped, reads, stops, outerScope⟩
    · rw [isOuter]
      refine ⟨?_, rfl, rfl, rfl⟩
      change skipped.getCurrentBitNo = done.getCurrentBitNo
      rw [skippedHere.bitNo, doneHere.bitNo]
  exact ⟨fun all => few_.mp all.2.1, fun few => ⟨own, few_.mpr few, trivial⟩⟩

/-! ### All items -/

structure Told (writer next : BitstreamWriter) (contents : List Content) (scope : Scope) (few : Prop) : Prop where
  kept : Kept writer next
  left : scopeOf next = scope
  formed : scope.Formed
  tells : next.out.length < 2 ^ 32 → Tells writer next contents few

theorem told_record {record : Record} (formed : (scopeOf writer).Formed)
    (told : Kept writer next ∧ scopeOf next = scopeOf writer ∧ Tells writer next [.record record] few) :
    Told writer next [.record record] (scopeOf writer) few :=
  ⟨told.1, told.2.1, formed, fun _ => told.2.2⟩

theorem record_item_told {code : Nat} (codeSmall : code < 2 ^ 32) (proper : ProperVals vals)
    (good : Good writer) (formed : (scopeOf writer).Formed)
    (emitted : writer.emitRecord code vals abbrevID = some next) :
    Told writer next ((Item.record code vals abbrevID).content (scopeOf writer)).1.toList (scopeOf writer)
      ((Item.record code vals abbrevID).FewCharacters (scopeOf writer)) := by
  by_cases unabbreviated : abbrevID = 0
  · subst unabbreviated
    obtain ⟨coded, numbered, carries⟩ := carries_unabbreviated codeSmall proper good emitted
    exact told_record formed (record_told good formed.abbrevs numbered (Nat.le_refl _) carries
      (fun cursor _ => readRecord_unabbreviated true cursor) ⟨fun _ => .inl rfl, fun _ => .inl rfl⟩)
  · unfold BitstreamWriter.emitRecord at emitted
    rw [if_neg unabbreviated] at emitted
    have small : ∀ given ∈ some code, given < 2 ^ 32 := fun given same => Option.some.inj same ▸ codeSmall
    obtain ⟨kept, scope, tells⟩ := abbreviated_told good formed proper small (fun _ none => by cases none)
      (fun absent => absurd rfl absent) emitted
    have few : (Item.record code vals abbrevID).FewCharacters (scopeOf writer) ↔
        (scopeOf writer).FewCharacters abbrevID ((scopeOf writer).recordWith abbrevID (some code) vals none) :=
      ⟨fun either => either.resolve_left unabbreviated, .inr⟩
    rw [propext few, Item.content, if_neg unabbreviated]
    exact told_record formed ⟨kept, scope, tells⟩

theorem bytes_item_told {bytes : List UInt8} (proper : ProperVals vals)
    (limited : ProperBytes bytes)
    (short : ShortBlob ((scopeOf writer).recordWith abbrevID none vals (some bytes)))
    (good : Good writer) (formed : (scopeOf writer).Formed)
    (emitted : writer.emitRecordWithAbbrevImpl abbrevID vals (some bytes) none = some next) :
    Told writer next [.record ((scopeOf writer).recordWith abbrevID none vals (some bytes))] (scopeOf writer)
      ((scopeOf writer).FewCharacters abbrevID
      ((scopeOf writer).recordWith abbrevID none vals (some bytes))) := by
  refine told_record formed
    (abbreviated_told good formed proper (fun _ none => by cases none) ?_ (fun _ => short) emitted)
  exact fun given same => Option.some.inj same ▸ limited

mutual

theorem item_told : ∀ (item : Item) {writer next : BitstreamWriter}, item.Proper →
    item.Readable (scopeOf writer) →
    Good writer → (scopeOf writer).Formed → Runs.run BitstreamWriter.apply item.operations writer = some next →
      Told writer next (item.content (scopeOf writer)).1.toList (item.content (scopeOf writer)).2
        (item.FewCharacters (scopeOf writer))
  | .define abbv, writer, next, proper, _, good, formed, ran => by
      obtain ⟨_, emitted, done⟩ := Runs.run_cons_eq_some _ ran
      cases done
      obtain ⟨kept, scope, tells⟩ := define_told proper good emitted
      refine ⟨kept, scope, ⟨?_, formed.infos⟩, fun _ => tells⟩
      exact forall_mem_append.mpr ⟨formed.abbrevs, forall_mem_singleton.mpr proper.2⟩
  | .record code vals abbrevID, writer, next, proper, _, good, formed, ran => by
      obtain ⟨_, emitted, done⟩ := Runs.run_cons_eq_some _ ran
      cases done
      exact record_item_told proper.1 proper.2.1 good formed emitted
  | .recordWithBlob abbrevID vals blob, writer, next, proper, readable, good, formed, ran => by
      obtain ⟨_, emitted, done⟩ := Runs.run_cons_eq_some _ ran
      cases done
      exact bytes_item_told proper.1 proper.2.2 readable good formed emitted
  | .recordWithArray abbrevID vals array, writer, next, proper, readable, good, formed, ran => by
      obtain ⟨_, emitted, done⟩ := Runs.run_cons_eq_some _ ran
      cases done
      exact bytes_item_told proper.1 proper.2.2 readable good formed emitted
  | .blockInfo definitions, writer, next, proper, readable, good, formed, ran => by
      obtain ⟨kept, scope, tells⟩ := blockInfo_told proper readable good ran
      refine ⟨kept, scope, ⟨formed.abbrevs, ?_⟩, tells⟩
      exact formed_foldl (fun definition member => (proper definition member).2.2) fun _ none =>
        absurd none not_mem_nil
  | .block blockID codeLen items, writer, next, proper, readable, good, formed, ran => by
      obtain ⟨inner, entered, rest⟩ := Runs.run_cons_eq_some _ ran
      rw [Runs.run_append] at rest
      obtain ⟨filled, ran, rest⟩ := Option.bind_eq_some_iff.mp rest
      obtain ⟨_, exit, done⟩ := Runs.run_cons_eq_some _ rest
      cases done
      obtain ⟨headed, opened⟩ := enterSubblock_opened proper.2.1 proper.2.2.1 good entered
      have scope : scopeOf inner = ⟨(scopeOf writer).inherited blockID, (scopeOf writer).infos⟩ := by
        rw [opened.state]
        rfl
      have told := items_told items proper.2.2.2 (scope ▸ readable) opened.good
        (scope ▸ formed.inherited blockID) ran
      rw [scope] at told
      obtain ⟨kept, scopeNext, tells⟩ := block_told proper.1 good opened told.kept told.tells exit
      have infos : filled.blockInfoRecords =
          (contentsOf ⟨(scopeOf writer).inherited blockID, (scopeOf writer).infos⟩ items).2.infos :=
        congrArg Scope.infos told.left
      refine ⟨kept, ?_, ⟨formed.abbrevs, told.formed.infos⟩, tells⟩
      rw [scopeNext, infos]
      rfl

theorem items_told : ∀ (items : List Item) {writer next : BitstreamWriter}, ProperItems items →
    ReadableIn (scopeOf writer) items → Good writer → (scopeOf writer).Formed →
      Runs.run BitstreamWriter.apply (operationsOf items) writer = some next →
      Told writer next (contentsOf (scopeOf writer) items).1 (contentsOf (scopeOf writer) items).2
        (FewCharactersIn (scopeOf writer) items)
  | [], writer, next, _, _, good, formed, ran => by
      cases ran
      exact ⟨⟨good, Nat.le_refl _, rfl, rfl, Nat.le_refl _⟩, rfl, formed, fun _ => tells_nil writer⟩
  | item :: items, writer, next, proper, readable, good, formed, ran => by
      rw [operationsOf, Runs.run_append] at ran
      obtain ⟨middle, first, rest⟩ := Option.bind_eq_some_iff.mp ran
      have one := item_told item proper.1 readable.1 good formed first
      have two := items_told items proper.2 (one.left ▸ readable.2) one.kept.good (one.left ▸ one.formed) rest
      rw [one.left] at two
      refine ⟨one.kept.trans two.kept, two.left, two.formed, fun short => ?_⟩
      exact (one.tells (Nat.lt_of_le_of_lt two.kept.out short)).append one.kept two.kept (two.tells short)

end

theorem stream_told {items : List Item} (proper : ProperItems items) (readable : ReadableIn ⟨[], []⟩ items)
    (ran : Runs.run BitstreamWriter.apply (operationsOf items) BitstreamWriter.create = some last)
    (closed : last.isClosed = true) (short : last.out.length < 2 ^ 32) :
    ∃ events places finish, Reads (BitstreamCursor.create last.out) events places finish ∧
      finish.stream.atEndOfStream = true ∧ Shows (contentsOf ⟨[], []⟩ items).1 events ∧
      ((∀ place ∈ places, SkipsAsRead place.1 place.2) ↔ FewCharactersIn ⟨[], []⟩ items) := by
  have good : Good BitstreamWriter.create := ⟨by decide, by decide, by decide⟩
  have start : ReadableIn (scopeOf BitstreamWriter.create) items := readable
  have told := items_told items proper start good ⟨nofun, nofun⟩ ran
  unfold BitstreamWriter.isClosed at closed
  simp only [Bool.and_eq_true, beq_iff_eq, List.isEmpty_iff] at closed
  obtain ⟨⟨flushed, _⟩, abbrevs⟩ := closed
  have tells := told.tells short
  have empty : bitsOf 0 last.curValue = [] := rfl
  have whole : written last = bytesBits last.out := by rw [written, flushed, empty, append_nil]
  have covers : Covers (bytesBits last.out) BitstreamWriter.create last :=
    ⟨bytesBits last.out, whole, [], [], by rw [append_nil]; rfl, rfl⟩
  have start : Follows BitstreamWriter.create (bytesBits last.out) (BitstreamCursor.create last.out) := by
    refine ⟨⟨rfl, told.kept.good.words, Nat.zero_le _, .inl rfl, Nat.zero_lt_succ 63, rfl,
      fun some_ => absurd rfl some_⟩,
      rfl, rfl, rfl⟩
  obtain ⟨events, places, stopped, arrived, reads, _, shows_, there, _, defined, skips⟩ :=
    tells.come _ (BitstreamCursor.create last.out) covers start
  have same : stopped = arrived := by
    refine defined.resolve_right fun grew => ?_
    rw [abbrevs] at grew
    exact Nat.not_lt_zero _ grew
  refine ⟨events, places, stopped, reads, ?_, shows_, skips⟩
  rw [same, there.here.atEnd, decide_eq_true_iff, whole]

/-- What one client writes the other reads: the same blocks and records in the same
order, and every header gives the length of its block. -/
theorem items_are_read {items : List Item} (proper : ProperItems items) (readable : ReadableIn ⟨[], []⟩ items)
    (ran : Runs.run BitstreamWriter.apply (operationsOf items) BitstreamWriter.create = some last)
    (closed : last.isClosed = true) (short : last.out.length < 2 ^ 32) :
    ∃ events, (∀ fuel, events.length < fuel → readEvents fuel (BitstreamCursor.create last.out) = some events) ∧
      Shows (contentsOf ⟨[], []⟩ items).1 events := by
  obtain ⟨events, places, finish, reads, atEnd, shows_, _⟩ := stream_told proper readable ran closed short
  exact ⟨events, reads.readEvents atEnd, shows_⟩

/-- A block with records in it and in a block inside, and abbreviations from everywhere. -/
def sample : List Item :=
  [.blockInfo [(9, [.literal 5, .vbr 6, .blob]), (8, [.fixed 4, .array, .char6]), (9, [.literal 1, .fixed 8])],
    .block 8 4 [.record 2 [97, 98, 46] 4, .block 9 3 [.recordWithBlob 4 [5, 70] [1, 2, 3], .record 1 [200] 5],
      .define [.literal 7, .array, .vbr 6], .record 7 [1, 100] 5]]

theorem sample_proper : ProperItems sample := by
  simp only [sample, ProperItems, Item.Proper]
  decide +kernel

theorem sample_readable : ReadableIn ⟨[], []⟩ sample := by
  simp only [sample, ReadableIn, Item.Readable]
  decide +kernel

def sampleWriter : BitstreamWriter where
  out := [1, 8, 0, 0, 5, 0, 0, 0, 7, 65, 226, 88, 64, 70, 15, 2, 196, 33, 196, 240, 32, 72, 20, 3, 4, 1,
    0, 0, 33, 16, 0,
    0, 8, 0, 0, 0, 36, 3, 16, 248, 145, 48, 0, 0, 3, 0, 0, 0, 52, 133, 1, 0, 1, 2, 3, 0, 69, 6, 0, 0, 50,
      30, 24, 153, 18,
    2, 114, 0]
  curBit := 0
  curValue := 0
  curCodeSize := 2
  blockInfoCurBID := 9
  curAbbrevs := []
  blockScope := []
  blockInfoRecords :=
    [⟨9, [[.literal 5, .vbr 6, .blob], [.literal 1, .fixed 8]]⟩, ⟨8, [[.fixed 4, .array, .char6]]⟩]

theorem items_are_read_from_sample :
    ∃ events, (∀ fuel, events.length < fuel → readEvents fuel (BitstreamCursor.create sampleWriter.out) =
      some events) ∧
      Shows (contentsOf ⟨[], []⟩ sample).1 events :=
  items_are_read sample_proper sample_readable (by decide +kernel) (by decide +kernel) (by decide +kernel)

end EvmBackend.Bitstream
