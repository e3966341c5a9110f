/-
Records passed over. The length of an array of numbers of one width is worked out from
the number of its elements, and so is that of a blob; everything else is read.

Where a record can be read, it can be passed over, and the cursor comes to the same
place but for an array of characters whose bits are too many for a number of 32 bits.
-/

import EvmBackend.Bitstream.Infos

namespace EvmBackend

open Bitstream

namespace BitstreamCursor

def skipVBRs (width : Nat) : Nat → SimpleBitstreamCursor → Except BitstreamError SimpleBitstreamCursor
  | 0, stream => .ok stream
  | count + 1, stream => do
      let (_, next) ← stream.readVBR64 width
      skipVBRs width count next

/-- The number of bits of characters is a product of numbers of 32 bits, that of numbers
of one width is not. -/
def skipElements (numElts : Nat) (eltEnc : BitCodeAbbrevOp) (stream : SimpleBitstreamCursor) :
    Except BitstreamError SimpleBitstreamCursor :=
  match eltEnc with
  | .literal _ => .error .assertionFailed
  | .array | .blob => .error .arrayElementArrayOrBlob
  | .fixed width => stream.jumpToBit (stream.getCurrentBitNo + numElts * width)
  | .vbr width => skipVBRs width numElts stream
  | .char6 => stream.jumpToBit (stream.getCurrentBitNo + numElts * 6 % 2 ^ 32)

def skipBlob (stream : SimpleBitstreamCursor) : Except BitstreamError (Bool × SimpleBitstreamCursor) := do
  let (numElts, sized) ← stream.readVBR 6
  let aligned := sized.skipToFourByteBoundary
  let newEnd := aligned.getCurrentBitNo + (numElts + 3) % 2 ^ 32 / 4 * 4 * 8 % 2 ^ 32
  if aligned.canSkipToPos (newEnd / 8) then do
    let next ← aligned.jumpToBit newEnd
    .ok (true, next)
  else .ok (false, aligned.skipToEnd)

def skipOperands : List BitCodeAbbrevOp → SimpleBitstreamCursor → Except BitstreamError SimpleBitstreamCursor
  | [], stream => .ok stream
  | .literal _ :: ops, stream => skipOperands ops stream
  | .array :: ops, stream => do
      let (numElts, sized) ← stream.readVBR 6
      match ops with
      | [eltEnc] => skipElements numElts eltEnc sized
      | _ => .error .assertionFailed
  | .blob :: ops, stream => do
      let (within, next) ← skipBlob stream
      if within then skipOperands ops next else .ok next
  | op :: ops, stream => do
      let (_, next) ← readAbbreviatedField op stream
      skipOperands ops next

def skipUnabbreviated (stream : SimpleBitstreamCursor) : Except BitstreamError (Nat × SimpleBitstreamCursor) := do
  let (code, coded) ← stream.readVBR 6
  let (numElts, counted) ← coded.readVBR 6
  let done ← skipVBRs 6 numElts counted
  .ok (code, done)

def skipAbbreviated (abbv : BitCodeAbbrev) (stream : SimpleBitstreamCursor) :
    Except BitstreamError (Nat × SimpleBitstreamCursor) :=
  match abbv with
  | [] => .error .assertionFailed
  | op :: ops => do
      let (code, coded) ← readRecordCode op stream
      let done ← skipOperands ops coded
      .ok (code, done)

def skipRecord (abbrevID : Nat) (cursor : BitstreamCursor) : Except BitstreamError (Nat × BitstreamCursor) :=
  if abbrevID = Bitc.unabbrevRecord then onStream skipUnabbreviated cursor
  else do
    let abbv ← getAbbrev abbrevID cursor
    onStream (skipAbbreviated abbv) cursor

end BitstreamCursor

namespace Bitstream

open BitLists BitstreamCursor

variable {bits : List Bool} {place : Nat} {stream next done : SimpleBitstreamCursor} {op eltEnc : BitCodeAbbrevOp}
  {ops : List BitCodeAbbrevOp}

theorem of_bind_ok {Result Other : Type} {first : Except BitstreamError Result}
    {second : Result → Except BitstreamError Other} {value : Other} (done : (first >>= second) = .ok value) :
    ∃ middle, first = .ok middle ∧ second middle = .ok value := by
  cases first with
  | error problem => cases done
  | ok middle => exact ⟨middle, rfl, done⟩

theorem read_within {numBits word : Nat} (here : At stream bits place)
    (read : stream.read numBits = .ok (word, next)) :
    0 < numBits ∧ numBits ≤ 64 ∧ place + numBits ≤ bits.length := by
  have same := here.spot
  have length := here.length
  have inside := here.inside
  unfold SimpleBitstreamCursor.read at read
  split at read
  · cases read
  rename_i asserted
  refine ⟨by omega, by omega, ?_⟩
  split at read
  · omega
  · cases filled : stream.fillCurWord with
    | error problem =>
        rw [filled] at read
        cases read
    | ok full =>
        rw [filled] at read
        simp only [bind, Except.bind] at read
        split at read
        · cases read
        · rename_i enough
          unfold SimpleBitstreamCursor.fillCurWord at filled
          split at filled
          · cases filled
          · cases filled
            simp only [List.length_take, List.length_drop] at enough
            omega

theorem read_there {numBits word : Nat} (here : At stream bits place)
    (read : stream.read numBits = .ok (word, next)) :
    At next bits (place + numBits) := by
  obtain ⟨positive, bounded, within⟩ := read_within here read
  obtain ⟨other, same, there⟩ := read_at here positive bounded within
  rw [same] at read
  cases read
  exact there

theorem readVBRLoop_there {width numBits : Nat} : ∀ {fuel result nextBit piece place value : Nat}
    {stream next : SimpleBitstreamCursor}, At stream bits place →
      SimpleBitstreamCursor.readVBRLoop width numBits fuel result nextBit piece stream = .ok (value, next) →
        ∃ finish, At next bits finish
  | 0, _, _, _, _, _, _, _, _, read => by cases read
  | fuel + 1, result, nextBit, piece, place, value, stream, next, here, read => by
      rw [SimpleBitstreamCursor.readVBRLoop] at read
      simp only at read
      split at read
      · cases read
        exact ⟨place, here⟩
      · obtain ⟨pair, first, rest⟩ := of_bind_ok read
        exact readVBRLoop_there (read_there here first) rest

theorem readVBRWith_there {width numBits value : Nat} (here : At stream bits place)
    (read : SimpleBitstreamCursor.readVBRWith width numBits stream = .ok (value, next)) :
      ∃ finish, At next bits finish := by
  obtain ⟨pair, first, rest⟩ := of_bind_ok read
  have there := read_there here first
  simp only at rest
  split at rest
  · cases rest
    exact ⟨_, there⟩
  · exact readVBRLoop_there there rest

theorem readField_there {value : Nat} (here : At stream bits place)
    (read : readAbbreviatedField op stream = .ok (value, next)) : ∃ finish, At next bits finish := by
  cases op with
  | fixed width => exact ⟨_, read_there here read⟩
  | vbr width => exact readVBRWith_there here read
  | char6 =>
      obtain ⟨pair, first, rest⟩ := of_bind_ok read
      cases rest
      exact ⟨_, read_there here first⟩
  | literal | array | blob => cases read

theorem readFields_there {width : Nat}
    (each : ∀ {place value : Nat} {stream next : SimpleBitstreamCursor}, At stream bits place →
    readAbbreviatedField op stream = .ok (value, next) → At next bits (place + width)) :
    ∀ {count place : Nat} {vals : List Nat} {stream next : SimpleBitstreamCursor}, At stream bits place →
      readAbbreviatedFields op count stream = .ok (vals, next) → At next bits (place + count * width)
  | 0, place, vals, stream, next, here, read => by
      cases read
      rw [Nat.zero_mul, Nat.add_zero]
      exact here
  | count + 1, place, vals, stream, next, here, read => by
      obtain ⟨first, one, rest⟩ := of_bind_ok read
      obtain ⟨others, more, done⟩ := of_bind_ok rest
      cases done
      have there := readFields_there each (each here one) more
      rw [Nat.succ_mul, Nat.add_comm (count * width), ← Nat.add_assoc]
      exact there

theorem length_readFields : ∀ {count : Nat} {vals : List Nat} {stream next : SimpleBitstreamCursor},
    readAbbreviatedFields op count stream = .ok (vals, next) → vals.length = count
  | 0, vals, stream, next, read => by
      cases read
      rfl
  | count + 1, vals, stream, next, read => by
      obtain ⟨first, _, rest⟩ := of_bind_ok read
      obtain ⟨others, more, done⟩ := of_bind_ok rest
      cases done
      rw [List.length_cons, length_readFields more]

theorem skipVBRs_of_read {width : Nat} : ∀ {count : Nat} {vals : List Nat} {stream next : SimpleBitstreamCursor},
    readAbbreviatedFields (.vbr width) count stream = .ok (vals, next) → skipVBRs width count stream = .ok next
  | 0, vals, stream, next, read => by
      cases read
      rfl
  | count + 1, vals, stream, next, read => by
      obtain ⟨first, one, rest⟩ := of_bind_ok read
      obtain ⟨others, more, done⟩ := of_bind_ok rest
      cases done
      have one : stream.readVBR64 width = .ok first := one
      rw [skipVBRs, one]
      exact skipVBRs_of_read more

def FewBits (eltEnc : BitCodeAbbrevOp) (count : Nat) : Prop := eltEnc = .char6 → count * 6 < 2 ^ 32

theorem skipElements_of_read {count : Nat} {vals : List Nat} (here : At stream bits place)
    (read : readArrayElements eltEnc count stream = .ok (vals, done)) :
    ∃ skipped, skipElements count eltEnc stream = .ok skipped ∧
      (skipped.getCurrentBitNo = done.getCurrentBitNo ↔ FewBits eltEnc count) := by
  cases eltEnc with
  | literal | array | blob => cases read
  | fixed width =>
      have fields : readAbbreviatedFields (.fixed width) count stream = .ok (vals, done) := read
      have there := readFields_there read_there here fields
      have within := there.spot
      have inside := there.inside
      have length := there.length
      obtain ⟨skipped, jumped, arrived⟩ := jump_at here (show place + count * width ≤ bits.length by omega)
      refine ⟨skipped, ?_, fun _ => nofun, fun _ => ?_⟩
      · rw [skipElements, here.bitNo]
        exact jumped
      · rw [arrived.bitNo, there.bitNo]
  | vbr width => exact ⟨done, skipVBRs_of_read read, fun _ => nofun, fun _ => rfl⟩
  | char6 =>
      have each {place value : Nat} {stream next : SimpleBitstreamCursor} (here : At stream bits place)
          (read : readAbbreviatedField .char6 stream = .ok (value, next)) : At next bits (place + 6) := by
        obtain ⟨pair, first, rest⟩ := of_bind_ok read
        cases rest
        exact read_there here first
      have there := readFields_there each here read
      have within := there.spot
      have inside := there.inside
      have length := there.length
      obtain ⟨skipped, jumped, arrived⟩ := jump_at here (show place + count * 6 % 2 ^ 32 ≤ bits.length by omega)
      refine ⟨skipped, ?_, fun same _ => ?_, fun few => ?_⟩
      · rw [skipElements, here.bitNo]
        exact jumped
      · rw [arrived.bitNo, there.bitNo] at same
        omega
      · have few := few rfl
        rw [arrived.bitNo, there.bitNo]
        omega

/-! ### Records -/

theorem skipBlob_of_read {numElts : Nat} {bytes : Option (List UInt8)}
    (read : readBlob stream = .ok (numElts, bytes, done)) :
    skipBlob stream = .ok (bytes.isSome, done) := by
  unfold readBlob at read
  unfold skipBlob
  obtain ⟨counted, first, rest⟩ := of_bind_ok read
  rw [first]
  simp only [bind, Except.bind] at rest ⊢
  split at rest
  · rename_i reachable
    rw [if_pos reachable]
    obtain ⟨next, jumped, finished⟩ := of_bind_ok rest
    cases finished
    rw [jumped]
    rfl
  · rename_i unreachable
    rw [if_neg unreachable]
    cases rest
    rfl

/-- The number of characters in the array at the end of a record, if there is one. -/
def characters : List BitCodeAbbrevOp → List Nat → Nat
  | [.array, .char6], vals => vals.length
  | _ :: ops, _ :: vals => characters ops vals
  | _, _ => 0

theorem characters_cons (notArray : op ≠ .array) (val : Nat) (vals : List Nat) :
    characters (op :: ops) (val :: vals) = characters ops vals := by
  cases op with
  | array => exact absurd rfl notArray
  | fixed | vbr | literal | char6 | blob => rfl

theorem fewBits_iff (field : eltEnc.Field) (vals : List Nat) :
    FewBits eltEnc vals.length ↔ characters [.array, eltEnc] vals * 6 < 2 ^ 32 := by
  have others (other : eltEnc ≠ .char6) : characters [.array, eltEnc] vals = 0 := by
    cases vals with
    | nil =>
        cases eltEnc with
        | char6 => exact absurd rfl other
        | fixed | vbr | literal | array | blob => rfl
    | cons val vals =>
        cases eltEnc with
        | char6 => exact absurd rfl other
        | fixed | vbr => cases vals <;> rfl
        | literal | array | blob => exact field.elim
  unfold FewBits
  by_cases same : eltEnc = .char6
  · subst same
    exact ⟨fun few => few rfl, fun few _ => few⟩
  · rw [others same]
    exact ⟨fun _ => by decide, fun _ match_ => absurd match_ same⟩

theorem skipOperands_field (field : op.Field) (stream : SimpleBitstreamCursor) : skipOperands (op :: ops) stream =
    (readAbbreviatedField op stream >>= fun pair => skipOperands ops pair.2) :=
  field.cases (fun _ => rfl) (fun _ => rfl) rfl

theorem skipOperands_of_read (shape : Shape ops) :
    ∀ {record last : Record} {place : Nat} {stream done : SimpleBitstreamCursor},
    At stream bits place → readOperands true ops record stream = .ok (last, done) →
      last.code = record.code ∧ ∃ more skipped, last.vals = record.vals ++ more ∧
        skipOperands ops stream = .ok skipped ∧
        (skipped.getCurrentBitNo = done.getCurrentBitNo ↔ characters ops more * 6 < 2 ^ 32) := by
  induction shape with
  | nil =>
      intro record last place stream done here read
      cases read
      exact ⟨rfl, [], stream, (List.append_nil _).symm, rfl, fun _ => by decide, fun _ => rfl⟩
  | @array eltEnc field =>
      intro record last place stream done here read
      obtain ⟨counted, first, rest⟩ := of_bind_ok read
      obtain ⟨pair, elements, finished⟩ := of_bind_ok rest
      cases finished
      obtain ⟨counting, there⟩ := readVBRWith_there here first
      obtain ⟨skipped, passed, same⟩ := skipElements_of_read there elements
      rw [readArrayElements_of_field field] at elements
      refine ⟨rfl, pair.1, skipped, rfl, ?_, same.trans ?_⟩
      · rw [skipOperands, first]
        exact passed
      · rw [← length_readFields elements]
        exact fewBits_iff field pair.1
  | blob =>
      intro record last place stream done here read
      obtain ⟨⟨numElts, bytes, after⟩, first, rest⟩ := of_bind_ok read
      have passed := skipBlob_of_read first
      cases bytes with
      | none =>
          cases rest
          refine ⟨rfl, List.replicate numElts 0, done, rfl, ?_, fun _ => ?_, fun _ => rfl⟩
          · rw [skipOperands, passed]
            rfl
          · cases numElts with
            | zero => decide
            | succ count => exact (by decide : 0 * 6 < 2 ^ 32)
      | some bytes =>
          cases rest
          refine ⟨rfl, [], done, (List.append_nil _).symm, ?_, fun _ => by decide, fun _ => rfl⟩
          rw [skipOperands, passed]
          rfl
  | @literal value ops small _ ih =>
      intro record last place stream done here read
      obtain ⟨code, more, skipped, vals, passed, same⟩ := ih here read
      refine ⟨code, value :: more, skipped, ?_, passed, ?_⟩
      · rw [vals, List.append_assoc]
        rfl
      · rw [characters_cons (nofun : BitCodeAbbrevOp.literal value ≠ .array)]
        exact same
  | @field op ops field _ ih =>
      intro record last place stream done here read
      rw [readOperands_field field] at read
      obtain ⟨⟨val, next⟩, first, rest⟩ := of_bind_ok read
      obtain ⟨finish, there⟩ := readField_there here first
      obtain ⟨code, more, skipped, vals, passed, same⟩ := ih there rest
      refine ⟨code, val :: more, skipped, ?_, ?_, ?_⟩
      · rw [vals, List.append_assoc]
        rfl
      · rw [skipOperands_field field, first]
        exact passed
      · rw [characters_cons (by rintro rfl; exact field)]
        exact same

def numCharacters (abbrevID : Nat) (cursor : BitstreamCursor) (record : Record) : Nat :=
  if abbrevID = Bitc.unabbrevRecord then 0
  else characters ((cursor.curAbbrevs[abbrevID - Bitc.firstApplicationAbbrev]?).getD []).tail record.vals

theorem readRecordCode_there {code : Nat} (here : At stream bits place)
    (read : readRecordCode op stream = .ok (code, next)) :
    ∃ finish, At next bits finish := by
  cases op with
  | literal value =>
      cases read
      exact ⟨place, here⟩
  | fixed width | vbr width | char6 =>
      obtain ⟨pair, first, rest⟩ := of_bind_ok read
      cases rest
      exact readField_there here first
  | array | blob => cases read

/-- A record that can be read can be passed over. The cursor comes to the same place
unless the bits of its characters do not fit. -/
theorem skipRecord_of_readRecord {abbrevID : Nat} {cursor last : BitstreamCursor} {record : Record}
    (here : At cursor.stream bits place) (formed : ∀ abbv ∈ cursor.curAbbrevs, WellFormed abbv)
    (read : cursor.readRecord abbrevID true = .ok (record, last)) :
    ∃ skipped, cursor.skipRecord abbrevID = .ok (record.code, skipped) ∧
      (SamePlace skipped last ↔ numCharacters abbrevID cursor record * 6 < 2 ^ 32) := by
  have onStream_ok {Result : Type} {reads : Reading Result}
      {result : Result} {next : BitstreamCursor} (done : onStream reads cursor = .ok (result, next)) :
      ∃ stream, reads cursor.stream = .ok (result, stream) ∧ next = { cursor with stream := stream } := by
    unfold onStream at done
    cases ran : reads cursor.stream with
    | error problem =>
        rw [ran] at done
        cases done
    | ok pair =>
        rw [ran] at done
        cases done
        exact ⟨pair.2, rfl, rfl⟩
  have samePlace (one two : SimpleBitstreamCursor) :
      SamePlace { cursor with stream := one } { cursor with stream := two } ↔
      one.getCurrentBitNo = two.getCurrentBitNo := ⟨SamePlace.bitNo, fun same => ⟨same, rfl, rfl, rfl⟩⟩
  unfold readRecord at read
  unfold skipRecord numCharacters
  split at read
  · rename_i unabbreviated
    rw [if_pos unabbreviated, if_pos unabbreviated]
    obtain ⟨stream, ran, rfl⟩ := onStream_ok read
    obtain ⟨coded, first, rest⟩ := of_bind_ok ran
    obtain ⟨counted, second, rest⟩ := of_bind_ok rest
    obtain ⟨vals, third, done⟩ := of_bind_ok rest
    cases done
    refine ⟨{ cursor with stream := vals.2 }, ?_, (samePlace _ _).trans ⟨fun _ => by decide, fun _ => rfl⟩⟩
    unfold onStream skipUnabbreviated
    simp only [first, second, skipVBRs_of_read third, bind, Except.bind, Except.map]
  · rename_i abbreviated
    rw [if_neg abbreviated, if_neg abbreviated]
    obtain ⟨abbv, found, rest⟩ := of_bind_ok read
    obtain ⟨stream, ran, rfl⟩ := onStream_ok rest
    have member : cursor.curAbbrevs[abbrevID - Bitc.firstApplicationAbbrev]? = some abbv := by
      unfold getAbbrev at found
      split at found
      · cases found
      · split at found
        · cases found
        · rename_i same
          cases found
          exact same
    rw [found, member]
    cases abbv with
    | nil => cases ran
    | cons op ops =>
        have shape := shape_of_wellFormed (formed _ (List.mem_of_getElem? member)).2
        obtain ⟨coded, first, rest⟩ := of_bind_ok ran
        obtain ⟨_, there⟩ := readRecordCode_there here first
        obtain ⟨code, more, skipped, vals, passed, same⟩ := skipOperands_of_read shape there rest
        refine ⟨{ cursor with stream := skipped }, ?_, (samePlace _ _).trans ?_⟩
        · rw [code]
          unfold onStream skipAbbreviated
          simp only [first, passed, bind, Except.bind, Except.map]
        · rw [vals]
          exact same

end Bitstream

end EvmBackend
