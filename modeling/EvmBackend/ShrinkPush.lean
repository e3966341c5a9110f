/-
The pass that replaces PUSH32 by a shorter push, followed by the emitter and the
machine.

Instructions are in stack form with the operands the lowering to MC keeps. A
64-bit immediate is pushed in as many bytes as it needs, and a negative one is
followed by PUSH1 of that count and SIGNEXTEND; a 256-bit constant of at most 64
bits becomes such an immediate.
-/

import EvmBackend.APInt
import EvmBackend.CodeEmitter
import EvmBackend.WordOperations

namespace EvmBackend.EVMShrinkpush

open BigEndian EVM APInt BitVec

/-! ### The pass -/

def PUSH32 : StackOpcode := pushOf 32

def getImmSize (imm : BitVec 64) : Nat :=
  let typeSize := 8
  if 0 ≤ imm.toInt then
    let zeros := APInt.countLeadingZeros imm
    let bytes := typeSize - zeros / 8
    if bytes = 0 then 1 else bytes
  else
    let ones := APInt.countLeadingOnes imm
    typeSize - ones / 8

def getPushOpcode (length : Nat) : Option StackOpcode :=
  if 1 ≤ length ∧ length ≤ 32 then some (pushOf length) else none

/-- The instruction left for a 64-bit immediate and what is appended to it. -/
def shrinkImm (imm : BitVec 64) : Option (List MCInst) := do
  let s := getImmSize imm
  let newOpcode ← getPushOpcode s
  let appended :=
    if imm.toInt < 0 then [⟨pushOf 1, [.imm (BitVec.ofNat 64 s)]⟩, ⟨.SIGNEXTEND, []⟩] else []
  some (⟨newOpcode, [.imm imm]⟩ :: appended)

def replaceCIwithI (opcode : StackOpcode) (value : BitVec 256) : MCInst :=
  ⟨opcode, [.imm (value.setWidth 64)]⟩

def shrinkCImm (value : BitVec 256) : MCInst :=
  let activeBits := getActiveBits value
  if activeBits ≤ 8 then replaceCIwithI (pushOf 1) value
  else if activeBits ≤ 16 then replaceCIwithI (pushOf 2) value
  else if activeBits ≤ 24 then replaceCIwithI (pushOf 3) value
  else if activeBits ≤ 32 then replaceCIwithI (pushOf 4) value
  else if activeBits ≤ 40 then replaceCIwithI (pushOf 5) value
  else if activeBits ≤ 48 then replaceCIwithI (pushOf 6) value
  else if activeBits ≤ 56 then replaceCIwithI (pushOf 7) value
  else if activeBits ≤ 64 then replaceCIwithI (pushOf 8) value
  else ⟨PUSH32, [.cimm value]⟩

/-- One instruction; `expr` stands for the operands that are labels. What is
appended is no PUSH32, so visiting it changes nothing. -/
def shrinkInstr (inst : MCInst) : Option (List MCInst) :=
  if inst.opcode = PUSH32 then
    match inst.operands with
    | [.imm imm] => shrinkImm imm
    | [.cimm value] => some [shrinkCImm value]
    | [.expr symbol] => (getPushOpcode 2).map fun newOpcode => [⟨newOpcode, [.expr symbol]⟩]
    | [] => none
    | _ => some [inst]
  else some [inst]

def shrinkBlock : List MCInst → Option (List MCInst)
  | [] => some []
  | inst :: rest => do
      let replaced ← shrinkInstr inst
      let later ← shrinkBlock rest
      some (replaced ++ later)

def executeDecoded (memory : ByteMemory.Memory) (inst : DecodedInst) (stack : List Word) :
    Option (List Word) :=
  match inst.operation with
  | .PUSH _ => some (BitVec.ofNat 256 (valueOf inst.data) :: stack)
  | operation => (perform operation stack memory).map Prod.fst

def Decodes (bytes : List Byte) (decoded : List DecodedInst) : Prop :=
  ∀ fuel, bytes.length ≤ fuel → decodeFrom fuel bytes = some decoded

theorem decodes_nil : Decodes [] [] := by
  intro fuel _
  cases fuel <;> rfl

theorem decodes_cons {opcode : StackOpcode} {operation : Operation} {data rest : List Byte}
    {later : List DecodedInst} (size : data.length = opcode.dataSize)
    (read : operationAt (getBinaryCodeForInstr opcode) = some operation) (tail : Decodes rest later) :
    Decodes (BitVec.ofNat 8 (getBinaryCodeForInstr opcode) :: (data ++ rest))
      (⟨operation, data⟩ :: later) := by
  intro fuel enough
  rw [List.length_cons, List.length_append] at enough
  obtain ⟨less, rfl⟩ : ∃ less, fuel = less + 1 := ⟨fuel - 1, by omega⟩
  rw [decodeFrom_encoded size, read, Option.bind_some, tail less (by omega)]
  rfl

variable {index : Fin 32}

theorem encodeInstruction_imm (small : index.val < 8) (value : BitVec 64) :
    encodeInstruction ⟨.PUSH index, [.imm value]⟩ =
      some (BitVec.ofNat 8 (getBinaryCodeForInstr (.PUSH index)) ::
        bytesOf (index + 1) value.toNat, []) := by
  have size : ¬ (index.val + 1 > 8 ∧ index.val + 1 ≠ 32) := by omega
  have short : index.val + 1 < 9 := by omega
  have data : encodeImmediate (.imm value) (index + 1) =
      some (bytesOf (index + 1) value.toNat) := by
    have encoded : encodeImmediate (.imm value) (index + 1) = some _ := if_pos short
    rw [encoded, encodeImmediate_imm encoded]
  simp only [encodeInstruction, isPUSH_PUSH, if_true, pushSize_PUSH, if_neg size, data,
    Option.map_some]

theorem encodeInstruction_cimm (value : BitVec 256) :
    encodeInstruction ⟨PUSH32, [.cimm value]⟩ =
      some (BitVec.ofNat 8 (getBinaryCodeForInstr PUSH32) :: bytesOf 32 value.toNat, []) := by
  have data : encodeImmediate (.cimm value) 32 = some (bytesOf 32 value.toNat) := by
    have encoded : encodeImmediate (.cimm value) 32 = some _ := rfl
    rw [encoded, encodeImmediate_cimm encoded]
  have size : getBinaryCodeForInstr PUSH32 - 0x60 + 1 = 32 := by decide
  simp only [encodeInstruction, size, data, Option.map_some]
  rfl

section Size

variable {imm : BitVec 64}

theorem toNat_of_nonneg (nonneg : 0 ≤ imm.toInt) : imm.toNat < 2 ^ 63 ∧ imm.toInt = imm.toNat := by
  have bound := imm.isLt
  rw [toInt_eq_toNat_cond] at nonneg ⊢
  split at nonneg <;> constructor <;> omega

theorem getImmSize_nonneg (nonneg : 0 ≤ imm.toInt) :
    1 ≤ getImmSize imm ∧ getImmSize imm ≤ 8 ∧ imm.toNat < 256 ^ getImmSize imm := by
  have active := getActiveBits_le imm
  have fits : imm.toNat < 2 ^ getActiveBits imm := (getActiveBits_le_iff imm _).mp (Nat.le_refl _)
  have sized : ∀ bytes, getActiveBits imm ≤ 8 * bytes → imm.toNat < 256 ^ bytes := by
    intro bytes enough
    rw [show (256 : Nat) = 2 ^ 8 from rfl, ← pow_mul]
    exact Nat.lt_of_lt_of_le fits (Nat.pow_le_pow_right (by decide) enough)
  unfold getImmSize APInt.countLeadingZeros
  simp only [nonneg, if_true]
  split
  · next none => exact ⟨by omega, by omega, sized 1 (by omega)⟩
  · next some => exact ⟨by omega, by omega, sized _ (by omega)⟩

end Size

/-! ### The value on the stack -/

/-- The code left for `PUSH32 value`, emitted and executed, pushes the value extended
to 256 bits and nothing else; the push has between 1 and 8 bytes. -/
def PushesValue (value : BitVec 64) (stack : List Word) (memory : ByteMemory.Memory) : Prop :=
  ∃ insts bytes decoded, shrinkBlock [⟨PUSH32, [.imm value]⟩] = some insts ∧
    encodeStream insts = some bytes ∧ decodeProgram bytes = some decoded ∧
    Runs.run (executeDecoded memory) decoded stack = some (value.signExtend 256 :: stack) ∧
    1 ≤ getImmSize value ∧ getImmSize value ≤ 8

section Pushed

variable {value : BitVec 64}

theorem getPushOpcode_eq {size : Nat} (least : 1 ≤ size) (most : size ≤ 8) :
    ∃ index : Fin 32, getPushOpcode size = some (.PUSH index) ∧ index.val + 1 = size := by
  refine ⟨Fin.ofNat 32 (size - 1), if_pos ⟨least, by omega⟩, ?_⟩
  rw [Fin.val_ofNat, Nat.mod_eq_of_lt (by omega)]
  omega

theorem shrinkBlock_imm (chosen : getPushOpcode (getImmSize value) = some (.PUSH index)) :
    shrinkBlock [⟨PUSH32, [.imm value]⟩] = some (⟨.PUSH index, [.imm value]⟩ ::
      if value.toInt < 0 then
        [⟨.PUSH 0, [.imm (BitVec.ofNat 64 (getImmSize value))]⟩, ⟨.SIGNEXTEND, []⟩]
      else []) := by
  simp only [shrinkBlock, shrinkInstr, if_true, shrinkImm, chosen, Option.bind_eq_bind,
    Option.bind_some, List.append_nil]
  rfl

theorem decodes_PUSH (value : BitVec 64) (small : index.val < 8) {insts : List MCInst}
    {bytes : List Byte} {decoded : List DecodedInst} (written : encodeStream insts = some bytes)
    (read : Decodes bytes decoded) :
    ∃ more, encodeStream (⟨.PUSH index, [.imm value]⟩ :: insts) = some more ∧
      Decodes more (⟨.PUSH index, bytesOf (index + 1) value.toNat⟩ :: decoded) := by
  refine ⟨_, ?_, decodes_cons (length_bytesOf ..) (StackOpcode.operationAt_PUSH index) read⟩
  simp only [encodeStream, encodeInstruction_imm small, written, Option.bind_eq_bind,
    Option.bind_some]
  rfl

theorem decodes_SIGNEXTEND :
    ∃ bytes, encodeStream [⟨.SIGNEXTEND, []⟩] = some bytes ∧ Decodes bytes [⟨.SIGNEXTEND, []⟩] :=
  ⟨_, rfl, decodes_cons rfl rfl decodes_nil⟩

theorem executeDecoded_PUSH (value : Nat) (stack : List Word) (memory : ByteMemory.Memory) :
    executeDecoded memory ⟨.PUSH index, bytesOf (index + 1) value⟩ stack =
      some (BitVec.ofNat 256 (value % 256 ^ (index.val + 1)) :: stack) := by
  rw [executeDecoded, valueOf_bytesOf]

theorem extended_nonneg (nonneg : 0 ≤ value.toInt) :
    value.signExtend 256 = BitVec.ofNat 256 value.toNat := by
  obtain ⟨small, same⟩ := toNat_of_nonneg nonneg
  apply eq_of_toInt_eq
  rw [toInt_signExtend_of_le (by decide), same, toInt_eq_toNat_cond,
    toNat_ofNat, Nat.mod_eq_of_lt (by omega), if_pos (by omega)]

theorem pushesValue_nonneg (stack : List Word) (memory : ByteMemory.Memory)
    (nonneg : 0 ≤ value.toInt) : PushesValue value stack memory := by
  obtain ⟨least, most, fits⟩ := getImmSize_nonneg nonneg
  obtain ⟨index, chosen, size⟩ := getPushOpcode_eq least most
  have replaced := shrinkBlock_imm chosen
  rw [if_neg (by omega)] at replaced
  have small : index.val < 8 := by omega
  have empty : encodeStream [] = some [] := rfl
  obtain ⟨bytes, written, read⟩ := decodes_PUSH value small empty decodes_nil
  refine ⟨_, bytes, _, replaced, written, read _ (Nat.le_refl _), ?_, least, most⟩
  rw [Runs.run_cons, executeDecoded_PUSH, size, Nat.mod_eq_of_lt fits, extended_nonneg nonneg]
  rfl

/-- Behind the appended SIGNEXTEND stands the number itself: its sign byte would be
one behind the bytes that were pushed. -/
theorem run_negative (stack : List Word) (memory : ByteMemory.Memory) (small : index.val < 8)
    (size : index.val + 1 = getImmSize value) :
    Runs.run (executeDecoded memory) [⟨.PUSH index, bytesOf (index + 1) value.toNat⟩,
        ⟨.PUSH 0, bytesOf 1 (BitVec.ofNat 64 (getImmSize value)).toNat⟩, ⟨.SIGNEXTEND, []⟩] stack =
      some (BitVec.ofNat 256 (value.toNat % 256 ^ getImmSize value) :: stack) := by
  have count : (BitVec.ofNat 64 (getImmSize value)).toNat % 256 ^ 1 = getImmSize value := by
    rw [toNat_ofNat, Nat.mod_eq_of_lt (by omega), Nat.mod_eq_of_lt (by omega)]
  have index' : (BitVec.ofNat 256 (getImmSize value)).toNat = getImmSize value := by
    rw [toNat_ofNat, Nat.mod_eq_of_lt (by omega)]
  have low : value.toNat % 256 ^ getImmSize value < 256 ^ getImmSize value :=
    Nat.mod_lt _ (Nat.pow_pos (by decide))
  have extended : signextend (BitVec.ofNat 256 (getImmSize value))
      (BitVec.ofNat 256 (value.toNat % 256 ^ getImmSize value)) =
        BitVec.ofNat 256 (value.toNat % 256 ^ getImmSize value) := by
    apply signextend_of_lt
    rw [index', toNat_ofNat]
    calc value.toNat % 256 ^ getImmSize value % 2 ^ 256
        ≤ value.toNat % 256 ^ getImmSize value := Nat.mod_le _ _
      _ < 256 ^ getImmSize value := low
      _ = 2 ^ (8 * getImmSize value) := by rw [show (256 : Nat) = 2 ^ 8 from rfl, ← pow_mul]
      _ ≤ 2 ^ (8 * getImmSize value + 7) := Nat.pow_le_pow_right (by decide) (by omega)
  have second : executeDecoded memory
      ⟨.PUSH 0, bytesOf 1 (BitVec.ofNat 64 (getImmSize value)).toNat⟩
        (BitVec.ofNat 256 (value.toNat % 256 ^ getImmSize value) :: stack) =
          some (BitVec.ofNat 256 (getImmSize value) ::
            BitVec.ofNat 256 (value.toNat % 256 ^ getImmSize value) :: stack) := by
    rw [executeDecoded, valueOf_bytesOf, count]
  rw [Runs.run_cons, executeDecoded_PUSH, size, Option.bind_some, Runs.run_cons, second,
    Option.bind_some, Runs.run_cons]
  change some (signextend _ _ :: stack) = _
  rw [extended]

theorem not_pushesValue_negative (stack : List Word) (memory : ByteMemory.Memory)
    (negative : value.toInt < 0) : ¬ PushesValue value stack memory := by
  rintro ⟨insts, bytes, decoded, replaced, written, read, ran, least, most⟩
  obtain ⟨index, chosen, size⟩ := getPushOpcode_eq least most
  have small : index.val < 8 := by omega
  have code := shrinkBlock_imm chosen
  rw [if_pos negative] at code
  obtain ⟨one, first, readOne⟩ := decodes_SIGNEXTEND
  obtain ⟨two, second, readTwo⟩ :=
    decodes_PUSH (BitVec.ofNat 64 (getImmSize value)) (show (0 : Fin 32).val < 8 by decide) first
      readOne
  obtain ⟨three, third, readThree⟩ := decodes_PUSH value small second readTwo
  obtain rfl := Option.some.inj (code.symm.trans replaced)
  obtain rfl := Option.some.inj (third.symm.trans written)
  obtain rfl := Option.some.inj ((readThree _ (Nat.le_refl _)).symm.trans read)
  have left := run_negative stack memory small size
  have same : value.signExtend 256 = BitVec.ofNat 256 (value.toNat % 256 ^ getImmSize value) := by
    have both := ran.symm.trans left
    rw [Option.some.injEq, List.cons.injEq] at both
    exact both.1
  -- the extension of a negative number is negative, what was pushed is not
  have signs := congrArg BitVec.toInt same
  have bound := value.isLt
  have less := Nat.mod_le value.toNat (256 ^ getImmSize value)
  rw [toInt_signExtend_of_le (by decide), toInt_eq_toNat_cond (BitVec.ofNat 256 _),
    toNat_ofNat, Nat.mod_eq_of_lt (by omega), if_pos (by omega)] at signs
  omega

/-- Shrinking keeps the value of a 64-bit immediate exactly when it is not negative. -/
theorem pushesValue_iff (value : BitVec 64) (stack : List Word) (memory : ByteMemory.Memory) :
    PushesValue value stack memory ↔ 0 ≤ value.toInt := by
  constructor
  · intro pushes
    by_contra negative
    exact not_pushesValue_negative stack memory (by omega) pushes
  · exact pushesValue_nonneg stack memory

/-- -2 is pushed as the byte 0xfe and left as 254. -/
theorem minusTwo_not_pushed : ¬ PushesValue (-2) [] (fun _ => 0) :=
  not_pushesValue_negative [] (fun _ => 0) (by decide)

end Pushed

def LeastSize (value size : Nat) : Prop :=
  1 ≤ size ∧ value < 256 ^ size ∧ ∀ smaller, 1 ≤ smaller → value < 256 ^ smaller → size ≤ smaller

/-- The instruction has an opcode and data bytes whose value is the constant. -/
def EncodesAs (inst : MCInst) (value size : Nat) : Prop :=
  ∃ data, encodeInstruction inst = some (BitVec.ofNat 8 (0x60 + size - 1) :: data, []) ∧
    data.length = size ∧ valueOf data = value

section Constants

variable {value : BitVec 256}

theorem encodesAs_replaceCIwithI (small : index.val < 8)
    (fits : value.toNat < 256 ^ (index.val + 1)) :
    EncodesAs (replaceCIwithI (.PUSH index) value) value.toNat (index + 1) := by
  have low : value.toNat < 2 ^ 64 := by
    refine Nat.lt_of_lt_of_le fits ?_
    rw [show (256 : Nat) = 2 ^ 8 from rfl, ← pow_mul]
    exact Nat.pow_le_pow_right (by decide) (by omega)
  have kept : (value.setWidth 64).toNat = value.toNat := by
    rw [toNat_setWidth, Nat.mod_eq_of_lt low]
  refine ⟨bytesOf (index + 1) value.toNat, ?_, length_bytesOf .., ?_⟩
  · rw [replaceCIwithI, encodeInstruction_imm small, kept]
    rfl
  · rw [valueOf_bytesOf, Nat.mod_eq_of_lt fits]

theorem leastSize_of_bits {size : Nat} (least : 1 ≤ size) (fits : getActiveBits value ≤ 8 * size)
    (tight : size = 1 ∨ 8 * (size - 1) < getActiveBits value) : LeastSize value.toNat size := by
  have bytes : ∀ count, value.toNat < 256 ^ count ↔ getActiveBits value ≤ 8 * count := by
    intro count
    have power : 256 ^ count = 2 ^ (8 * count) := by
      rw [show (256 : Nat) = 2 ^ 8 from rfl, ← pow_mul]
    rw [power, getActiveBits_le_iff]
  refine ⟨least, (bytes size).mpr fits, fun smaller positive holds => ?_⟩
  have enough := (bytes smaller).mp holds
  omega

theorem shrinkCImm_cases (value : BitVec 256) :
    (∃ index : Fin 32, index.val < 8 ∧ shrinkCImm value = replaceCIwithI (.PUSH index) value ∧
      LeastSize value.toNat (index + 1)) ∨
      (64 < getActiveBits value ∧ shrinkCImm value = ⟨PUSH32, [.cimm value]⟩) := by
  have chosen : ∀ index : Fin 32, index.val < 8 → getActiveBits value ≤ 8 * (index.val + 1) →
      (index.val = 0 ∨ 8 * index.val < getActiveBits value) → LeastSize value.toNat (index + 1) :=
    fun index _ fits tight => leastSize_of_bits (by omega) fits (by omega)
  unfold shrinkCImm
  dsimp only
  split
  · next one => exact Or.inl ⟨0, by decide, rfl, chosen 0 (by decide) one (Or.inl rfl)⟩
  split
  · next above two => exact Or.inl ⟨1, by decide, rfl, chosen 1 (by decide) two (by omega)⟩
  split
  · next above three => exact Or.inl ⟨2, by decide, rfl, chosen 2 (by decide) three (by omega)⟩
  split
  · next above four => exact Or.inl ⟨3, by decide, rfl, chosen 3 (by decide) four (by omega)⟩
  split
  · next above five => exact Or.inl ⟨4, by decide, rfl, chosen 4 (by decide) five (by omega)⟩
  split
  · next above six => exact Or.inl ⟨5, by decide, rfl, chosen 5 (by decide) six (by omega)⟩
  split
  · next above seven => exact Or.inl ⟨6, by decide, rfl, chosen 6 (by decide) seven (by omega)⟩
  split
  · next above eight => exact Or.inl ⟨7, by decide, rfl, chosen 7 (by decide) eight (by omega)⟩
  · next above => exact Or.inr ⟨by omega, rfl⟩

/-- Every 256-bit constant is emitted as a push of its least size up to 8 bytes, and
of 32 bytes from 2^64 on, with the constant as the value of the data. -/
theorem shrinkBlock_cimm (value : BitVec 256) :
    ∃ inst size, shrinkBlock [⟨PUSH32, [.cimm value]⟩] = some [inst] ∧
      EncodesAs inst value.toNat size ∧
      (value.toNat < 2 ^ 64 → LeastSize value.toNat size) ∧
      (¬ value.toNat < 2 ^ 64 → size = 32) := by
  have narrow := getActiveBits_le_iff value 64
  refine ⟨shrinkCImm value, ?_⟩
  have replaced : shrinkBlock [⟨PUSH32, [.cimm value]⟩] = some [shrinkCImm value] := rfl
  rcases shrinkCImm_cases value with ⟨index, small, chosen, least⟩ | ⟨large, kept⟩
  · refine ⟨index + 1, replaced, ?_, fun _ => least, fun wide => ?_⟩
    · rw [chosen]
      exact encodesAs_replaceCIwithI small least.2.1
    · refine absurd (Nat.lt_of_lt_of_le least.2.1 ?_) wide
      rw [show (256 : Nat) = 2 ^ 8 from rfl, ← pow_mul]
      exact Nat.pow_le_pow_right (by decide) (by omega)
  · refine ⟨32, replaced, ?_, fun below => absurd (narrow.mpr below) (by omega), fun _ => rfl⟩
    have fits : value.toNat < 256 ^ 32 := by
      have bound := value.isLt
      norm_num at bound ⊢
      exact bound
    refine ⟨bytesOf 32 value.toNat, ?_, length_bytesOf .., ?_⟩
    · rw [kept, encodeInstruction_cimm]
      rfl
    · rw [valueOf_bytesOf, Nat.mod_eq_of_lt fits]

end Constants

end EvmBackend.EVMShrinkpush
