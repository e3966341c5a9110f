/-
The code emitter: the bytes of one instruction, the stream of a sequence, and
the sequence the machine decodes from that stream.

An instruction is accepted where none of the emitter's assertions fails and no
unreachable code is reached. Decoding follows the machine: one opcode byte,
then the data bytes of a push, zeros where the code ends early.
-/

import EvmBackend.InstrInfo

namespace EvmBackend

open BigEndian

/-- An operand of a stack-form instruction: a 64-bit immediate, a 256-bit one
or a symbol. -/
inductive MCOperand
  | imm (value : BitVec 64)
  | cimm (value : BitVec 256)
  | expr (symbol : Nat)
  deriving DecidableEq, Repr

structure MCInst where
  opcode : StackOpcode
  operands : List MCOperand
  deriving DecidableEq, Repr

/-- Two bytes to be filled in later; every fixup of the target is of one kind. -/
structure MCFixup where
  offset : Nat
  symbol : Nat
  deriving DecidableEq, Repr

def isPUSH (binary : Nat) : Bool := 0x60 ≤ binary && binary ≤ 0x7f

def shiftedBytes (byteAt : Nat → Byte) (pushSize : Nat) : List Byte :=
  (List.range pushSize).reverse.map byteAt

def encodeImmediate (operand : MCOperand) (pushSize : Nat) : Option (List Byte) :=
  match operand with
  | .imm value =>
      if pushSize < 9 then
        some (shiftedBytes (fun index => (value.sshiftRight (index * 8)).setWidth 8) pushSize)
      else none
  | .cimm value =>
      some (shiftedBytes (fun index => (value >>> (index * 8)).setWidth 8) pushSize)
  | .expr _ => none

def encodeInstruction (inst : MCInst) : Option (List Byte × List MCFixup) :=
  let binary := getBinaryCodeForInstr inst.opcode
  let opcode := BitVec.ofNat 8 binary
  if isPUSH binary then
    let pushSize := binary - 0x60 + 1
    if pushSize > 8 ∧ pushSize ≠ 32 then none
    else match inst.operands with
      | [.expr symbol] =>
          if pushSize = 2 then some (opcode :: [0, 0], [⟨1, symbol⟩]) else none
      | [operand] => (encodeImmediate operand pushSize).map fun data => (opcode :: data, [])
      | _ => none
  else some ([opcode], [])

def encodeStream : List MCInst → Option (List Byte)
  | [] => some []
  | inst :: rest => do
      let encoded ← encodeInstruction inst
      let later ← encodeStream rest
      some (encoded.1 ++ later)

structure DecodedInst where
  operation : Operation
  data : List Byte
  deriving DecidableEq, Repr

def Operation.dataSize : Operation → Nat
  | .PUSH index => index + 1
  | _ => 0

def readData (size : Nat) (bytes : List Byte) : List Byte :=
  bytes.take size ++ List.replicate (size - bytes.length) 0

/-- Decode from the front on; a byte without an operation gives no program. -/
def decodeFrom : Nat → List Byte → Option (List DecodedInst)
  | _, [] => some []
  | 0, _ :: _ => none
  | fuel + 1, opcode :: rest => do
      let operation ← operationAt opcode.toNat
      let later ← decodeFrom fuel (rest.drop operation.dataSize)
      some (⟨operation, readData operation.dataSize rest⟩ :: later)

def decodeProgram (bytes : List Byte) : Option (List DecodedInst) := decodeFrom bytes.length bytes

def IsBytes (size : Nat) (value : Int) : Prop :=
  -(2 ^ (8 * size - 1)) ≤ value ∧ value < 2 ^ (8 * size)

instance (size : Nat) (value : Int) : Decidable (IsBytes size value) :=
  inferInstanceAs (Decidable (_ ∧ _))

/-- The data bytes are the operand; for a symbol they are the space reserved
for its value. -/
def HoldsOperand (size : Nat) (data : List Byte) : MCOperand → Prop
  | .imm value =>
      IsBytes size value.toInt ∧ (valueOf data : Int) = value.toInt % (256 ^ size : Nat)
  | .cimm value => valueOf data = value.toNat
  | .expr _ => valueOf data = 0

def HoldsOperands (inst : MCInst) (data : List Byte) : Prop :=
  match inst.opcode with
  | .PUSH index => data.length = index + 1 ∧
      ∃ operand, inst.operands = [operand] ∧ HoldsOperand (index + 1) data operand
  | _ => data = []

structure Intended (inst : MCInst) (decoded : DecodedInst) : Prop where
  operation : inst.opcode.meaning = some decoded.operation
  data : HoldsOperands inst decoded.data

def IsIntendedProgram (insts : List MCInst) (bytes : List Byte) : Prop :=
  ∃ decoded, decodeProgram bytes = some decoded ∧ List.Forall₂ Intended insts decoded

variable {size : Nat} {data : List Byte} {opcode : StackOpcode} {encoded : List Byte × List MCFixup}
    {inst : MCInst}

theorem shiftedBytes_eq_bytesOf {byteAt : Nat → Byte} {value : Nat}
    (shifts : ∀ index < size, byteAt index = BitVec.ofNat 8 (value / 256 ^ index)) :
    shiftedBytes byteAt size = bytesOf size value := by
  induction size with
  | zero => rfl
  | succ size ih =>
      have lower := ih fun index below => shifts index (by omega)
      unfold shiftedBytes at lower ⊢
      rw [List.range_succ, List.reverse_append, List.reverse_singleton, List.singleton_append,
        List.map_cons, lower, shifts size (by omega), bytesOf]

private theorem setWidth_ushiftRight {width : Nat} (value : BitVec width) (index : Nat) :
    (value >>> (index * 8)).setWidth 8 = BitVec.ofNat 8 (value.toNat / 256 ^ index) := by
  apply BitVec.eq_of_toNat_eq
  rw [BitVec.toNat_setWidth, BitVec.toNat_ushiftRight, BitVec.toNat_ofNat,
    Nat.shiftRight_eq_div_pow, Nat.mul_comm index 8, pow_mul]
  rfl

private theorem setWidth_sshiftRight (value : BitVec 64) {index : Nat} (within : index < 8) :
    (value.sshiftRight (index * 8)).setWidth 8 = (value >>> (index * 8)).setWidth 8 := by
  apply BitVec.eq_of_getLsbD_eq
  intro bit below
  have inside : index * 8 + bit < 64 := by omega
  simp [BitVec.getLsbD_sshiftRight, below, inside]
  omega

theorem encodeImmediate_imm {value : BitVec 64}
    (encoded : encodeImmediate (.imm value) size = some data) : data = bytesOf size value.toNat := by
  by_cases small : size < 9
  · simp only [encodeImmediate, small, if_true] at encoded
    cases encoded
    apply shiftedBytes_eq_bytesOf
    intro index below
    rw [setWidth_sshiftRight value (by omega), setWidth_ushiftRight]
  · simp [encodeImmediate, small] at encoded

theorem encodeImmediate_cimm {value : BitVec 256}
    (encoded : encodeImmediate (.cimm value) size = some data) : data = bytesOf size value.toNat := by
  cases encoded
  apply shiftedBytes_eq_bytesOf
  intro index _
  exact setWidth_ushiftRight value index

def OperandFits (size : Nat) : MCOperand → Prop
  | .imm value => IsBytes size value.toInt
  | .cimm value => value.toNat < 256 ^ size
  | .expr _ => True

instance (size : Nat) : ∀ operand, Decidable (OperandFits size operand)
  | .imm value => inferInstanceAs (Decidable (IsBytes size value.toInt))
  | .cimm value => inferInstanceAs (Decidable (value.toNat < 256 ^ size))
  | .expr _ => inferInstanceAs (Decidable True)

private theorem imm_mod {value : BitVec 64} (small : size ≤ 8) :
    ((value.toNat % 256 ^ size : Nat) : Int) = value.toInt % (256 ^ size : Nat) := by
  have divides : ((256 ^ size : Nat) : Int) ∣ ((2 ^ 64 : Nat) : Int) := by
    refine Int.natCast_dvd_natCast.mpr ?_
    rw [show (256 : Nat) = 2 ^ 8 from rfl, ← pow_mul]
    exact pow_dvd_pow 2 (by omega)
  rw [BitVec.toInt_eq_toNat_bmod, Int.natCast_mod, Int.bmod_def]
  split
  · rw [Int.emod_emod_of_dvd _ divides]
  · rw [Int.sub_emod, Int.emod_emod_of_dvd _ divides, Int.emod_eq_zero_of_dvd divides, Int.sub_zero,
      Int.emod_emod]

theorem holdsOperand_iff {operand : MCOperand}
    (encoded : encodeImmediate operand size = some data) :
    data.length = size ∧ (HoldsOperand size data operand ↔ OperandFits size operand) := by
  cases operand with
  | imm value =>
      have small : size < 9 := by
        by_contra large
        simp [encodeImmediate, large] at encoded
      obtain rfl := encodeImmediate_imm encoded
      refine ⟨length_bytesOf .., And.left, fun fits => ⟨fits, ?_⟩⟩
      rw [valueOf_bytesOf, imm_mod (by omega)]
  | cimm value =>
      obtain rfl := encodeImmediate_cimm encoded
      refine ⟨length_bytesOf .., ?_⟩
      have positive : 256 ^ size ≠ 0 := Nat.pos_iff_ne_zero.mp (Nat.pow_pos (by decide))
      change valueOf (bytesOf size value.toNat) = value.toNat ↔ value.toNat < 256 ^ size
      rw [valueOf_bytesOf, Nat.mod_eq_iff_lt positive]
  | expr symbol => cases encoded

/-! ### One instruction -/

def StackOpcode.dataSize : StackOpcode → Nat
  | .PUSH index => index + 1
  | _ => 0

def MCInst.OperandsFit (inst : MCInst) : Prop :=
  inst.opcode.dataSize ≠ 0 → ∀ operand ∈ inst.operands, OperandFits inst.opcode.dataSize operand

instance (inst : MCInst) : Decidable inst.OperandsFit := inferInstanceAs (Decidable (_ → _))

/-- What the machine reads for an instruction comes out as it was meant. -/
def MCInst.Sound (inst : MCInst) : Prop :=
  inst.opcode ∉ StackOpcode.misnumbered ∧ inst.OperandsFit

instance (inst : MCInst) : Decidable inst.Sound := inferInstanceAs (Decidable (_ ∧ _))

theorem isPUSH_PUSH (index : Fin 32) :
    isPUSH (getBinaryCodeForInstr (.PUSH index)) = true := by
  revert index
  decide

private theorem isPUSH_eq_false (other : ∀ index, opcode ≠ .PUSH index) :
    isPUSH (getBinaryCodeForInstr opcode) = false := by
  cases opcode with
  | PUSH index => exact absurd rfl (other index)
  | DUP index | SWAP index =>
      revert index
      decide
  | _ => rfl

theorem pushSize_PUSH (index : Fin 32) :
    getBinaryCodeForInstr (.PUSH index) - 0x60 + 1 = index + 1 := by
  change 0x60 + index.val - 0x60 + 1 = index.val + 1
  omega

theorem encodeInstruction_PUSH {index : Fin 32} {operands : List MCOperand}
    (accepted : encodeInstruction ⟨.PUSH index, operands⟩ = some encoded) :
    ∃ operand data, operands = [operand] ∧
      encoded.1 = BitVec.ofNat 8 (getBinaryCodeForInstr (.PUSH index)) :: data ∧
      data.length = index + 1 ∧
      (HoldsOperand (index + 1) data operand ↔ OperandFits (index + 1) operand) := by
  simp only [encodeInstruction, isPUSH_PUSH, if_true, pushSize_PUSH] at accepted
  split at accepted
  · cases accepted
  · split at accepted
    · rename_i symbol
      split at accepted
      · rename_i two
        cases accepted
        exact ⟨.expr symbol, [0, 0], rfl, rfl, two.symm, by simp [HoldsOperand, OperandFits, valueOf, appendByte]⟩
      · cases accepted
    · rename_i operand _
      obtain ⟨data, written, rfl⟩ := Option.map_eq_some_iff.mp accepted
      obtain ⟨size, holds⟩ := holdsOperand_iff written
      exact ⟨operand, data, rfl, rfl, size, holds⟩
    · cases accepted

theorem encodeInstruction_other (other : ∀ index, inst.opcode ≠ .PUSH index)
    (accepted : encodeInstruction inst = some encoded) :
    encoded = ([BitVec.ofNat 8 (getBinaryCodeForInstr inst.opcode)], []) := by
  simp only [encodeInstruction, isPUSH_eq_false other] at accepted
  exact (Option.some.inj accepted).symm

/-- An accepted instruction is its opcode byte and its data bytes, and these
hold the operand exactly when it fits. -/
theorem encodeInstruction_eq_some (accepted : encodeInstruction inst = some encoded) :
    ∃ data, encoded.1 = BitVec.ofNat 8 (getBinaryCodeForInstr inst.opcode) :: data ∧
      data.length = inst.opcode.dataSize ∧ (HoldsOperands inst data ↔ inst.OperandsFit) := by
  obtain ⟨opcode, operands⟩ := inst
  by_cases pushes : ∃ index, opcode = .PUSH index
  · obtain ⟨index, rfl⟩ := pushes
    obtain ⟨operand, data, rfl, bytes, size, holds⟩ := encodeInstruction_PUSH accepted
    refine ⟨data, bytes, size, ?_⟩
    have pushed : StackOpcode.dataSize (.PUSH index) = index + 1 := rfl
    simp [HoldsOperands, MCInst.OperandsFit, size, pushed, holds]
  · have other : ∀ index, opcode ≠ .PUSH index := fun index same => pushes ⟨index, same⟩
    obtain rfl := encodeInstruction_other other accepted
    refine ⟨[], rfl, ?_⟩
    cases opcode with
    | PUSH index => exact absurd rfl (other index)
    | _ => exact ⟨rfl, fun _ none => absurd rfl none, fun _ => rfl⟩

theorem dataSize_operationAt {operation : Operation}
    (read : operationAt (getBinaryCodeForInstr opcode) = some operation) :
    operation.dataSize = opcode.dataSize := by
  cases opcode with
  | PUSH index =>
      rw [StackOpcode.operationAt_PUSH] at read
      cases read
      rfl
  | DUP index =>
      rw [StackOpcode.operationAt_DUP] at read
      cases read
      rfl
  | SWAP index =>
      rw [StackOpcode.operationAt_SWAP] at read
      cases read
      rfl
  | _ => cases read <;> rfl

/-! ### Whole streams -/

theorem decodeFrom_encoded {rest : List Byte} {fuel : Nat} (size : data.length = opcode.dataSize) :
    decodeFrom (fuel + 1) (BitVec.ofNat 8 (getBinaryCodeForInstr opcode) :: (data ++ rest)) =
      (operationAt (getBinaryCodeForInstr opcode)).bind fun operation =>
        (decodeFrom fuel rest).map (⟨operation, data⟩ :: ·) := by
  have byte : (BitVec.ofNat 8 (getBinaryCodeForInstr opcode)).toNat = getBinaryCodeForInstr opcode := by
    rw [BitVec.toNat_ofNat]
    exact Nat.mod_eq_of_lt (StackOpcode.getBinaryCodeForInstr_lt opcode)
  rw [decodeFrom, byte]
  cases read : operationAt (getBinaryCodeForInstr opcode) with
  | none => rfl
  | some operation =>
      have taken : operation.dataSize = data.length := (dataSize_operationAt read).trans size.symm
      have whole : readData operation.dataSize (data ++ rest) = data := by
        simp [readData, taken]
      have left : (data ++ rest).drop operation.dataSize = rest := by simp [taken]
      simp only [Option.bind_eq_bind, Option.bind_some, whole, left]
      cases decodeFrom fuel rest <;> rfl

/-- The machine's reading of one instruction is the meant one exactly when the
instruction is numbered as meant and its operand fits. -/
theorem intended_iff_sound (holds : HoldsOperands inst data ↔ inst.OperandsFit) :
    (∃ operation, operationAt (getBinaryCodeForInstr inst.opcode) = some operation ∧
      Intended inst ⟨operation, data⟩) ↔ inst.Sound := by
  unfold MCInst.Sound
  rw [← StackOpcode.numberedAsMeant_iff, ← holds]
  constructor
  · rintro ⟨operation, read, meant⟩
    exact ⟨⟨operation, meant.operation, read⟩, meant.data⟩
  · rintro ⟨⟨operation, named, read⟩, held⟩
    exact ⟨operation, read, named, held⟩

private theorem intendedFrom_iff {insts : List MCInst} {bytes : List Byte} {fuel : Nat}
    (written : encodeStream insts = some bytes) (enough : bytes.length ≤ fuel) :
    (∃ decoded, decodeFrom fuel bytes = some decoded ∧ List.Forall₂ Intended insts decoded) ↔
      ∀ inst ∈ insts, inst.Sound := by
  -- induction on the instructions; each one takes its own bytes off the stream
  induction insts generalizing bytes fuel with
  | nil =>
      cases written
      constructor
      · intro _ inst member
        cases member
      · intro _
        refine ⟨[], ?_, List.Forall₂.nil⟩
        cases fuel <;> rfl
  | cons inst rest ih =>
      obtain ⟨encoded, accepted, written⟩ := Option.bind_eq_some_iff.mp written
      obtain ⟨later, writtenLater, written⟩ := Option.bind_eq_some_iff.mp written
      obtain ⟨data, opened, size, holds⟩ := encodeInstruction_eq_some accepted
      obtain rfl := Option.some.inj written
      rw [opened] at enough ⊢
      rw [List.cons_append, List.length_cons, List.length_append] at enough
      obtain ⟨fuel, rfl⟩ := Nat.exists_eq_succ_of_ne_zero (n := fuel) (by omega)
      have tail : (∃ decoded, decodeFrom fuel later = some decoded ∧
          List.Forall₂ Intended rest decoded) ↔ ∀ inst ∈ rest, inst.Sound :=
        ih writtenLater (by omega)
      rw [List.cons_append, Nat.succ_eq_add_one, decodeFrom_encoded size, List.forall_mem_cons,
        ← tail, ← intended_iff_sound holds]
      constructor
      · rintro ⟨decoded, read, meant⟩
        obtain ⟨operation, first, read⟩ := Option.bind_eq_some_iff.mp read
        obtain ⟨others, remaining, rfl⟩ := Option.map_eq_some_iff.mp read
        cases meant with
        | cons meantFirst meantRest =>
            exact ⟨⟨operation, first, meantFirst⟩, others, remaining, meantRest⟩
      · rintro ⟨⟨operation, first, meantFirst⟩, others, remaining, meantRest⟩
        refine ⟨⟨operation, data⟩ :: others, ?_, .cons meantFirst meantRest⟩
        rw [first, Option.bind_some, remaining]
        rfl

/-- The stream of accepted instructions decodes to them exactly when none is
misnumbered and every immediate fits its push. -/
theorem isIntendedProgram_iff_sound {insts : List MCInst} {bytes : List Byte}
    (written : encodeStream insts = some bytes) :
    IsIntendedProgram insts bytes ↔ ∀ inst ∈ insts, inst.Sound :=
  intendedFrom_iff written (Nat.le_refl _)

def PUSH2 : StackOpcode := .PUSH 1

def pushOf (size : Nat) : StackOpcode := .PUSH (Fin.ofNat 32 (size - 1))

/-- Push the number 255 in one byte and the number 1 in 32, subtract. -/
def subtraction : List MCInst :=
  [⟨.PUSH 0, [.imm 255]⟩, ⟨.PUSH 31, [.cimm 1]⟩, ⟨.SUB, []⟩]

theorem subtraction_isIntendedProgram :
    ∃ bytes, encodeStream subtraction = some bytes ∧ IsIntendedProgram subtraction bytes := by
  have written : encodeStream subtraction = some ((encodeStream subtraction).getD []) := by decide
  exact ⟨_, written, (isIntendedProgram_iff_sound written).mpr (by decide)⟩

/-- The byte of BYTE is the machine's KECCAK256. -/
theorem byteInstruction_not_isIntendedProgram :
    encodeStream [⟨.BYTE, []⟩] = some [0x20] ∧ ¬ IsIntendedProgram [⟨.BYTE, []⟩] [0x20] := by
  refine ⟨by decide, ?_⟩
  rintro ⟨decoded, read, meant⟩
  have hashed : decoded = [⟨.KECCAK256, []⟩] := (Option.some.inj read).symm
  subst hashed
  cases meant with
  | cons first rest => cases first.operation

end EvmBackend
