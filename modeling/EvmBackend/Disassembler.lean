/-
The disassembler, called over and over along the bytes of a stream.

The byte it decodes is a local variable that nothing initialises: a call finds
there what an earlier use of that storage left behind. What is left behind is a
parameter, one byte for each call. The operand of a push is never extracted.
-/

import EvmBackend.CodeEmitter

namespace EvmBackend

open BigEndian

def singleOpcodes : List StackOpcode :=
  [.STOP, .ADD, .MUL, .SUB, .DIV, .SDIV, .MOD, .SMOD, .ADDMOD, .MULMOD, .EXP, .SIGNEXTEND,
    .LT, .GT, .SLT, .SGT, .EQ, .ISZERO, .AND, .OR, .XOR, .NOT,
    .SHL, .SHR, .SAR, .ROL, .ROR, .BYTE, .SHA3,
    .ADDRESS, .BALANCE, .ORIGIN, .CALLER, .CALLVALUE, .CALLDATALOAD, .CALLDATASIZE, .CALLDATACOPY,
    .CODESIZE, .CODECOPY, .GASPRICE, .EXTCODESIZE, .EXTCODECOPY, .RETURNDATASIZE, .RETURNDATACOPY,
    .BLOCKHASH, .COINBASE, .TIMESTAMP, .NUMBER, .DIFFICULTY, .GASLIMIT,
    .POP, .MLOAD, .MSTORE, .MSTORE8, .SLOAD, .SSTORE, .JUMP, .JUMPI, .GETPC, .MSIZE, .GAS, .JUMPDEST,
    .JUMPTO, .JUMPSUB, .BEGINSUB, .RETURNSUB,
    .CREATE, .CALL, .CALLNODE, .RETURN, .DELEGATECALL, .CREATE2, .STATICCALL, .REVERT, .INVALID,
    .SELFDESTRUCT]

def stackOpcodes : List StackOpcode :=
  singleOpcodes ++ (List.finRange 32).map .PUSH ++ (List.finRange 16).map .DUP ++
    (List.finRange 16).map .SWAP

/-- The table generated from the target description: the stack-form
instruction with that byte. -/
def decoderTable8 (insn : Byte) : Option StackOpcode :=
  stackOpcodes.find? fun opcode => getBinaryCodeForInstr opcode == insn.toNat

/-! ### Calls of the disassembler -/

def extractPushOperand (_bytes : List Byte) (_length : Nat) : Option (BitVec 256) := none

/-- The instruction and its size, if the call succeeds. The bytes are only
handed on to the extraction of an operand. -/
def getInstruction (insn : Byte) (bytes : List Byte) : Option (MCInst × Nat) :=
  match decoderTable8 insn with
  | none => none
  | some (.PUSH index) =>
      (extractPushOperand bytes (index + 1)).map fun value =>
        (⟨.PUSH index, [.cimm value]⟩, 1 + (index + 1))
  | some opcode => some (⟨opcode, []⟩, 1)

/-- Repeated calls, each time advancing by the size returned; `insn` gives what
each call finds in its local. -/
def disassembleFrom (insn : Nat → Byte) : Nat → Nat → List Byte → Option (List MCInst)
  | _, _, [] => some []
  | 0, _, _ :: _ => none
  | fuel + 1, call, bytes => do
      let (inst, size) ← getInstruction (insn call) bytes
      if size ≤ bytes.length then
        let later ← disassembleFrom insn fuel (call + 1) (bytes.drop size)
        some (inst :: later)
      else none

def disassemble (insn : Nat → Byte) (bytes : List Byte) : Option (List MCInst) :=
  disassembleFrom insn bytes.length 0 bytes

def MCOperand.immediate? : MCOperand → Option Int
  | .imm value => some value.toInt
  | .cimm value => some value.toNat
  | .expr _ => none

structure SameInstruction (inst decoded : MCInst) : Prop where
  opcode : inst.opcode = decoded.opcode
  operands : inst.operands.map MCOperand.immediate? = decoded.operands.map MCOperand.immediate?

/-- Every call succeeds, all bytes are consumed and the instructions come back. -/
def RoundTrips (insn : Nat → Byte) (insts : List MCInst) (bytes : List Byte) : Prop :=
  ∃ decoded, disassemble insn bytes = some decoded ∧ List.Forall₂ SameInstruction insts decoded

def LeftBehind (insn : Byte) (inst : MCInst) : Prop :=
  inst.opcode.dataSize = 0 ∧ inst.operands = [] ∧ insn.toNat = getBinaryCodeForInstr inst.opcode

instance (insn : Byte) (inst : MCInst) : Decidable (LeftBehind insn inst) :=
  inferInstanceAs (Decidable (_ ∧ _ ∧ _))

variable {insn : Byte} {bytes : List Byte}

theorem decoderTable8_eq_some {opcode : StackOpcode} (decoded : decoderTable8 insn = some opcode) :
    insn.toNat = getBinaryCodeForInstr opcode := by
  have same := List.find?_some decoded
  exact (beq_iff_eq.mp same).symm

theorem decoderTable8_of_code {opcode : StackOpcode}
    (code : insn.toNat = getBinaryCodeForInstr opcode) : decoderTable8 insn = some opcode := by
  unfold decoderTable8
  rw [code]
  clear code
  cases opcode with
  | PUSH index | DUP index | SWAP index =>
      revert index
      decide
  | _ => rfl

theorem getInstruction_eq_some {inst : MCInst} {size : Nat}
    (done : getInstruction insn bytes = some (inst, size)) : LeftBehind insn inst ∧ size = 1 := by
  unfold getInstruction at done
  split at done
  · cases done
  · cases done
  · rename_i opcode notPush decoded
    cases done
    refine ⟨⟨?_, rfl, decoderTable8_eq_some decoded⟩, rfl⟩
    cases opcode with
    | PUSH index => exact absurd rfl (notPush index)
    | _ => rfl

theorem getInstruction_of_leftBehind {inst : MCInst} (bytes : List Byte)
    (left : LeftBehind insn inst) : getInstruction insn bytes = some (inst, 1) := by
  obtain ⟨opcode, operands⟩ := inst
  obtain ⟨size, rfl, code⟩ := left
  unfold getInstruction
  rw [decoderTable8_of_code code]
  cases opcode with
  | PUSH index => cases size
  | _ => rfl

theorem disassembleFrom_cons {insn : Nat → Byte} {fuel call : Nat} {byte : Byte}
    {rest : List Byte} {decoded : List MCInst} :
    disassembleFrom insn (fuel + 1) call (byte :: rest) = some decoded ↔
      ∃ inst others, LeftBehind (insn call) inst ∧
        disassembleFrom insn fuel (call + 1) rest = some others ∧ decoded = inst :: others := by
  constructor
  · intro read
    obtain ⟨⟨inst, size⟩, called, read⟩ := Option.bind_eq_some_iff.mp read
    obtain ⟨left, rfl⟩ := getInstruction_eq_some called
    change (if 1 ≤ rest.length + 1 then _ else none) = some decoded at read
    rw [if_pos (by omega)] at read
    obtain ⟨others, remaining, same⟩ := Option.bind_eq_some_iff.mp read
    exact ⟨inst, others, left, remaining, (Option.some.inj same).symm⟩
  · rintro ⟨inst, others, left, remaining, rfl⟩
    simp [disassembleFrom, getInstruction_of_leftBehind _ left, remaining]

private theorem roundTripsFrom_iff (insn : Nat → Byte) {insts : List MCInst} {fuel : Nat}
    (call : Nat) (written : encodeStream insts = some bytes) (enough : bytes.length ≤ fuel) :
    (∃ decoded, disassembleFrom insn fuel call bytes = some decoded ∧
      List.Forall₂ SameInstruction insts decoded) ↔
      ∀ place inst, insts[place]? = some inst → LeftBehind (insn (call + place)) inst := by
  -- induction on the instructions; a call that succeeds leaves the next one its own bytes
  induction insts generalizing bytes fuel call with
  | nil =>
      cases written
      constructor
      · intro _ place inst found
        cases found
      · intro _
        refine ⟨[], ?_, .nil⟩
        cases fuel <;> rfl
  | cons inst rest ih =>
      obtain ⟨encoded, accepted, written⟩ := Option.bind_eq_some_iff.mp written
      obtain ⟨later, writtenLater, written⟩ := Option.bind_eq_some_iff.mp written
      obtain ⟨data, opened, size, _⟩ := encodeInstruction_eq_some accepted
      obtain rfl := Option.some.inj written
      rw [opened, List.cons_append] at enough ⊢
      rw [List.length_cons, List.length_append] at enough
      obtain ⟨fuel, rfl⟩ := Nat.exists_eq_succ_of_ne_zero (n := fuel) (by omega)
      have tail : (∃ decoded, disassembleFrom insn fuel (call + 1) later = some decoded ∧
          List.Forall₂ SameInstruction rest decoded) ↔
          ∀ place inst, rest[place]? = some inst → LeftBehind (insn (call + 1 + place)) inst :=
        ih (call + 1) writtenLater (by omega)
      constructor
      · rintro ⟨decoded, read, same⟩
        obtain ⟨first, others, left, remaining, rfl⟩ := disassembleFrom_cons.mp read
        cases same with
        | cons sameFirst sameRest =>
            have opcode := sameFirst.opcode
            have none : data = [] := by
              rw [← List.length_eq_zero_iff, size, opcode]
              exact left.1
            have operands : inst.operands = [] := by
              have mapped := sameFirst.operands
              rw [left.2.1] at mapped
              exact List.map_eq_nil_iff.mp mapped
            subst data
            intro place other found
            cases place with
            | zero =>
                obtain rfl := Option.some.inj found
                exact ⟨size.symm, operands, opcode ▸ left.2.2⟩
            | succ place =>
                have shifted := tail.mp ⟨others, remaining, sameRest⟩ place other found
                rwa [Nat.add_assoc, Nat.add_comm 1 place] at shifted
      · intro every
        have left : LeftBehind (insn call) inst := every 0 inst rfl
        have none : data = [] := List.length_eq_zero_iff.mp (size.trans left.1)
        subst data
        have shifted : ∀ place other, rest[place]? = some other →
            LeftBehind (insn (call + 1 + place)) other := by
          intro place other found
          rw [Nat.add_assoc, Nat.add_comm 1 place]
          exact every (place + 1) other found
        obtain ⟨others, remaining, sameRest⟩ := tail.mpr shifted
        exact ⟨inst :: others, disassembleFrom_cons.mpr ⟨inst, others, left, remaining, rfl⟩,
          .cons ⟨rfl, rfl⟩ sameRest⟩

/-- A stream comes back exactly when it has no push and every call finds the
byte of its instruction in the local by chance. -/
theorem roundTrips_iff_leftBehind {insn : Nat → Byte} {insts : List MCInst}
    (written : encodeStream insts = some bytes) :
    RoundTrips insn insts bytes ↔
      ∀ place inst, insts[place]? = some inst → LeftBehind (insn place) inst := by
  have whole := roundTripsFrom_iff insn 0 written (Nat.le_refl _)
  simp only [Nat.zero_add] at whole
  exact whole

/-- Two instructions for which the local holds their bytes. -/
theorem popStop_roundTrips :
    encodeStream [⟨.POP, []⟩, ⟨.STOP, []⟩] = some [0x50, 0x00] ∧
      RoundTrips (fun call => if call = 0 then 0x50 else 0x00) [⟨.POP, []⟩, ⟨.STOP, []⟩]
        [0x50, 0x00] := by
  have written : encodeStream [⟨.POP, []⟩, ⟨.STOP, []⟩] = some [0x50, 0x00] := by decide
  refine ⟨written, (roundTrips_iff_leftBehind written).mpr fun place inst found => ?_⟩
  match place, found with
  | 0, found =>
      obtain rfl := Option.some.inj found
      decide
  | 1, found =>
      obtain rfl := Option.some.inj found
      decide

/-- A push does not come back, whatever the local holds. -/
theorem pushOne_not_roundTrips :
    encodeStream [⟨.PUSH 0, [.imm 1]⟩] = some [0x60, 0x01] ∧
      ∀ insn, ¬ RoundTrips insn [⟨.PUSH 0, [.imm 1]⟩] [0x60, 0x01] := by
  refine ⟨by decide, fun insn => ?_⟩
  rintro ⟨decoded, read, same⟩
  obtain ⟨first, others, left, _, rfl⟩ := disassembleFrom_cons.mp read
  cases same with
  | cons sameFirst _ =>
      have size := left.1
      rw [← sameFirst.opcode] at size
      cases size

end EvmBackend
