/-
The stack-form instructions of the target description with the byte each is
given there, and the opcode table of the machine that runs them.

The members of a numbered family (PUSHn, DUPn, SWAPn) are one constructor with
an index from zero. The machine's table is that of the Yellow Paper; what an
instruction of the description is meant to be is decided by its name alone.
-/

import EvmBackend.Library.BigEndian
import EvmBackend.Machine

namespace EvmBackend

open BigEndian

inductive StackOpcode
  | STOP | ADD | MUL | SUB | DIV | SDIV | MOD | SMOD | ADDMOD | MULMOD | EXP | SIGNEXTEND
  | LT | GT | SLT | SGT | EQ | ISZERO | AND | OR | XOR | NOT
  | SHL | SHR | SAR | ROL | ROR | BYTE | SHA3
  | ADDRESS | BALANCE | ORIGIN | CALLER | CALLVALUE | CALLDATALOAD | CALLDATASIZE | CALLDATACOPY
  | CODESIZE | CODECOPY | GASPRICE | EXTCODESIZE | EXTCODECOPY | RETURNDATASIZE | RETURNDATACOPY
  | BLOCKHASH | COINBASE | TIMESTAMP | NUMBER | DIFFICULTY | GASLIMIT
  | POP | MLOAD | MSTORE | MSTORE8 | SLOAD | SSTORE | JUMP | JUMPI | GETPC | MSIZE | GAS | JUMPDEST
  | PUSH (index : Fin 32) | DUP (index : Fin 16) | SWAP (index : Fin 16)
  | JUMPTO | JUMPSUB | BEGINSUB | RETURNSUB
  | CREATE | CALL | CALLNODE | RETURN | DELEGATECALL | CREATE2 | STATICCALL | REVERT | INVALID
  | SELFDESTRUCT
  deriving DecidableEq, Repr

def getBinaryCodeForInstr : StackOpcode → Nat
  | .STOP => 0x00
  | .ADD => 0x01
  | .MUL => 0x02
  | .SUB => 0x03
  | .DIV => 0x04
  | .SDIV => 0x05
  | .MOD => 0x06
  | .SMOD => 0x07
  | .ADDMOD => 0x08
  | .MULMOD => 0x09
  | .EXP => 0x0a
  | .SIGNEXTEND => 0x0b
  | .LT => 0x10
  | .GT => 0x11
  | .SLT => 0x12
  | .SGT => 0x13
  | .EQ => 0x14
  | .ISZERO => 0x15
  | .AND => 0x16
  | .OR => 0x17
  | .XOR => 0x18
  | .NOT => 0x19
  | .SHL => 0x1b
  | .SHR => 0x1c
  | .SAR => 0x1d
  | .ROL => 0x1e
  | .ROR => 0x1f
  | .BYTE => 0x20
  | .SHA3 => 0x21
  | .ADDRESS => 0x30
  | .BALANCE => 0x31
  | .ORIGIN => 0x32
  | .CALLER => 0x33
  | .CALLVALUE => 0x34
  | .CALLDATALOAD => 0x35
  | .CALLDATASIZE => 0x36
  | .CALLDATACOPY => 0x37
  | .CODESIZE => 0x38
  | .CODECOPY => 0x39
  | .GASPRICE => 0x3a
  | .EXTCODESIZE => 0x3b
  | .EXTCODECOPY => 0x3c
  | .RETURNDATASIZE => 0x3d
  | .RETURNDATACOPY => 0x3e
  | .BLOCKHASH => 0x40
  | .COINBASE => 0x41
  | .TIMESTAMP => 0x42
  | .NUMBER => 0x43
  | .DIFFICULTY => 0x44
  | .GASLIMIT => 0x45
  | .POP => 0x50
  | .MLOAD => 0x51
  | .MSTORE => 0x52
  | .MSTORE8 => 0x53
  | .SLOAD => 0x54
  | .SSTORE => 0x55
  | .JUMP => 0x56
  | .JUMPI => 0x57
  | .GETPC => 0x58
  | .MSIZE => 0x59
  | .GAS => 0x5a
  | .JUMPDEST => 0x5b
  | .PUSH index => 0x60 + index
  | .DUP index => 0x80 + index
  | .SWAP index => 0x90 + index
  | .JUMPTO => 0xb0
  | .JUMPSUB => 0xb3
  | .BEGINSUB => 0xb5
  | .RETURNSUB => 0xb7
  | .CREATE => 0xf0
  | .CALL => 0xf1
  | .CALLNODE => 0xf2
  | .RETURN => 0xf3
  | .DELEGATECALL => 0xf4
  | .CREATE2 => 0xf5
  | .STATICCALL => 0xfa
  | .REVERT => 0xfd
  | .INVALID => 0xfe
  | .SELFDESTRUCT => 0xff

inductive Operation
  | STOP | ADD | MUL | SUB | DIV | SDIV | MOD | SMOD | ADDMOD | MULMOD | EXP | SIGNEXTEND
  | LT | GT | SLT | SGT | EQ | ISZERO | AND | OR | XOR | NOT | BYTE | SHL | SHR | SAR | KECCAK256
  | ADDRESS | BALANCE | ORIGIN | CALLER | CALLVALUE | CALLDATALOAD | CALLDATASIZE | CALLDATACOPY
  | CODESIZE | CODECOPY | GASPRICE | EXTCODESIZE | EXTCODECOPY | RETURNDATASIZE | RETURNDATACOPY
  | EXTCODEHASH | BLOCKHASH | COINBASE | TIMESTAMP | NUMBER | DIFFICULTY | GASLIMIT | CHAINID
  | SELFBALANCE
  | POP | MLOAD | MSTORE | MSTORE8 | SLOAD | SSTORE | JUMP | JUMPI | PC | MSIZE | GAS | JUMPDEST
  | PUSH (index : Fin 32) | DUP (index : Fin 16) | SWAP (index : Fin 16) | LOG (topics : Fin 5)
  | CREATE | CALL | CALLCODE | RETURN | DELEGATECALL | CREATE2 | STATICCALL | REVERT | INVALID
  | SELFDESTRUCT
  deriving DecidableEq, Repr

/-- The table of the Yellow Paper outside the numbered families. -/
def singleOperation : Nat → Option Operation
  | 0x00 => some .STOP
  | 0x01 => some .ADD
  | 0x02 => some .MUL
  | 0x03 => some .SUB
  | 0x04 => some .DIV
  | 0x05 => some .SDIV
  | 0x06 => some .MOD
  | 0x07 => some .SMOD
  | 0x08 => some .ADDMOD
  | 0x09 => some .MULMOD
  | 0x0a => some .EXP
  | 0x0b => some .SIGNEXTEND
  | 0x10 => some .LT
  | 0x11 => some .GT
  | 0x12 => some .SLT
  | 0x13 => some .SGT
  | 0x14 => some .EQ
  | 0x15 => some .ISZERO
  | 0x16 => some .AND
  | 0x17 => some .OR
  | 0x18 => some .XOR
  | 0x19 => some .NOT
  | 0x1a => some .BYTE
  | 0x1b => some .SHL
  | 0x1c => some .SHR
  | 0x1d => some .SAR
  | 0x20 => some .KECCAK256
  | 0x30 => some .ADDRESS
  | 0x31 => some .BALANCE
  | 0x32 => some .ORIGIN
  | 0x33 => some .CALLER
  | 0x34 => some .CALLVALUE
  | 0x35 => some .CALLDATALOAD
  | 0x36 => some .CALLDATASIZE
  | 0x37 => some .CALLDATACOPY
  | 0x38 => some .CODESIZE
  | 0x39 => some .CODECOPY
  | 0x3a => some .GASPRICE
  | 0x3b => some .EXTCODESIZE
  | 0x3c => some .EXTCODECOPY
  | 0x3d => some .RETURNDATASIZE
  | 0x3e => some .RETURNDATACOPY
  | 0x3f => some .EXTCODEHASH
  | 0x40 => some .BLOCKHASH
  | 0x41 => some .COINBASE
  | 0x42 => some .TIMESTAMP
  | 0x43 => some .NUMBER
  | 0x44 => some .DIFFICULTY
  | 0x45 => some .GASLIMIT
  | 0x46 => some .CHAINID
  | 0x47 => some .SELFBALANCE
  | 0x50 => some .POP
  | 0x51 => some .MLOAD
  | 0x52 => some .MSTORE
  | 0x53 => some .MSTORE8
  | 0x54 => some .SLOAD
  | 0x55 => some .SSTORE
  | 0x56 => some .JUMP
  | 0x57 => some .JUMPI
  | 0x58 => some .PC
  | 0x59 => some .MSIZE
  | 0x5a => some .GAS
  | 0x5b => some .JUMPDEST
  | 0xf0 => some .CREATE
  | 0xf1 => some .CALL
  | 0xf2 => some .CALLCODE
  | 0xf3 => some .RETURN
  | 0xf4 => some .DELEGATECALL
  | 0xf5 => some .CREATE2
  | 0xfa => some .STATICCALL
  | 0xfd => some .REVERT
  | 0xfe => some .INVALID
  | 0xff => some .SELFDESTRUCT
  | _ => none

def familyMember (first count byte : Nat) : Option (Fin count) :=
  if bounds : first ≤ byte ∧ byte - first < count then some ⟨byte - first, bounds.2⟩ else none

def operationAt (byte : Nat) : Option Operation :=
  ((familyMember 0x60 32 byte).map .PUSH).orElse fun _ =>
  ((familyMember 0x80 16 byte).map .DUP).orElse fun _ =>
  ((familyMember 0x90 16 byte).map .SWAP).orElse fun _ =>
  ((familyMember 0xa0 5 byte).map .LOG).orElse fun _ =>
  singleOperation byte

/-- The operation of that name; rotations and static jumps are none of the
machine's. GETPC is the description's name for PC and CALLNODE for CALLCODE. -/
def StackOpcode.meaning : StackOpcode → Option Operation
  | .STOP => some .STOP
  | .ADD => some .ADD
  | .MUL => some .MUL
  | .SUB => some .SUB
  | .DIV => some .DIV
  | .SDIV => some .SDIV
  | .MOD => some .MOD
  | .SMOD => some .SMOD
  | .ADDMOD => some .ADDMOD
  | .MULMOD => some .MULMOD
  | .EXP => some .EXP
  | .SIGNEXTEND => some .SIGNEXTEND
  | .LT => some .LT
  | .GT => some .GT
  | .SLT => some .SLT
  | .SGT => some .SGT
  | .EQ => some .EQ
  | .ISZERO => some .ISZERO
  | .AND => some .AND
  | .OR => some .OR
  | .XOR => some .XOR
  | .NOT => some .NOT
  | .SHL => some .SHL
  | .SHR => some .SHR
  | .SAR => some .SAR
  | .ROL => none
  | .ROR => none
  | .BYTE => some .BYTE
  | .SHA3 => some .KECCAK256
  | .ADDRESS => some .ADDRESS
  | .BALANCE => some .BALANCE
  | .ORIGIN => some .ORIGIN
  | .CALLER => some .CALLER
  | .CALLVALUE => some .CALLVALUE
  | .CALLDATALOAD => some .CALLDATALOAD
  | .CALLDATASIZE => some .CALLDATASIZE
  | .CALLDATACOPY => some .CALLDATACOPY
  | .CODESIZE => some .CODESIZE
  | .CODECOPY => some .CODECOPY
  | .GASPRICE => some .GASPRICE
  | .EXTCODESIZE => some .EXTCODESIZE
  | .EXTCODECOPY => some .EXTCODECOPY
  | .RETURNDATASIZE => some .RETURNDATASIZE
  | .RETURNDATACOPY => some .RETURNDATACOPY
  | .BLOCKHASH => some .BLOCKHASH
  | .COINBASE => some .COINBASE
  | .TIMESTAMP => some .TIMESTAMP
  | .NUMBER => some .NUMBER
  | .DIFFICULTY => some .DIFFICULTY
  | .GASLIMIT => some .GASLIMIT
  | .POP => some .POP
  | .MLOAD => some .MLOAD
  | .MSTORE => some .MSTORE
  | .MSTORE8 => some .MSTORE8
  | .SLOAD => some .SLOAD
  | .SSTORE => some .SSTORE
  | .JUMP => some .JUMP
  | .JUMPI => some .JUMPI
  | .GETPC => some .PC
  | .MSIZE => some .MSIZE
  | .GAS => some .GAS
  | .JUMPDEST => some .JUMPDEST
  | .PUSH index => some (.PUSH index)
  | .DUP index => some (.DUP index)
  | .SWAP index => some (.SWAP index)
  | .JUMPTO => none
  | .JUMPSUB => none
  | .BEGINSUB => none
  | .RETURNSUB => none
  | .CREATE => some .CREATE
  | .CALL => some .CALL
  | .CALLNODE => some .CALLCODE
  | .RETURN => some .RETURN
  | .DELEGATECALL => some .DELEGATECALL
  | .CREATE2 => some .CREATE2
  | .STATICCALL => some .STATICCALL
  | .REVERT => some .REVERT
  | .INVALID => some .INVALID
  | .SELFDESTRUCT => some .SELFDESTRUCT

namespace StackOpcode

def misnumbered : List StackOpcode :=
  [.BYTE, .SHA3, .ROL, .ROR, .JUMPTO, .JUMPSUB, .BEGINSUB, .RETURNSUB]

theorem getBinaryCodeForInstr_lt (opcode : StackOpcode) : getBinaryCodeForInstr opcode < 256 := by
  cases opcode with
  | PUSH index =>
      change 0x60 + index.val < 256
      omega
  | DUP index =>
      change 0x80 + index.val < 256
      omega
  | SWAP index =>
      change 0x90 + index.val < 256
      omega
  | _ => decide

theorem operationAt_PUSH (index : Fin 32) :
    operationAt (getBinaryCodeForInstr (.PUSH index)) = some (.PUSH index) := by
  revert index
  decide

theorem operationAt_DUP (index : Fin 16) :
    operationAt (getBinaryCodeForInstr (.DUP index)) = some (.DUP index) := by
  revert index
  decide

theorem operationAt_SWAP (index : Fin 16) :
    operationAt (getBinaryCodeForInstr (.SWAP index)) = some (.SWAP index) := by
  revert index
  decide

/-- The machine reads the instruction's byte as the operation of that name. -/
def NumberedAsMeant (opcode : StackOpcode) : Prop :=
  ∃ operation, opcode.meaning = some operation ∧
    operationAt (getBinaryCodeForInstr opcode) = some operation

theorem numberedAsMeant_iff (opcode : StackOpcode) :
    opcode.NumberedAsMeant ↔ opcode ∉ misnumbered := by
  cases opcode with
  | PUSH index => exact ⟨fun _ => by simp [misnumbered], fun _ => ⟨_, rfl, operationAt_PUSH index⟩⟩
  | DUP index => exact ⟨fun _ => by simp [misnumbered], fun _ => ⟨_, rfl, operationAt_DUP index⟩⟩
  | SWAP index => exact ⟨fun _ => by simp [misnumbered], fun _ => ⟨_, rfl, operationAt_SWAP index⟩⟩
  | BYTE | SHA3 | ROL | ROR | JUMPTO | JUMPSUB | BEGINSUB | RETURNSUB =>
      refine ⟨fun meant => ?_, fun outside => absurd (by decide) outside⟩
      obtain ⟨operation, named, read⟩ := meant
      cases named <;> cases read
  | _ => exact ⟨fun _ => by decide, fun _ => ⟨_, rfl, rfl⟩⟩

end StackOpcode

end EvmBackend
