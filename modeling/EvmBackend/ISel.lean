/-
Instruction selection: nodes of the selection DAG over 256-bit values, the
machine nodes that replace them, and the patterns of the target description.

A node has a value where LLVM defines one. The operands of a machine node are
on the stack when its instruction is executed, the first on top.
-/

import EvmBackend.WordOperations

namespace EvmBackend.ISel

open EVM ByteMemory

inductive CondCode
  | SETFALSE | SETOEQ | SETOGT | SETOGE | SETOLT | SETOLE | SETONE | SETO
  | SETUO | SETUEQ | SETUGT | SETUGE | SETULT | SETULE | SETUNE | SETTRUE
  | SETFALSE2 | SETEQ | SETGT | SETGE | SETLT | SETLE | SETNE | SETTRUE2
  deriving DecidableEq, Repr

def CondCode.number (cc : CondCode) : Nat := cc.ctorIdx

/-- What an integer comparison decides; the other codes compare floating-point
values or are folded away. -/
def CondCode.decides : CondCode → Word → Word → Option Bool
  | .SETEQ, left, right => some (left == right)
  | .SETNE, left, right => some (left != right)
  | .SETGT, left, right => some (right.slt left)
  | .SETGE, left, right => some (right.sle left)
  | .SETLT, left, right => some (left.slt right)
  | .SETLE, left, right => some (left.sle right)
  | .SETUGT, left, right => some (right.ult left)
  | .SETUGE, left, right => some (right.ule left)
  | .SETULT, left, right => some (left.ult right)
  | .SETULE, left, right => some (left.ule right)
  | _, _, _ => none

inductive ISD
  | add | mul | sub | udiv | sdiv | urem | srem | shl | srl | sra
  deriving DecidableEq, Repr

/-- No value where LLVM leaves the operation undefined: a zero divisor, the
overflow of a signed division, a shift by the width or more. -/
def ISD.value : ISD → Word → Word → Option Word
  | .add, left, right => some (left + right)
  | .mul, left, right => some (left * right)
  | .sub, left, right => some (left - right)
  | .udiv, left, right => if right = 0 then none else some (left / right)
  | .sdiv, left, right =>
      if right = 0 ∨ (left = BitVec.intMin 256 ∧ right = -1) then none else some (left.sdiv right)
  | .urem, left, right => if right = 0 then none else some (left % right)
  | .srem, left, right =>
      if right = 0 ∨ (left = BitVec.intMin 256 ∧ right = -1) then none else some (left.srem right)
  | .shl, left, right => if right.toNat < 256 then some (left <<< right.toNat) else none
  | .srl, left, right => if right.toNat < 256 then some (left >>> right.toNat) else none
  | .sra, left, right => if right.toNat < 256 then some (left.sshiftRight right.toNat) else none

inductive SDNode
  | src (number : Nat)
  | constant (value : Word)
  | binary (operator : ISD) (left right : SDNode)
  | setcc (left right : SDNode) (cc : CondCode)
  deriving DecidableEq, Repr

/-- The value of a node for the values of its sources; a comparison is 0 or 1. -/
def SDNode.value (sources : Nat → Word) : SDNode → Option Word
  | .src number => some (sources number)
  | .constant value => some value
  | .binary operator left right => do
      let first ← left.value sources
      let second ← right.value sources
      operator.value first second
  | .setcc left right cc => do
      let first ← left.value sources
      let second ← right.value sources
      (cc.decides first second).map truth

/-- Register-form instructions over their operands; `push` is PUSH32_r. -/
inductive MachineNode
  | src (number : Nat)
  | push (value : Word)
  | unary (opcode : StackOpcode) (first : MachineNode)
  | binary (opcode : StackOpcode) (first second : MachineNode)
  | ternary (opcode : StackOpcode) (first second third : MachineNode)
  deriving DecidableEq, Repr

/-- The word an instruction leaves in place of its operands. -/
def resultOf (opcode : StackOpcode) (operands : List Word) (memory : Memory) : Option Word := do
  match ← performOpcode opcode operands memory with
  | ([result], _) => some result
  | _ => none

def MachineNode.value (sources : Nat → Word) (memory : Memory) : MachineNode → Option Word
  | .src number => some (sources number)
  | .push value => some value
  | .unary opcode first => do
      resultOf opcode [← first.value sources memory] memory
  | .binary opcode first second => do
      resultOf opcode [← first.value sources memory, ← second.value sources memory] memory
  | .ternary opcode first second third => do
      resultOf opcode [← first.value sources memory, ← second.value sources memory,
        ← third.value sources memory] memory

def directComparisons : List (CondCode × StackOpcode) :=
  [(.SETEQ, .EQ), (.SETLT, .SLT), (.SETGT, .SGT), (.SETULT, .LT), (.SETUGT, .GT)]

def negatedComparisons : List (CondCode × StackOpcode) :=
  [(.SETNE, .EQ), (.SETLE, .SGT), (.SETGE, .SLT), (.SETULE, .GT), (.SETUGE, .LT)]

section Comparisons

variable {cc : CondCode} {opcode : StackOpcode} {left right : Word} {holds : Bool}

theorem resultOf_direct (memory : Memory) (member : (cc, opcode) ∈ directComparisons)
    (decided : cc.decides left right = some holds) :
    resultOf opcode [left, right] memory = some (truth holds) := by
  simp only [directComparisons, List.mem_cons, List.not_mem_nil, or_false, Prod.mk.injEq] at member
  rcases member with ⟨rfl, rfl⟩ | ⟨rfl, rfl⟩ | ⟨rfl, rfl⟩ | ⟨rfl, rfl⟩ | ⟨rfl, rfl⟩ <;>
    cases decided <;> rfl

theorem resultOf_negated (memory : Memory) (member : (cc, opcode) ∈ negatedComparisons)
    (decided : cc.decides left right = some holds) :
    resultOf opcode [left, right] memory = some (truth (!holds)) := by
  simp only [negatedComparisons, List.mem_cons, List.not_mem_nil, or_false, Prod.mk.injEq] at member
  rcases member with ⟨rfl, rfl⟩ | ⟨rfl, rfl⟩ | ⟨rfl, rfl⟩ | ⟨rfl, rfl⟩ | ⟨rfl, rfl⟩ <;> cases decided
  · rw [bne, Bool.not_not]
    rfl
  · rw [BitVec.sle_eq_not_slt, Bool.not_not]
    rfl
  · rw [BitVec.sle_eq_not_slt, Bool.not_not]
    rfl
  · rw [BitVec.ule_eq_not_ult, Bool.not_not]
    rfl
  · rw [BitVec.ule_eq_not_ult, Bool.not_not]
    rfl

theorem resultOf_ISZERO (holds : Bool) (memory : Memory) :
    resultOf .ISZERO [truth holds] memory = some (truth (!holds)) := by
  rw [← truth_beq_zero]
  rfl

end Comparisons

structure Pat where
  source : SDNode
  result : MachineNode
  deriving DecidableEq, Repr

def Inst_1_1 (opcode : StackOpcode) (pattern : SDNode) : Pat :=
  ⟨pattern, .unary opcode (.src 1)⟩

def Inst_2_1 (opcode : StackOpcode) (pattern : SDNode) : Pat :=
  ⟨pattern, .binary opcode (.src 1) (.src 2)⟩

def Inst_3_1 (opcode : StackOpcode) (pattern : SDNode) : Pat :=
  ⟨pattern, .ternary opcode (.src 1) (.src 2) (.src 3)⟩

def BinaryInst (node : ISD) (opcode : StackOpcode) : Pat :=
  Inst_2_1 opcode (.binary node (.src 1) (.src 2))

/-- The amount is the first operand of the instruction and the second of the
node. -/
def ShiftInst (node : ISD) (opcode : StackOpcode) : Pat :=
  Inst_2_1 opcode (.binary node (.src 2) (.src 1))

def ComparisonInst (cond : CondCode) (opcode : StackOpcode) : Pat :=
  Inst_2_1 opcode (.setcc (.src 1) (.src 2) cond)

def Pat.SoundAt (pat : Pat) (sources : Nat → Word) (memory : Memory) : Prop :=
  pat.result.value sources memory = pat.source.value sources

instance (pat : Pat) (sources : Nat → Word) (memory : Memory) :
    Decidable (pat.SoundAt sources memory) :=
  inferInstanceAs (Decidable (_ = _))

def Pat.DefinedAt (pat : Pat) (sources : Nat → Word) : Prop :=
  (pat.source.value sources).isSome

instance (pat : Pat) (sources : Nat → Word) : Decidable (pat.DefinedAt sources) :=
  inferInstanceAs (Decidable (_ = true))

end EvmBackend.ISel
