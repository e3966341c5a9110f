/-
The patterns of the shifts, and which of them the matcher takes. The native shifts have
the amount on top. The rewrites for targets without them multiply or divide by the amount
itself; they have the sources of the native shifts and stand behind them in the
description, so no node is ever left for them.
-/

import EvmBackend.ISel.Arithmetic
import Mathlib.Data.List.Sort

namespace EvmBackend.ISel

open EVM ByteMemory

def SHL : Pat := ShiftInst .shl .SHL

def SHR : Pat := ShiftInst .srl .SHR

def SAR : Pat := ShiftInst .sra .SAR

def shlPat : Pat := ⟨.binary .shl (.src 1) (.src 2), .binary .MUL (.src 1) (.src 2)⟩

def srlPat : Pat := ⟨.binary .srl (.src 1) (.src 2), .binary .DIV (.src 1) (.src 2)⟩

def sraPat : Pat := ⟨.binary .sra (.src 1) (.src 2), .binary .SDIV (.src 1) (.src 2)⟩

/-! ### The order of the matcher -/

/-- A pattern with the number of its record; records are numbered as the description
has them. -/
structure PatternToMatch extends Pat where
  ID : Nat
  deriving DecidableEq, Repr

def shiftPatterns : List PatternToMatch :=
  [⟨SHL, 0⟩, ⟨SHR, 1⟩, ⟨SAR, 2⟩, ⟨shlPat, 3⟩, ⟨srlPat, 4⟩, ⟨sraPat, 5⟩]

/-- What a node below the root adds: a source is a leaf without a predicate. -/
def childSize : SDNode → Nat
  | .src _ => 0
  | .constant _ => 5
  | .binary _ left right => 3 + childSize left + childSize right
  | .setcc left right _ => 3 + childSize left + childSize right

def getPatternSize : SDNode → Nat
  | .src _ => 3
  | node => childSize node

def getResultPatternCost : MachineNode → Nat
  | .src _ => 0
  | .push _ => 1
  | .unary _ first => 1 + getResultPatternCost first
  | .binary _ first second => 1 + getResultPatternCost first + getResultPatternCost second
  | .ternary _ first second third =>
      1 + getResultPatternCost first + getResultPatternCost second + getResultPatternCost third

/-- Larger patterns first, then cheaper results, then the order of the description. No
instruction of the target states a code size, and no pattern an added complexity. -/
def PatternSortingPredicate (lhs rhs : PatternToMatch) : Bool :=
  if getPatternSize lhs.source > getPatternSize rhs.source then true
  else if getPatternSize lhs.source < getPatternSize rhs.source then false
  else if getResultPatternCost lhs.result < getResultPatternCost rhs.result then true
  else if getResultPatternCost lhs.result > getResultPatternCost rhs.result then false
  else lhs.ID < rhs.ID

/-- The sources of a pattern that fits a node, with the nodes they stand for. -/
def SDNode.matched : SDNode → SDNode → Option (List (Nat × SDNode))
  | .src number, node => some [(number, node)]
  | .constant value, .constant other => if value = other then some [] else none
  | .binary operator left right, .binary other first second =>
      if operator = other then do return (← left.matched first) ++ (← right.matched second) else none
  | .setcc left right cc, .setcc first second other =>
      if cc = other then do return (← left.matched first) ++ (← right.matched second) else none
  | _, _ => none

def select (patterns : List PatternToMatch) (node : SDNode) : Option (Pat × List (Nat × SDNode)) :=
  (patterns.insertionSort fun lhs rhs => PatternSortingPredicate rhs lhs = false).findSome? fun pattern =>
    (pattern.source.matched node).map (pattern.toPat, ·)

theorem shiftPatterns_sorted :
    (shiftPatterns.insertionSort fun lhs rhs => PatternSortingPredicate rhs lhs = false) = shiftPatterns := by
  decide

def shiftInsts : List (ISD × Pat) := [(.shl, SHL), (.srl, SHR), (.sra, SAR)]

theorem select_shift {operator : ISD} {pat : Pat} (shift : (operator, pat) ∈ shiftInsts) (value amount : SDNode) :
    select shiftPatterns (.binary operator value amount) = some (pat, [(2, value), (1, amount)]) := by
  unfold select
  rw [shiftPatterns_sorted]
  simp only [shiftInsts, List.mem_cons, List.not_mem_nil, or_false, Prod.mk.injEq] at shift
  rcases shift with ⟨rfl, rfl⟩ | ⟨rfl, rfl⟩ | ⟨rfl, rfl⟩ <;> rfl

section Selected

variable {operator : ISD} {pat : Pat} {left right : Word}

theorem shiftInst_value (shift : (operator, pat) ∈ shiftInsts) (small : right.toNat < 256) (memory : Memory)
    {bound : Nat → Word} (atValue : bound 2 = left) (atAmount : bound 1 = right) :
    pat.result.value bound memory = operator.value left right := by
  subst atValue atAmount
  simp only [shiftInsts, List.mem_cons, List.not_mem_nil, or_false, Prod.mk.injEq] at shift
  rcases shift with ⟨rfl, rfl⟩ | ⟨rfl, rfl⟩ | ⟨rfl, rfl⟩
  · change some (shl (bound 1) (bound 2)) = ISD.shl.value (bound 2) (bound 1)
    rw [shl, ISD.value, if_pos small, if_pos small]
  · change some (shr (bound 1) (bound 2)) = ISD.srl.value (bound 2) (bound 1)
    rw [shr, ISD.value, if_pos small, if_pos small]
  · change some (sar (bound 1) (bound 2)) = ISD.sra.value (bound 2) (bound 1)
    rw [sar, ISD.value, if_pos small, if_pos small]

end Selected

/-- What is selected for a shift of any nodes computes LLVM's shift, and it is the native
one. -/
theorem selectedShifts_sound (operator : ISD) (shift : operator ∈ [ISD.shl, .srl, .sra])
    (sources : Nat → Word) (memory : Memory) (value amount : SDNode) {left right : Word}
    (shifted : value.value sources = some left) (by_ : amount.value sources = some right)
    (small : right.toNat < 256) :
    ∃ pat bindings, select shiftPatterns (.binary operator value amount) = some (pat, bindings) ∧
      pat ∈ [SHL, SHR, SAR] ∧
      ∀ bound : Nat → Word, (∀ pair ∈ bindings, pair.2.value sources = some (bound pair.1)) →
        pat.result.value bound memory = (SDNode.binary operator value amount).value sources := by
  obtain ⟨pat, listed⟩ : ∃ pat, (operator, pat) ∈ shiftInsts := by
    simp only [List.mem_cons, List.not_mem_nil, or_false] at shift
    rcases shift with rfl | rfl | rfl
    · exact ⟨SHL, by decide⟩
    · exact ⟨SHR, by decide⟩
    · exact ⟨SAR, by decide⟩
  refine ⟨pat, _, select_shift listed value amount, List.mem_map_of_mem listed (f := Prod.snd), ?_⟩
  intro bound binds
  have atValue : bound 2 = left := by
    have same := binds (2, value) List.mem_cons_self
    exact Option.some.inj (same.symm.trans shifted)
  have atAmount : bound 1 = right := by
    have same := binds (1, amount) (List.mem_cons_of_mem _ List.mem_cons_self)
    exact Option.some.inj (same.symm.trans by_)
  rw [SDNode.value, shifted, by_]
  exact shiftInst_value listed small memory atValue atAmount

/-- `1 << 3` is selected as SHL. -/
theorem selectedShifts_sound_three :
    ∃ pat bindings, select shiftPatterns (.binary .shl (.src 1) (.src 2)) = some (pat, bindings) ∧
      pat ∈ [SHL, SHR, SAR] ∧
      ∀ bound : Nat → Word, (∀ pair ∈ bindings, pair.2.value (threeSources 1 3 0) = some (bound pair.1)) →
        pat.result.value bound (fun _ => 0) = (SDNode.binary .shl (.src 1) (.src 2)).value (threeSources 1 3 0) :=
  selectedShifts_sound .shl (by decide) (threeSources 1 3 0) (fun _ => 0) (.src 1) (.src 2) rfl rfl (by decide)

/-- As a pattern alone the rewrite of `1 << 3` is wrong: MUL gives 3. -/
theorem shlPat_unsound_three :
    ⟨shlPat, 3⟩ ∈ shiftPatterns ∧ shlPat.DefinedAt (threeSources 1 3 0) ∧
      ¬ shlPat.SoundAt (threeSources 1 3 0) (fun _ => 0) := by
  decide

end EvmBackend.ISel
