/-
Liveness of names over a control-flow graph of straight-line blocks.

A name is live at a point when some path from it reaches a use before passing
a definition. The graph, the instructions and the names are arbitrary; paths
may loop, so liveness at a block is an inductive predicate and not a scan.
-/

import Mathlib.Logic.Basic
import Mathlib.Data.List.Basic

namespace EvmBackend.Liveness

variable {Node Instr Name : Type*}
variable (uses : Instr → List Name) (defined : Instr → Option Name)

/-- A use is met in the code before any definition; an instruction reads its
operands before it writes its result. -/
def Exposed (name : Name) : List Instr → Prop
  | [] => False
  | first :: rest => name ∈ uses first ∨ (defined first ≠ some name ∧ Exposed name rest)

instance decidableExposed [DecidableEq Name] (name : Name) :
    ∀ code : List Instr, Decidable (Exposed uses defined name code)
  | [] => isFalse id
  | first :: rest =>
      haveI := decidableExposed name rest
      inferInstanceAs (Decidable (name ∈ uses first ∨
        (defined first ≠ some name ∧ Exposed uses defined name rest)))

def Untouched (name : Name) (code : List Instr) : Prop :=
  ∀ instr ∈ code, defined instr ≠ some name

variable (body : Node → List Instr) (next : Node → List Node)

/-- Some path from the start of the block reaches a use with no definition before it. -/
inductive LiveIn (name : Name) : Node → Prop
  | here {node : Node} (exposed : Exposed uses defined name (body node)) : LiveIn name node
  | through {node later : Node} (untouched : Untouched defined name (body node))
      (edge : later ∈ next node) (live : LiveIn name later) : LiveIn name node

def LiveBefore (name : Name) (node : Node) (rest : List Instr) : Prop :=
  Exposed uses defined name rest ∨
    (Untouched defined name rest ∧ ∃ later ∈ next node, LiveIn uses defined body next name later)

variable {uses defined body next}

theorem liveIn_iff_liveBefore {name : Name} {node : Node} :
    LiveIn uses defined body next name node ↔
      LiveBefore uses defined body next name node (body node) := by
  constructor
  · intro live
    cases live with
    | here exposed => exact Or.inl exposed
    | through untouched edge later => exact Or.inr ⟨untouched, _, edge, later⟩
  · rintro (exposed | ⟨untouched, later, edge, live⟩)
    · exact .here exposed
    · exact .through untouched edge live

theorem LiveBefore.of_rest {name : Name} {node : Node} {first : Instr} {rest : List Instr}
    (live : LiveBefore uses defined body next name node rest)
    (other : defined first ≠ some name) :
    LiveBefore uses defined body next name node (first :: rest) := by
  rcases live with exposed | ⟨untouched, later⟩
  · exact Or.inl (Or.inr ⟨other, exposed⟩)
  · refine Or.inr ⟨fun instr member => ?_, later⟩
    rcases List.mem_cons.mp member with same | deeper
    · rwa [same]
    · exact untouched instr deeper

theorem Exposed.of_rest {name : Name} {first : Instr} {rest : List Instr}
    (exposed : Exposed uses defined name rest) (other : defined first ≠ some name) :
    Exposed uses defined name (first :: rest) :=
  Or.inr ⟨other, exposed⟩

theorem Exposed.exists_use {name : Name} {code : List Instr}
    (exposed : Exposed uses defined name code) : ∃ instr ∈ code, name ∈ uses instr := by
  induction code with
  | nil => cases exposed
  | cons first rest ih =>
      rcases exposed with used | ⟨_, later⟩
      · exact ⟨first, List.mem_cons_self, used⟩
      · obtain ⟨instr, member, used⟩ := ih later
        exact ⟨instr, List.mem_cons_of_mem first member, used⟩

end EvmBackend.Liveness
