/-
Programs that change a state and end in one of four ways: with a value, with an
error, with an abort, or with a fault, where what the program does is no longer
defined. The state is kept when a program ends with an error. On its way a
program notes the steps it takes.

A contract is about the executions whose steps are all harmless: none of them
ends with a fault, and one that ends with a value has had each of its steps
served. The rules below follow the way a program is put together.
-/

import Mathlib.Data.List.Basic

namespace EvmBackend.CheckedPrograms

inductive Ending (State Error Abort Fault Value : Type)
  | value (result : Value) (last : State)
  | error (problem : Error) (last : State)
  | abort (reason : Abort)
  | fault (mistake : Fault)
  deriving DecidableEq, Repr

structure Execution (State Error Abort Fault Step Value : Type) where
  steps : List Step
  ending : Ending State Error Abort Fault Value
  deriving DecidableEq, Repr

def Program (State Error Abort Fault Step Value : Type) : Type :=
  State → Execution State Error Abort Fault Step Value

variable {State Error Abort Fault Step Value Other : Type}

namespace Program

def andThen (first : Program State Error Abort Fault Step Value)
    (next : Value → Program State Error Abort Fault Step Other) :
    Program State Error Abort Fault Step Other := fun state =>
  match (first state).ending with
  | .value value middle =>
      ⟨(first state).steps ++ (next value middle).steps, (next value middle).ending⟩
  | .error error last => ⟨(first state).steps, .error error last⟩
  | .abort reason => ⟨(first state).steps, .abort reason⟩
  | .fault fault => ⟨(first state).steps, .fault fault⟩

instance : Monad (Program State Error Abort Fault Step) where
  pure value := fun state => ⟨[], .value value state⟩
  bind := andThen

def current : Program State Error Abort Fault Step State := fun state => ⟨[], .value state state⟩

def change (next : State → State) : Program State Error Abort Fault Step Unit :=
  fun state => ⟨[], .value () (next state)⟩

def note (step : State → Step) : Program State Error Abort Fault Step Unit :=
  fun state => ⟨[step state], .value () state⟩

def throw (error : Error) : Program State Error Abort Fault Step Value :=
  fun state => ⟨[], .error error state⟩

def abort (reason : Abort) : Program State Error Abort Fault Step Value :=
  fun _ => ⟨[], .abort reason⟩

def fault (fault : Fault) : Program State Error Abort Fault Step Value :=
  fun _ => ⟨[], .fault fault⟩

def require (condition : Prop) [Decidable condition] (otherwise : Fault) :
    Program State Error Abort Fault Step Unit :=
  if condition then pure () else fault otherwise

def valueOrFault (otherwise : Fault) (program : Program State Error Abort Fault Step Value) :
    Program State Error Abort Fault Step Value := fun state =>
  match (program state).ending with
  | .error _ _ => ⟨(program state).steps, .fault otherwise⟩
  | _ => program state

end Program

open Program

/-! ### Contracts -/

/-- What is asked of the steps of an execution, and what a value vouches for. -/
structure Terms (Step : Type) where
  harmless : Step → Prop
  served : Step → Prop

def Ending.Sound (served : Prop) (after : Value → State → Prop) (failed : State → Prop) :
    Ending State Error Abort Fault Value → Prop
  | .value result last => served ∧ after result last
  | .error _ last => failed last
  | .abort _ => True
  | .fault _ => False

def Meets (terms : Terms Step) (program : Program State Error Abort Fault Step Value)
    (after : Value → State → Prop) (failed : State → Prop) (state : State) : Prop :=
  (∀ step ∈ (program state).steps, terms.harmless step) →
    (program state).ending.Sound (∀ step ∈ (program state).steps, terms.served step) after failed

section Rules

variable {terms : Terms Step} {state : State}
  {program : Program State Error Abort Fault Step Value}
  {next : Value → Program State Error Abort Fault Step Other}
  {after : Value → State → Prop} {failed : State → Prop}

theorem Ending.sound_imp {served weaker : Prop} {later : Value → State → Prop} {worse : State → Prop}
    {ending : Ending State Error Abort Fault Value} (sound : ending.Sound served after failed)
    (vouched : served → weaker) (finished : ∀ value last, after value last → later value last)
    (stopped : ∀ last, failed last → worse last) : ending.Sound weaker later worse := by
  cases ending with
  | value result last => exact ⟨vouched sound.1, finished result last sound.2⟩
  | error problem last => exact stopped last sound
  | abort reason => trivial
  | fault mistake => exact sound

theorem Meets.imp {later : Value → State → Prop} {worse : State → Prop}
    (meets : Meets terms program after failed state)
    (finished : ∀ value last, after value last → later value last)
    (stopped : ∀ last, failed last → worse last) : Meets terms program later worse state :=
  fun harmless => Ending.sound_imp (meets harmless) id finished stopped

theorem meets_pure {value : Value} (holds : after value state) :
    Meets terms (pure value : Program State Error Abort Fault Step Value) after failed state :=
  fun _ => ⟨fun _ none => absurd none List.not_mem_nil, holds⟩

theorem Meets.bind {later : Other → State → Prop}
    (first : Meets terms program (fun value middle => Meets terms (next value) later failed middle) failed
      state) :
    Meets terms (program >>= next) later failed state := by
  change Meets terms (program.andThen next) later failed state
  intro harmless
  unfold Meets at first
  unfold andThen at harmless ⊢
  cases ended : (program state).ending with
  | value value middle =>
      simp only [ended, List.mem_append] at first harmless ⊢
      obtain ⟨served, second⟩ := first fun step at_ => harmless step (.inl at_)
      refine Ending.sound_imp (second fun step at_ => harmless step (.inr at_)) (fun rest step at_ => ?_)
        (fun _ _ holds => holds) fun _ holds => holds
      rcases at_ with early | late
      · exact served step early
      · exact rest step late
  | error error last =>
      simp only [ended] at first harmless ⊢
      exact first harmless
  | abort reason => trivial
  | fault fault =>
      simp only [ended] at first harmless ⊢
      exact first harmless

theorem meets_current {after : State → State → Prop} (holds : after state state) :
    Meets terms (current : Program State Error Abort Fault Step State) after failed state :=
  fun _ => ⟨fun _ none => absurd none List.not_mem_nil, holds⟩

theorem meets_change {update : State → State} {after : Unit → State → Prop}
    (holds : after () (update state)) :
    Meets terms (change update : Program State Error Abort Fault Step Unit) after failed state :=
  fun _ => ⟨fun _ none => absurd none List.not_mem_nil, holds⟩

theorem meets_note {step : State → Step} {rest : Unit → Program State Error Abort Fault Step Value}
    (goes : terms.harmless (step state) →
      Meets terms (rest ()) (fun value last => terms.served (step state) ∧ after value last) failed state) :
    Meets terms (note step >>= rest) after failed state := by
  change Meets terms ((note step).andThen rest) after failed state
  intro harmless
  unfold andThen note at harmless ⊢
  simp only [List.singleton_append, List.mem_cons] at harmless ⊢
  have sound := goes (harmless _ (.inl rfl)) fun later at_ => harmless later (.inr at_)
  unfold Ending.Sound at sound ⊢
  split at sound
  · refine ⟨fun later at_ => ?_, sound.2.2⟩
    rcases at_ with rfl | late
    · exact sound.2.1
    · exact sound.1 later late
  · exact sound
  · trivial
  · exact sound

theorem meets_current_bind {rest : State → Program State Error Abort Fault Step Value}
    (goes : Meets terms (rest state) after failed state) : Meets terms (current >>= rest) after failed state :=
  Meets.bind (meets_current goes)

theorem meets_change_bind {update : State → State} {rest : Unit → Program State Error Abort Fault Step Value}
    (goes : Meets terms (rest ()) after failed (update state)) :
    Meets terms (change update >>= rest) after failed state :=
  Meets.bind (meets_change goes)

theorem meets_throw {error : Error} (holds : failed state) :
    Meets terms (throw error : Program State Error Abort Fault Step Value) after failed state :=
  fun _ => holds

theorem meets_abort {reason : Abort} :
    Meets terms (abort reason : Program State Error Abort Fault Step Value) after failed state :=
  fun _ => trivial

theorem meets_require {condition : Prop} [Decidable condition] {otherwise : Fault}
    {after : Unit → State → Prop} (met : condition) (holds : after () state) :
    Meets terms (require condition otherwise : Program State Error Abort Fault Step Unit)
      after failed state := by
  unfold require
  rw [if_pos met]
  exact meets_pure holds

theorem meets_require_bind {condition : Prop} [Decidable condition] {otherwise : Fault}
    {rest : Unit → Program State Error Abort Fault Step Value} (met : condition)
    (goes : Meets terms (rest ()) after failed state) :
    Meets terms (require condition otherwise >>= rest) after failed state :=
  Meets.bind (meets_require met goes)

theorem meets_valueOrFault {otherwise : Fault} (meets : Meets terms program after (fun _ => False) state) :
    Meets terms (valueOrFault otherwise program) after failed state := by
  unfold Meets at meets
  unfold Meets valueOrFault
  cases ended : (program state).ending with
  | value | error =>
      simp only [ended] at meets ⊢
      exact meets
  | abort reason =>
      simp only [ended]
      exact fun _ => trivial
  | fault fault =>
      simp only [ended] at meets ⊢
      exact meets

end Rules

/-- The program moves the state along a relation; an error may leave it less far. -/
def Steady (terms : Terms Step) (related stopped : State → State → Prop)
    (program : Program State Error Abort Fault Step Value) (gives : Value → State → Prop)
    (state : State) : Prop :=
  Meets terms program (fun value last => related state last ∧ gives value last) (stopped state) state

section Steady

variable {terms : Terms Step} {related stopped : State → State → Prop} {state : State}
  {program : Program State Error Abort Fault Step Value}
  {next : Value → Program State Error Abort Fault Step Other}
  {gives : Value → State → Prop} {result : Other → State → Prop}

theorem steady_pure {value : Value} (stays : related state state) (holds : gives value state) :
    Steady terms related stopped (pure value : Program State Error Abort Fault Step Value) gives state :=
  meets_pure ⟨stays, holds⟩

theorem Steady.imp {weaker : Value → State → Prop} (steady : Steady terms related stopped program gives state)
    (finished : ∀ value last, related state last → gives value last → weaker value last) :
    Steady terms related stopped program weaker state :=
  Meets.imp steady (fun value last holds => ⟨holds.1, finished value last holds.1 holds.2⟩) fun _ holds => holds

theorem Steady.bind (transitive : ∀ {one two three}, related one two → related two three → related one three)
    (stops : ∀ {one two three}, related one two → stopped two three → stopped one three)
    (first : Steady terms related stopped program gives state)
    (second : ∀ value middle, related state middle → gives value middle →
      Steady terms related stopped (next value) result middle) :
    Steady terms related stopped (program >>= next) result state := by
  refine Meets.bind (Meets.imp first (fun value middle holds => ?_) fun _ holds => holds)
  refine Meets.imp (second value middle holds.1 holds.2) (fun other last reached => ?_) fun last ended => ?_
  · exact ⟨transitive holds.1 reached.1, reached.2⟩
  · exact stops holds.1 ended

theorem steady_throw {error : Error} (stays : stopped state state) :
    Steady terms related stopped (throw error : Program State Error Abort Fault Step Value) gives state :=
  meets_throw stays

theorem steady_abort {reason : Abort} :
    Steady terms related stopped (abort reason : Program State Error Abort Fault Step Value) gives state :=
  meets_abort

end Steady

end EvmBackend.CheckedPrograms
