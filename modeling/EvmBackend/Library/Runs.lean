/-
Partial runs over a list of steps, and the rules for what such a run keeps.

A step either produces the next state or has none; a run stops at the first
step without a successor. Conditions are attached to the state before a step,
so a rule about all runs is proved from what one step does. Nothing here fixes
the state or the steps.
-/

import Mathlib.Logic.Basic

namespace EvmBackend.Runs

variable {State Step : Type*} (step : Step → State → Option State)

/-- Take the steps in order; there is no result once a step has no successor. -/
def run : List Step → State → Option State
  | [], state => some state
  | first :: rest, state => (step first state).bind (run rest)

def EveryStep (condition : Step → State → Prop) : List Step → State → Prop
  | [], _ => True
  | first :: rest, state =>
      condition first state ∧
        ∀ next, step first state = some next → EveryStep condition rest next

/-- Whether a run meets a decidable condition can be computed. -/
instance decidableEveryStep (condition : Step → State → Prop)
    [∀ first state, Decidable (condition first state)] :
    ∀ steps state, Decidable (EveryStep step condition steps state)
  | [], _ => isTrue trivial
  | first :: rest, state =>
      match stepped : step first state with
      | none =>
          decidable_of_iff (condition first state)
            ⟨fun met => ⟨met, fun next same => by rw [stepped] at same; cases same⟩, And.left⟩
      | some next =>
          haveI := decidableEveryStep condition rest next
          decidable_of_iff (condition first state ∧ EveryStep step condition rest next)
            ⟨fun both => ⟨both.1, fun other same => by rw [stepped] at same; cases same; exact both.2⟩,
              fun both => ⟨both.1, both.2 next stepped⟩⟩

@[simp]
theorem run_nil (state : State) : run step [] state = some state := rfl

@[simp]
theorem run_cons (first : Step) (rest : List Step) (state : State) :
    run step (first :: rest) state = (step first state).bind (run step rest) := rfl

theorem run_append (left right : List Step) (state : State) :
    run step (left ++ right) state = (run step left state).bind (run step right) := by
  induction left generalizing state with
  | nil => rfl
  | cons first rest ih =>
      change (step first state).bind (run step (rest ++ right)) =
        ((step first state).bind (run step rest)).bind (run step right)
      rw [Option.bind_assoc]
      congr 1
      funext next
      exact ih next

theorem run_map {Label : Type*} (labels : List Label) (name : Label → Step) (state : State) :
    run step (labels.map name) state = run (fun label => step (name label)) labels state := by
  induction labels generalizing state with
  | nil => rfl
  | cons first rest ih =>
      change (step (name first) state).bind (run step (rest.map name)) = _
      rw [run_cons]
      congr 1
      funext next
      exact ih next

theorem run_flatMap {Label : Type*} (labels : List Label) (expand : Label → List Step)
    (state : State) :
    run step (labels.flatMap expand) state =
      run (fun label => run step (expand label)) labels state := by
  induction labels generalizing state with
  | nil => rfl
  | cons first rest ih =>
      rw [List.flatMap_cons, run_append, run_cons]
      congr 1
      funext next
      exact ih next

theorem run_commutes {change : State → State}
    (each : ∀ first state, step first (change state) = (step first state).map change)
    (steps : List Step) (state : State) :
    run step steps (change state) = (run step steps state).map change := by
  induction steps generalizing state with
  | nil => rfl
  | cons first rest ih =>
      rw [run_cons, run_cons, each]
      cases step first state with
      | none => rfl
      | some next => exact ih next

theorem run_cons_eq_some {first : Step} {rest : List Step} {state last : State}
    (finished : run step (first :: rest) state = some last) :
    ∃ next, step first state = some next ∧ run step rest next = some last :=
  Option.bind_eq_some_iff.mp finished

variable {step}

theorem EveryStep.imp {weak strong : Step → State → Prop} {steps : List Step} {state : State}
    (every : EveryStep step strong steps state)
    (weaken : ∀ first state, strong first state → weak first state) :
    EveryStep step weak steps state := by
  induction steps generalizing state with
  | nil => trivial
  | cons first rest ih =>
      exact ⟨weaken first state every.1, fun next stepped => ih (every.2 next stepped)⟩

theorem EveryStep.and {left right : Step → State → Prop} {steps : List Step} {state : State}
    (everyLeft : EveryStep step left steps state) (everyRight : EveryStep step right steps state) :
    EveryStep step (fun first current => left first current ∧ right first current) steps state := by
  induction steps generalizing state with
  | nil => trivial
  | cons first rest ih =>
      refine ⟨⟨everyLeft.1, everyRight.1⟩, fun next stepped => ?_⟩
      exact ih (everyLeft.2 next stepped) (everyRight.2 next stepped)

theorem everyStep_of_forall {condition : Step → State → Prop} {steps : List Step}
    (each : ∀ first ∈ steps, ∀ state, condition first state) (state : State) :
    EveryStep step condition steps state := by
  induction steps generalizing state with
  | nil => trivial
  | cons first rest ih =>
      refine ⟨each first List.mem_cons_self state, fun next _ => ?_⟩
      exact ih (fun later member => each later (List.mem_cons_of_mem first member)) next

theorem everyStep_append {condition : Step → State → Prop} {left right : List Step}
    {state : State} :
    EveryStep step condition (left ++ right) state ↔
      EveryStep step condition left state ∧
        ∀ middle, run step left state = some middle → EveryStep step condition right middle := by
  induction left generalizing state with
  | nil =>
      constructor
      · intro every
        refine ⟨trivial, fun middle same => ?_⟩
        cases same
        exact every
      · intro both
        exact both.2 state rfl
  | cons first rest ih =>
      constructor
      · rintro ⟨met, later⟩
        refine ⟨⟨met, fun next stepped => (ih.mp (later next stepped)).1⟩, fun middle reached => ?_⟩
        obtain ⟨next, stepped, remaining⟩ := run_cons_eq_some step reached
        exact (ih.mp (later next stepped)).2 middle remaining
      · rintro ⟨⟨met, later⟩, after⟩
        refine ⟨met, fun next stepped => ih.mpr ⟨later next stepped, fun middle reached => ?_⟩⟩
        apply after middle
        rw [run_cons, stepped]
        exact reached

theorem everyStep_iff_reached {condition : Step → State → Prop} {steps : List Step}
    {state : State} :
    EveryStep step condition steps state ↔
      ∀ done first rest middle, steps = done ++ first :: rest →
        run step done state = some middle → condition first middle := by
  induction steps generalizing state with
  | nil =>
      refine ⟨fun _ done first rest middle split => ?_, fun _ => trivial⟩
      cases done <;> cases split
  | cons head tail ih =>
      constructor
      · rintro ⟨met, later⟩ done first rest middle split reached
        cases done with
        | nil =>
            cases split
            cases reached
            exact met
        | cons start done =>
            cases split
            obtain ⟨next, stepped, remaining⟩ := run_cons_eq_some step reached
            exact ih.mp (later next stepped) done first rest middle rfl remaining
      · intro every
        refine ⟨every [] head tail state rfl rfl, fun next stepped => ih.mpr ?_⟩
        rintro done first rest middle rfl reached
        refine every (head :: done) first rest middle rfl ?_
        rw [run_cons, stepped]
        exact reached

theorem run_keeps (Inv : State → Prop)
    (keeps : ∀ first state next, Inv state → step first state = some next → Inv next)
    {steps : List Step} {state last : State} (start : Inv state)
    (finished : run step steps state = some last) : Inv last := by
  induction steps generalizing state with
  | nil =>
      cases finished
      exact start
  | cons first rest ih =>
      obtain ⟨next, stepped, remaining⟩ := run_cons_eq_some step finished
      exact ih (keeps first state next start stepped) remaining

theorem run_keeps_of_everyStep {condition : Step → State → Prop} (Inv : State → Prop)
    (keeps : ∀ first state next, condition first state → Inv state →
      step first state = some next → Inv next)
    {steps : List Step} {state last : State} (every : EveryStep step condition steps state)
    (start : Inv state) (finished : run step steps state = some last) : Inv last := by
  induction steps generalizing state with
  | nil =>
      cases finished
      exact start
  | cons first rest ih =>
      obtain ⟨next, stepped, remaining⟩ := run_cons_eq_some step finished
      exact ih (every.2 next stepped) (keeps first state next every.1 start stepped) remaining

theorem everyStep_of_invariant {condition conclusion : Step → State → Prop}
    (Inv : State → Prop)
    (keeps : ∀ first state next, condition first state → Inv state →
      step first state = some next → Inv next)
    (gives : ∀ first state, condition first state → Inv state → conclusion first state)
    {steps : List Step} {state : State}
    (every : EveryStep step condition steps state) (start : Inv state) :
    EveryStep step conclusion steps state := by
  induction steps generalizing state with
  | nil => trivial
  | cons first rest ih =>
      refine ⟨gives first state every.1 start, fun next stepped => ?_⟩
      exact ih (every.2 next stepped) (keeps first state next every.1 start stepped)

/-- Exactness: a property each step decides through its condition, and that is
never regained once lost, holds at the end exactly when every step met it. -/
theorem run_iff_everyStep {condition : Step → State → Prop} (Frame Good : State → Prop)
    (frame : ∀ first state next, Frame state → step first state = some next → Frame next)
    (decides : ∀ first state next, Frame state → step first state = some next →
      (Good next ↔ Good state ∧ condition first state))
    {steps : List Step} {state last : State} (start : Frame state)
    (finished : run step steps state = some last) :
    Good last ↔ Good state ∧ EveryStep step condition steps state := by
  induction steps generalizing state with
  | nil =>
      cases finished
      exact ⟨fun good => ⟨good, trivial⟩, And.left⟩
  | cons first rest ih =>
      obtain ⟨next, stepped, remaining⟩ := run_cons_eq_some step finished
      rw [ih (frame first state next start stepped) remaining,
        decides first state next start stepped]
      constructor
      · rintro ⟨⟨good, met⟩, later⟩
        refine ⟨good, met, fun other reached => ?_⟩
        rw [stepped] at reached
        cases reached
        exact later
      · rintro ⟨good, met, later⟩
        exact ⟨⟨good, met⟩, later next stepped⟩

/-- Exactness for a property that each step decides anew: it holds after every part of the run exactly when
every step met the condition. -/
theorem every_prefix_iff_everyStep {allowed condition : Step → State → Prop} (Frame Good : State → Prop)
    (decides : ∀ first state, allowed first state → Frame state →
      ∃ next, step first state = some next ∧ Frame next ∧ (Good next ↔ condition first state))
    {steps : List Step} {state : State} (every : EveryStep step allowed steps state) (start : Frame state)
    (good : Good state) :
    (∀ earlier, earlier <+: steps → ∃ last, run step earlier state = some last ∧ Good last) ↔
      EveryStep step condition steps state := by
  induction steps generalizing state with
  | nil =>
      refine ⟨fun _ => trivial, fun _ earlier part => ?_⟩
      rw [List.prefix_nil.mp part]
      exact ⟨state, rfl, good⟩
  | cons first rest ih =>
      obtain ⟨next, stepped, frame, decided⟩ := decides first state every.1 start
      have later := every.2 next stepped
      constructor
      · intro parts
        obtain ⟨last, reached, goodNext⟩ := parts [first] (List.prefix_append [first] rest)
        rw [run_cons, stepped] at reached
        cases reached
        refine ⟨decided.mp goodNext, fun other same => ?_⟩
        rw [stepped] at same
        cases same
        refine (ih later frame goodNext).mp fun earlier part => ?_
        obtain ⟨last, reached, goodLast⟩ := parts (first :: earlier) ((List.prefix_cons_inj first).mpr part)
        rw [run_cons, stepped] at reached
        exact ⟨last, reached, goodLast⟩
      · rintro ⟨met, after⟩ earlier part
        cases earlier with
        | nil => exact ⟨state, rfl, good⟩
        | cons head tail =>
            obtain ⟨rfl, rest⟩ := List.cons_prefix_cons.mp part
            rw [run_cons, stepped]
            exact (ih later frame (decided.mpr met)).mpr (after next stepped) tail rest

theorem run_range {State : Type*} {step : Nat → State → Option State} (Inv : Nat → State → Prop) {count : Nat}
    (keeps : ∀ index < count, ∀ state, Inv index state → ∃ next, step index state = some next ∧
      Inv (index + 1) next)
    {state : State} (start : Inv 0 state) :
      ∃ last, run step (List.range count) state = some last ∧ Inv count last := by
  induction count with
  | zero => exact ⟨state, rfl, start⟩
  | succ count ih =>
      obtain ⟨middle, reached, inv⟩ := ih fun index less => keeps index (Nat.lt_succ_of_lt less)
      obtain ⟨last, stepped, done⟩ := keeps count (Nat.lt_succ_self count) middle inv
      refine ⟨last, ?_, done⟩
      rw [List.range_succ, run_append, reached, Option.bind_some, run_cons, stepped]
      rfl

def both {Left Right : Type*} (left : Step → Left → Option Left)
    (right : Step → Right → Option Right) (first : Step) (pair : Left × Right) :
    Option (Left × Right) :=
  (left first pair.1).bind fun next => (right first pair.2).map (next, ·)

theorem both_eq_some {Left Right : Type*} {left : Step → Left → Option Left}
    {right : Step → Right → Option Right} {first : Step} {pair next : Left × Right} :
    both left right first pair = some next ↔
      left first pair.1 = some next.1 ∧ right first pair.2 = some next.2 := by
  constructor
  · intro done
    obtain ⟨one, stepped, done⟩ := Option.bind_eq_some_iff.mp done
    obtain ⟨two, alsoStepped, rfl⟩ := Option.map_eq_some_iff.mp done
    exact ⟨stepped, alsoStepped⟩
  · rintro ⟨stepped, alsoStepped⟩
    unfold both
    rw [stepped, Option.bind_some, alsoStepped, Option.map_some]

theorem run_both_eq_some {Left Right : Type*} {left : Step → Left → Option Left}
    {right : Step → Right → Option Right} {steps : List Step} {pair last : Left × Right} :
    run (both left right) steps pair = some last ↔
      run left steps pair.1 = some last.1 ∧ run right steps pair.2 = some last.2 := by
  induction steps generalizing pair with
  | nil =>
      rw [run_nil, run_nil, run_nil, Option.some.injEq, Option.some.injEq, Option.some.injEq]
      exact Prod.ext_iff
  | cons first rest ih =>
      constructor
      · intro finished
        obtain ⟨next, stepped, remaining⟩ := run_cons_eq_some _ finished
        obtain ⟨one, two⟩ := both_eq_some.mp stepped
        rw [run_cons, run_cons, one, two]
        exact ih.mp remaining
      · rintro ⟨one, two⟩
        obtain ⟨nextLeft, stepped, remaining⟩ := run_cons_eq_some _ one
        obtain ⟨nextRight, alsoStepped, alsoRemaining⟩ := run_cons_eq_some _ two
        have joint : both left right first pair = some (nextLeft, nextRight) :=
          both_eq_some.mpr ⟨stepped, alsoStepped⟩
        rw [run_cons, joint]
        exact ih.mpr ⟨remaining, alsoRemaining⟩

end EvmBackend.Runs
