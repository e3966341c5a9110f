/-
Dominance in a graph with an entry: one node dominates another if no path from
the entry gets to the other without it.

Paths are taken within a set of nodes, so that a path which avoids a node and a
path at all are read alike. The last part is about a new node that is put on some
of the edges into a node: between the old nodes nothing changes, and what it
dominates is decided by the edges that stay.
-/

import Mathlib.Tactic.Basic

namespace EvmBackend.Dominance

variable {Node : Type*}

/-- A path from the entry leads to the node, and all its nodes are allowed. -/
inductive Reaches (edge : Node → Node → Prop) (allowed : Node → Prop) (entry : Node) : Node → Prop
  | start (free : allowed entry) : Reaches edge allowed entry entry
  | step {node next : Node} (path : Reaches edge allowed entry node) (taken : edge node next)
      (free : allowed next) : Reaches edge allowed entry next

def Reachable (edge : Node → Node → Prop) (entry node : Node) : Prop := Reaches edge (fun _ => True) entry node

def Dominates (edge : Node → Node → Prop) (entry above below : Node) : Prop :=
  ¬Reaches edge (fun node => node ≠ above) entry below

variable {edge : Node → Node → Prop} {allowed more : Node → Prop} {entry above below node : Node}

section

variable (path : Reaches edge allowed entry node)

include path

theorem Reaches.mono (weaken : ∀ other, allowed other → more other) :
    Reaches edge more entry node := by
  induction path with
  | start free => exact .start (weaken _ free)
  | step _ taken free ih => exact .step ih taken (weaken _ free)

theorem Reaches.reachable : Reachable edge entry node :=
  path.mono fun _ _ => trivial

theorem Reaches.free : allowed node := by
  cases path with
  | start free => exact free
  | step _ _ free => exact free

theorem Reaches.avoids_or_meets (other : Node) :
    Reaches edge (fun step => allowed step ∧ step ≠ other) entry node ∨ Reaches edge allowed entry other := by
  induction path with
  | start free =>
      by_cases same : entry = other
      · exact .inr (same ▸ .start free)
      · exact .inl (.start ⟨free, same⟩)
  | @step last next path taken free ih =>
      rcases ih with avoids | meets
      · by_cases same : next = other
        · exact .inr (same ▸ .step path taken free)
        · exact .inl (.step avoids taken ⟨free, same⟩)
      · exact .inr meets

theorem Reaches.first (differs : entry ≠ node) :
    ∃ last, edge last node ∧ Reaches edge (fun step => allowed step ∧ step ≠ node) entry last := by
  have either : ∀ other, Reaches edge allowed entry other →
      Reaches edge (fun step => allowed step ∧ step ≠ node) entry other ∨
        ∃ last, edge last node ∧ Reaches edge (fun step => allowed step ∧ step ≠ node) entry last := by
    intro other there
    induction there with
    | start free => exact .inl (.start ⟨free, differs⟩)
    | @step last next _ taken free ih =>
        rcases ih with avoids | found
        · by_cases same : next = node
          · exact .inr ⟨last, same ▸ taken, avoids⟩
          · exact .inl (.step avoids taken ⟨free, same⟩)
        · exact .inr found
  rcases either node path with avoids | found
  · exact absurd rfl avoids.free.2
  · exact found

end

theorem dominates_self (node : Node) : Dominates edge entry node node := fun path => path.free rfl

theorem dominates_entry : Dominates edge entry above entry ↔ above = entry := by
  constructor
  · intro dominates
    exact Classical.byContradiction fun differs => dominates (.start fun same => differs same.symm)
  · intro same
    rw [same]
    exact dominates_self entry

theorem dominates_of_predecessors (differs : entry ≠ below)
    (each : ∀ last, edge last below → Reaches edge (fun step => step ≠ below) entry last →
      Dominates edge entry above last) : Dominates edge entry above below := by
  intro path
  obtain ⟨last, taken, before⟩ := path.first differs
  exact each last taken (before.mono fun _ both => both.2) (before.mono fun _ both => both.1)

theorem Dominates.of_successor {last : Node} (dominates : Dominates edge entry above below)
    (taken : edge last below)
    (differs : above ≠ below) : Dominates edge entry above last :=
  fun path => dominates (.step path taken fun same => differs same.symm)

/-! ### Edges that are split -/

structure SplitsEdges (edge next : Node → Node → Prop) (moved rest : Node → Prop) (new succ : Node) : Prop where
  old : ∀ node, edge node succ ↔ moved node ∨ rest node
  intoNew : ∀ node, next node new ↔ moved node
  intoSucc : ∀ node, next node succ ↔ node = new ∨ rest node
  others : ∀ node other, other ≠ new → other ≠ succ → (next node other ↔ edge node other)
  fresh : ∀ node other, edge node other → node ≠ new ∧ other ≠ new
  apart : new ≠ succ

section Split

variable {next : Node → Node → Prop} {moved rest : Node → Prop} {new succ : Node}

section

variable (split : SplitsEdges edge next moved rest new succ)

include split

theorem SplitsEdges.reaches_iff (free : allowed new)
    (started : entry ≠ new) (old : node ≠ new) :
    Reaches next allowed entry node ↔ Reaches edge allowed entry node := by
  constructor
  · intro path
    have both : ∀ other, Reaches next allowed entry other →
        (other ≠ new → Reaches edge allowed entry other) ∧
          (other = new → ∃ last, moved last ∧ Reaches edge allowed entry last) := by
      intro other there
      induction there with
      | start free => exact ⟨fun _ => .start free, fun same => absurd same started⟩
      | @step last target path taken allows ih =>
          refine ⟨fun old => ?_, fun same => ?_⟩
          · by_cases isSucc : target = succ
            · subst isSucc
              rcases (split.intoSucc last).mp taken with same | stays
              · obtain ⟨source, moves, there⟩ := ih.2 same
                exact .step there ((split.old source).mpr (.inl moves)) allows
              · have taken := (split.old last).mpr (.inr stays)
                exact .step (ih.1 (split.fresh _ _ taken).1) taken allows
            · have taken := (split.others last target old isSucc).mp taken
              exact .step (ih.1 (split.fresh _ _ taken).1) taken allows
          · have moves := (split.intoNew last).mp (same ▸ taken)
            have taken := (split.old last).mpr (.inl moves)
            exact ⟨last, moves, ih.1 (split.fresh _ _ taken).1⟩
    exact (both node path).1 old
  · intro path
    clear old
    induction path with
    | start free => exact .start free
    | @step last target path taken allows ih =>
        by_cases isSucc : target = succ
        · subst isSucc
          rcases (split.old last).mp taken with moves | stays
          · exact .step (.step ih ((split.intoNew last).mpr moves) free)
              ((split.intoSucc new).mpr (.inl rfl)) allows
          · exact .step ih ((split.intoSucc last).mpr (.inr stays)) allows
        · exact .step ih ((split.others last target (split.fresh _ _ taken).2 isSucc).mpr taken) allows

theorem SplitsEdges.reaches_new (free : allowed new)
    (started : entry ≠ new) :
    Reaches next allowed entry new ↔ ∃ last, moved last ∧ Reaches edge allowed entry last := by
  have old {last : Node} (moves : moved last) : last ≠ new :=
    (split.fresh _ _ ((split.old last).mpr (.inl moves))).1
  constructor
  · intro path
    cases path with
    | start => exact absurd rfl started
    | @step last _ path taken =>
        have moves := (split.intoNew last).mp taken
        exact ⟨last, moves, (split.reaches_iff free started (old moves)).mp path⟩
  · rintro ⟨last, moves, path⟩
    exact .step ((split.reaches_iff free started (old moves)).mpr path) ((split.intoNew last).mpr moves) free

theorem SplitsEdges.around_new (started : entry ≠ new)
    (path : Reaches edge (fun step => step ≠ succ) entry node) :
      Reaches next (fun step => step ≠ new) entry node := by
  induction path with
  | start => exact .start started
  | @step last target _ taken differs ih =>
      have old := (split.fresh _ _ taken).2
      exact .step ih ((split.others last target old differs).mpr taken) old

theorem SplitsEdges.around_succ (entered : entry ≠ succ)
    (path : Reaches next (fun step => step ≠ new) entry node) :
    Reaches edge (fun step => step ≠ succ) entry node ∨
      ∃ last, rest last ∧ Reaches edge (fun step => step ≠ succ) entry last := by
  induction path with
  | start => exact .inl (.start entered)
  | @step last target path taken old ih =>
      rcases ih with around | found
      · by_cases isSucc : target = succ
        · subst isSucc
          rcases (split.intoSucc last).mp taken with same | stays
          · exact absurd same path.free
          · exact .inr ⟨last, stays, around⟩
        · exact .inl (.step around ((split.others last target old isSucc).mp taken) isSucc)
      · exact .inr found

theorem SplitsEdges.new_dominates_succ (started : entry ≠ new)
    (entered : entry ≠ succ) :
    Dominates next entry new succ ↔ ∀ last, rest last → Dominates edge entry succ last := by
  constructor
  · intro dominates last stays path
    exact dominates (.step (split.around_new started path) ((split.intoSucc last).mpr (.inr stays))
      split.apart.symm)
  · intro each path
    rcases split.around_succ entered path with around | ⟨last, stays, around⟩
    · exact around.free rfl
    · exact each last stays around

theorem SplitsEdges.new_dominates_iff (started : entry ≠ new)
    (entered : entry ≠ succ) (each : ∀ last, rest last → Dominates edge entry succ last) :
    Dominates next entry new node ↔ Dominates edge entry succ node := by
  constructor
  · intro dominates path
    exact dominates (split.around_new started path)
  · intro dominates path
    rcases split.around_succ entered path with around | ⟨last, stays, around⟩
    · exact dominates around
    · exact each last stays around

theorem SplitsEdges.not_new_dominates (started : entry ≠ new)
    (around : Reaches next (fun step => step ≠ new) entry succ) (path : Reachable edge entry node) :
    ¬Dominates next entry new node := by
  intro dominates
  apply dominates
  clear dominates
  induction path with
  | start => exact .start started
  | @step last target _ taken _ ih =>
      by_cases isSucc : target = succ
      · rw [isSucc]
        exact around
      · have old := (split.fresh _ _ taken).2
        exact .step ih ((split.others last target old isSucc).mpr taken) old

theorem SplitsEdges.dominates_succ_iff
    (entered : entry ≠ succ)
    (each : ∀ last, rest last → Dominates edge entry succ last) (differs : above ≠ succ) :
    Dominates edge entry above succ ↔ ∀ last, moved last → Dominates edge entry above last := by
  constructor
  · intro dominates last moves
    exact dominates.of_successor ((split.old last).mpr (.inl moves)) differs
  · intro all
    refine dominates_of_predecessors entered fun last taken before => ?_
    rcases (split.old last).mp taken with moves | stays
    · exact all last moves
    · exact absurd before (each last stays)

theorem SplitsEdges.not_all_below (entered : entry ≠ succ)
    (each : ∀ last, rest last → Dominates edge entry succ last) (path : Reachable edge entry succ) :
    ¬∀ last, moved last → Dominates edge entry succ last := by
  intro all
  obtain ⟨last, taken, before⟩ := path.first entered
  have around := before.mono fun _ both => both.2
  rcases (split.old last).mp taken with moves | stays
  · exact all last moves around
  · exact each last stays around

end

end Split

end EvmBackend.Dominance
