/-
The classes of edges that merging reaches: two edges are in one set exactly
when a chain of real edges joins them in which neighbours leave one block or
enter one block.

The labels of the collected edges are a relabelling in the sense of the
library, so what remains is which pairs the loop over the blocks merges. The
order of blocks, predecessors and successors only decides the order of those
pairs.
-/

import EvmBackend.EdgeSets
import EvmBackend.Library.Relabelling
import Mathlib.Logic.Equiv.Defs

namespace EvmBackend.EdgeSets

open Relabelling

def SharesEnd (F : MachineFunction) (left right : Edge) : Prop :=
  ∃ source target source' target',
    left = realEdge source target ∧ right = realEdge source' target' ∧
      target ∈ F.successors source ∧ target' ∈ F.successors source' ∧
      (source = source' ∨ target = target')

variable {left right : Edge} {sets : EdgeSets} {G : MachineFunction} {number : Equiv.Perm Nat}

theorem SharesEnd.symm {F : MachineFunction} (shared : SharesEnd F left right) :
    SharesEnd F right left := by
  obtain ⟨source, target, source', target', atLeft, atRight, edge, edge', ends⟩ := shared
  exact ⟨source', target', source, target, atRight, atLeft, edge', edge, ends.imp Eq.symm Eq.symm⟩

instance (F : MachineFunction) : Std.Symm (SharesEnd F) := ⟨fun _ _ => SharesEnd.symm⟩

theorem SharesEnd.collected {F : MachineFunction} (shared : SharesEnd F left right) :
    left ∈ collectEdges F ∧ right ∈ collectEdges F := by
  obtain ⟨source, target, source', target', rfl, rfl, edge, edge', _⟩ := shared
  exact ⟨realEdge_mem_collectEdges edge, realEdge_mem_collectEdges edge'⟩

theorem mergeEdgeSets_getEdgeSetIndex {merged : EdgeSets} {edge1 edge2 : Edge}
    (done : sets.mergeEdgeSets edge1 edge2 = some merged) :
    merged.getEdgeSetIndex =
      merge (sets.getEdgeSetIndex edge1) (sets.getEdgeSetIndex edge2) sets.getEdgeSetIndex := by
  simp only [mergeEdgeSets, Option.bind_eq_bind, Option.bind_eq_some_iff] at done
  obtain ⟨edgeSet1, atFirst, edgeSet2, atSecond, done⟩ := done
  funext edge
  unfold merge
  rw [atFirst, atSecond]
  by_cases same : edgeSet1 = edgeSet2
  · rw [if_pos same] at done
    cases done
    rw [same]
    split
    · assumption
    · rfl
  · rw [if_neg same] at done
    cases done
    unfold getEdgeSetIndex getEdgeIndex
    cases sets.edgeIndex.findIdx? (· == edge) with
    | none => rfl
    | some index =>
        simp only [Option.bind_some, List.getElem?_map]
        cases sets.edgeIndex2EdgeSet[index]? with
        | none => rfl
        | some edgeSet =>
            simp only [Option.map_some, Option.some.injEq]
            split <;> rfl

theorem mergeRun_getEdgeSetIndex {pairs : List (Edge × Edge)} {merged : EdgeSets}
    (done : Runs.run (fun pair sets => sets.mergeEdgeSets pair.1 pair.2) pairs sets = some merged) :
    merged.getEdgeSetIndex = mergeAll pairs sets.getEdgeSetIndex := by
  induction pairs generalizing sets with
  | nil =>
      cases done
      rfl
  | cons first rest ih =>
      obtain ⟨next, merging, later⟩ := Runs.run_cons_eq_some _ done
      rw [ih later, mergeEdgeSets_getEdgeSetIndex merging]
      rfl

variable {F : MachineFunction}

private theorem initial_eq_iff {edges : List Edge} :
    getEdgeSetIndex ⟨edges, List.range edges.length⟩ left =
        getEdgeSetIndex ⟨edges, List.range edges.length⟩ right ↔
      left = right ∨ (left ∉ edges ∧ right ∉ edges) := by
  have number : ∀ edge, getEdgeSetIndex ⟨edges, List.range edges.length⟩ edge =
      edges.findIdx? (· == edge) := by
    intro edge
    unfold getEdgeSetIndex getEdgeIndex
    cases found : edges.findIdx? (· == edge) with
    | none => rfl
    | some index =>
        obtain ⟨within, _⟩ := List.findIdx?_eq_some_iff_getElem.mp found
        simp [within]
  have absent : ∀ edge, edges.findIdx? (· == edge) = none ↔ edge ∉ edges := by
    intro edge
    rw [List.findIdx?_eq_none_iff]
    constructor
    · intro none member
      simpa using none edge member
    · intro missing other member
      simp only [beq_eq_false_iff_ne]
      rintro rfl
      exact missing member
  rw [number, number]
  constructor
  · intro same
    cases found : edges.findIdx? (· == left) with
    | none => exact .inr ⟨(absent left).mp found, (absent right).mp (same ▸ found)⟩
    | some index =>
        obtain ⟨within, isLeft, _⟩ := List.findIdx?_eq_some_iff_getElem.mp found
        obtain ⟨_, isRight, _⟩ := List.findIdx?_eq_some_iff_getElem.mp (same ▸ found)
        exact .inl ((eq_of_beq isLeft).symm.trans (eq_of_beq isRight))
  · rintro (rfl | ⟨missingLeft, missingRight⟩)
    · rfl
    · rw [(absent left).mpr missingLeft, (absent right).mpr missingRight]

private theorem pairsWithFirst_shares {edges : List Edge}
    (each : ∀ left ∈ edges, ∀ right ∈ edges, SharesEnd F left right) {pair : Edge × Edge}
    (member : pair ∈ pairsWithFirst edges) : SharesEnd F pair.1 pair.2 := by
  cases edges with
  | nil => cases member
  | cons first rest =>
      obtain ⟨other, inRest, rfl⟩ := List.mem_map.mp member
      exact each first List.mem_cons_self other (List.mem_cons_of_mem first inRest)

theorem mergePairs_shares {pair : Edge × Edge} (member : pair ∈ mergePairs F) :
    SharesEnd F pair.1 pair.2 := by
  obtain ⟨block, _, inBlock⟩ := List.mem_flatMap.mp member
  rcases List.mem_append.mp inBlock with atTarget | atSource
  · refine pairsWithFirst_shares ?_ atTarget
    intro left inLeft right inRight
    obtain ⟨earlier, isPredecessor, rfl⟩ := List.mem_map.mp inLeft
    obtain ⟨earlier', isPredecessor', rfl⟩ := List.mem_map.mp inRight
    exact ⟨earlier, block, earlier', block, rfl, rfl,
      MachineFunction.mem_successors_iff.mpr isPredecessor,
      MachineFunction.mem_successors_iff.mpr isPredecessor', .inr rfl⟩
  · refine pairsWithFirst_shares ?_ atSource
    intro left inLeft right inRight
    obtain ⟨later, isSuccessor, rfl⟩ := List.mem_map.mp inLeft
    obtain ⟨later', isSuccessor', rfl⟩ := List.mem_map.mp inRight
    exact ⟨block, later, block, later', rfl, rfl, isSuccessor, isSuccessor', .inl rfl⟩

theorem getEdgeSetIndex_eq_of_sharesEnd (computed : computeEdgeSets F = some sets)
    (shared : SharesEnd F left right) : sets.getEdgeSetIndex left = sets.getEdgeSetIndex right := by
  obtain ⟨source, target, source', target', rfl, rfl, edge, edge', rfl | rfl⟩ := shared
  · exact getEdgeSetIndex_eq_of_source computed edge edge'
  · exact getEdgeSetIndex_eq_of_target computed (MachineFunction.mem_successors_iff.mp edge)
      (MachineFunction.mem_successors_iff.mp edge')

private theorem linked_of_eqvGen
    (generated : Relation.EqvGen
    (Related (getEdgeSetIndex ⟨collectEdges F, List.range (collectEdges F).length⟩) (mergePairs F)) left right) :
    Relation.ReflTransGen (SharesEnd F) left right ∨
      (left ∉ collectEdges F ∧ right ∉ collectEdges F) := by
  have stays : ∀ {left right : Edge}, Relation.ReflTransGen (SharesEnd F) left right →
      left = right ∨ (left ∈ collectEdges F ∧ right ∈ collectEdges F) := by
    intro left right linked
    induction linked with
    | refl => exact .inl rfl
    | tail _ shared ih =>
        rcases ih with rfl | ⟨collected, _⟩
        · exact .inr shared.collected
        · exact .inr ⟨collected, shared.collected.2⟩
  induction generated with
  | rel left right related =>
      rcases related with same | merged
      · rcases initial_eq_iff.mp same with rfl | missing
        · exact .inl .refl
        · exact .inr missing
      · exact .inl (.single (mergePairs_shares merged))
  | refl edge => exact .inl .refl
  | symm left right _ ih =>
      rcases ih with linked | ⟨missingLeft, missingRight⟩
      · exact .inl (symm linked)
      · exact .inr ⟨missingRight, missingLeft⟩
  | trans left middle right _ _ ihLeft ihRight =>
      rcases ihLeft with linkedLeft | ⟨missingLeft, missingMiddle⟩
      · rcases ihRight with linkedRight | ⟨missingMiddle, missingRight⟩
        · exact .inl (linkedLeft.trans linkedRight)
        · rcases stays linkedLeft with rfl | ⟨_, collected⟩
          · exact .inr ⟨missingMiddle, missingRight⟩
          · exact absurd collected missingMiddle
      · rcases ihRight with linkedRight | ⟨_, missingRight⟩
        · rcases stays linkedRight with rfl | ⟨collected, _⟩
          · exact .inr ⟨missingLeft, missingMiddle⟩
          · exact absurd collected missingMiddle
        · exact .inr ⟨missingLeft, missingRight⟩

theorem eq_iff_linked (computed : computeEdgeSets F = some sets)
    (collected : left ∈ collectEdges F) :
    sets.getEdgeSetIndex left = sets.getEdgeSetIndex right ↔
      Relation.ReflTransGen (SharesEnd F) left right := by
  constructor
  · intro same
    rw [mergeRun_getEdgeSetIndex computed, mergeAll_eq_iff] at same
    rcases linked_of_eqvGen same with linked | ⟨missing, _⟩
    · exact linked
    · exact absurd collected missing
  · intro linked
    induction linked with
    | refl => rfl
    | tail _ shared ih => exact ih.trans (getEdgeSetIndex_eq_of_sharesEnd computed shared)

private theorem alone_of_artificial {edge other : Edge}
    (artificial : ∀ source target, edge ≠ realEdge source target)
    (linked : Relation.ReflTransGen (SharesEnd F) edge other) : other = edge := by
  induction linked with
  | refl => rfl
  | tail _ shared ih =>
      obtain ⟨source, target, _, _, atLeft, _⟩ := shared
      exact absurd (ih.symm.trans atLeft) (artificial source target)

def Renumbered (F G : MachineFunction) (number : Equiv.Perm Nat) : Prop :=
  ∀ source target, number target ∈ G.successors (number source) ↔ target ∈ F.successors source

def renumberEdge (number : Equiv.Perm Nat) : Edge → Edge :=
  Prod.map (Option.map number) (Option.map number)

private theorem SharesEnd.renumber (same : Renumbered F G number)
    (shared : SharesEnd F left right) :
    SharesEnd G (renumberEdge number left) (renumberEdge number right) := by
  obtain ⟨source, target, source', target', rfl, rfl, edge, edge', ends⟩ := shared
  exact ⟨number source, number target, number source', number target', rfl, rfl,
    (same source target).mpr edge, (same source' target').mpr edge',
    ends.imp (congrArg number) (congrArg number)⟩

private theorem renumbered_symm (same : Renumbered F G number) : Renumbered G F number.symm := by
  intro source target
  have renumbered := same (number.symm source) (number.symm target)
  rw [number.apply_symm_apply, number.apply_symm_apply] at renumbered
  exact renumbered.symm

private theorem renumberEdge_symm (number : Equiv.Perm Nat) (edge : Edge) :
    renumberEdge number.symm (renumberEdge number edge) = edge := by
  obtain ⟨source, target⟩ := edge
  simp [renumberEdge, Function.comp_def]

theorem linked_renumber_iff (same : Renumbered F G number) :
    Relation.ReflTransGen (SharesEnd G) (renumberEdge number left) (renumberEdge number right) ↔
      Relation.ReflTransGen (SharesEnd F) left right := by
  constructor
  · intro linked
    have back : Relation.ReflTransGen (SharesEnd F)
        (renumberEdge number.symm (renumberEdge number left))
        (renumberEdge number.symm (renumberEdge number right)) :=
      linked.lift (renumberEdge number.symm)
        fun _ _ shared => shared.renumber (renumbered_symm same)
    rw [renumberEdge_symm, renumberEdge_symm] at back
    exact back
  · intro linked
    exact linked.lift (renumberEdge number) fun _ _ shared => shared.renumber same

/-- The sets are the classes of the chains of real edges, the two artificial
edges are alone, and functions whose graphs differ only in the numbering of the
blocks and the order of their neighbour lists have the same classes. -/
theorem computeEdgeSets_classes (F : MachineFunction) :
    ∃ sets, computeEdgeSets F = some sets ∧
      (∀ edge ∈ collectEdges F, (sets.getEdgeSetIndex edge).isSome) ∧
      (∀ left ∈ collectEdges F, ∀ right ∈ collectEdges F,
        sets.getEdgeSetIndex left = sets.getEdgeSetIndex right ↔
          Relation.ReflTransGen (SharesEnd F) left right) ∧
      (∀ artificial ∈ [(none, some 0), (some (F.blocks.length - 1), none)],
        ∀ other ∈ collectEdges F,
          sets.getEdgeSetIndex artificial = sets.getEdgeSetIndex other → other = artificial) ∧
      ∀ (G : MachineFunction) (number : Equiv.Perm Nat), Renumbered F G number →
        ∃ setsG, computeEdgeSets G = some setsG ∧
          ∀ source target source' target',
            target ∈ F.successors source → target' ∈ F.successors source' →
              (setsG.getEdgeSetIndex (realEdge (number source) (number target)) =
                  setsG.getEdgeSetIndex (realEdge (number source') (number target')) ↔
                sets.getEdgeSetIndex (realEdge source target) =
                  sets.getEdgeSetIndex (realEdge source' target')) := by
  obtain ⟨sets, computed⟩ := computeEdgeSets_isSome F
  refine ⟨sets, computed, ?_, ?_, ?_, ?_⟩
  · intro edge member
    obtain ⟨edges, labelled⟩ := computeEdgeSets_labelled computed
    obtain ⟨edgeSet, known⟩ := getEdgeSetIndex_isSome labelled (edges.symm ▸ member)
    rw [known]
    rfl
  · intro left member right _
    exact eq_iff_linked computed member
  · intro artificial member other _ same
    have collected : artificial ∈ collectEdges F := List.mem_append_left _ member
    apply alone_of_artificial _ ((eq_iff_linked computed collected).mp same)
    intro source target isReal
    simp [isReal, realEdge] at member
  · intro G number renumbered
    obtain ⟨setsG, computedG⟩ := computeEdgeSets_isSome G
    refine ⟨setsG, computedG, ?_⟩
    intro source target source' target' edge _
    have collectedG : realEdge (number source) (number target) ∈ collectEdges G :=
      realEdge_mem_collectEdges ((renumbered source target).mpr edge)
    rw [eq_iff_linked computedG collectedG,
      eq_iff_linked computed (realEdge_mem_collectEdges edge)]
    change Relation.ReflTransGen (SharesEnd G) (renumberEdge number (realEdge source target))
      (renumberEdge number (realEdge source' target')) ↔ _
    exact linked_renumber_iff renumbered

end EvmBackend.EdgeSets
