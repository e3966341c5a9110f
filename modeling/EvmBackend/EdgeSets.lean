/-
Edge sets of a control-flow graph: every edge is numbered, starts in a set of
its own, and the sets of edges with a common target or a common source are
merged by relabelling.

The results here are about merging only in one direction: edges that share an
end are in one set, and a merge never separates two edges again.
-/

import EvmBackend.MachineFunction
import EvmBackend.Library.Runs

namespace EvmBackend

open List Option

/-- A missing source is the artificial edge into the entry block, a missing
target the artificial edge out of the exit block. -/
abbrev Edge := Option Nat × Option Nat

def realEdge (source target : Nat) : Edge := (some source, some target)

/-- Edge `i` is the `i`-th entry of `edgeIndex`, its set the `i`-th entry of
`edgeIndex2EdgeSet`. -/
structure EdgeSets where
  edgeIndex : List Edge
  edgeIndex2EdgeSet : List Nat
  deriving DecidableEq, Repr

namespace EdgeSets

/-- Linear search for the edge; an edge that was not collected is unreachable
code of the source. -/
def getEdgeIndex (sets : EdgeSets) (edge : Edge) : Option Nat :=
  sets.edgeIndex.findIdx? (· == edge)

def getEdgeSetIndex (sets : EdgeSets) (edge : Edge) : Option Nat :=
  (sets.getEdgeIndex edge).bind fun index => sets.edgeIndex2EdgeSet[index]?

def collectEdges (F : MachineFunction) : List Edge :=
  [(none, some 0), (some (F.blocks.length - 1), none)] ++
    (List.range F.blocks.length).flatMap fun block =>
      (F.successors block).map fun later => realEdge block later

def mergeEdgeSets (edge1 edge2 : Edge) (sets : EdgeSets) : Option EdgeSets := do
  let edgeSet1 ← sets.getEdgeSetIndex edge1
  let edgeSet2 ← sets.getEdgeSetIndex edge2
  if edgeSet1 = edgeSet2 then
    some sets
  else
    some { sets with
      edgeIndex2EdgeSet := sets.edgeIndex2EdgeSet.map fun edgeSet =>
        if edgeSet = edgeSet2 then edgeSet1 else edgeSet }

def pairsWithFirst : List Edge → List (Edge × Edge)
  | [] => []
  | first :: rest => rest.map fun other => (first, other)

def mergePairs (F : MachineFunction) : List (Edge × Edge) :=
  (List.range F.blocks.length).flatMap fun block =>
    pairsWithFirst ((F.predecessors block).map fun earlier => realEdge earlier block) ++
      pairsWithFirst ((F.successors block).map fun later => realEdge block later)

def computeEdgeSets (F : MachineFunction) : Option EdgeSets :=
  let edgeIndex := collectEdges F
  Runs.run (fun pair sets => sets.mergeEdgeSets pair.1 pair.2) (mergePairs F)
    { edgeIndex := edgeIndex, edgeIndex2EdgeSet := List.range edgeIndex.length }

def Labelled (sets : EdgeSets) : Prop :=
  sets.edgeIndex2EdgeSet.length = sets.edgeIndex.length

def SameSet (sets : EdgeSets) (left right : Edge) : Prop :=
  ∃ edgeSet, sets.getEdgeSetIndex left = some edgeSet ∧ sets.getEdgeSetIndex right = some edgeSet

theorem getEdgeSetIndex_isSome {sets : EdgeSets} {edge : Edge} (labelled : sets.Labelled)
    (collected : edge ∈ sets.edgeIndex) : ∃ edgeSet, sets.getEdgeSetIndex edge = some edgeSet := by
  have found : (sets.getEdgeIndex edge).isSome = true := by
    unfold getEdgeIndex
    rw [findIdx?_isSome, List.any_eq_true]
    exact ⟨edge, collected, beq_self_eq_true edge⟩
  obtain ⟨index, known⟩ := isSome_iff_exists.mp found
  obtain ⟨within, _⟩ := findIdx?_eq_some_iff_getElem.mp known
  have bound : index < sets.edgeIndex2EdgeSet.length := by
    rw [labelled]
    exact within
  exact ⟨sets.edgeIndex2EdgeSet[index], by
    simp only [getEdgeSetIndex, known, bind_some, List.getElem?_eq_getElem bound]⟩

theorem mergeEdgeSets_eq_some {sets merged : EdgeSets} {edge1 edge2 : Edge}
    (done : sets.mergeEdgeSets edge1 edge2 = some merged) :
    merged.edgeIndex = sets.edgeIndex ∧
      (∃ rename : Nat → Nat,
        merged.edgeIndex2EdgeSet = sets.edgeIndex2EdgeSet.map rename) ∧
      merged.SameSet edge1 edge2 := by
  simp only [mergeEdgeSets, bind_eq_bind, bind_eq_some_iff] at done
  obtain ⟨edgeSet1, atFirst, edgeSet2, atSecond, done⟩ := done
  by_cases same : edgeSet1 = edgeSet2
  · rw [if_pos same] at done
    cases done
    exact ⟨rfl, ⟨id, by simp⟩, edgeSet1, atFirst, by rw [atSecond, same]⟩
  · rw [if_neg same] at done
    cases done
    obtain ⟨index1, place1, label1⟩ := bind_eq_some_iff.mp atFirst
    obtain ⟨index2, place2, label2⟩ := bind_eq_some_iff.mp atSecond
    refine ⟨rfl, ⟨_, rfl⟩, edgeSet1, ?_, ?_⟩
    · have kept : (sets.edgeIndex.findIdx? (· == edge1)) = some index1 := place1
      simp only [getEdgeSetIndex, getEdgeIndex, kept, bind_some, getElem?_map, label1,
        map_some, if_neg same]
    · have kept : (sets.edgeIndex.findIdx? (· == edge2)) = some index2 := place2
      simp only [getEdgeSetIndex, getEdgeIndex, kept, bind_some, getElem?_map, label2,
        map_some, if_true]

theorem SameSet.of_rename {sets merged : EdgeSets} {left right : Edge}
    (together : sets.SameSet left right) (edges : merged.edgeIndex = sets.edgeIndex)
    {rename : Nat → Nat}
    (labels : merged.edgeIndex2EdgeSet = sets.edgeIndex2EdgeSet.map rename) :
    merged.SameSet left right := by
  obtain ⟨edgeSet, atLeft, atRight⟩ := together
  have renamed : ∀ edge, merged.getEdgeSetIndex edge =
      (sets.getEdgeSetIndex edge).map rename := by
    intro edge
    unfold getEdgeSetIndex getEdgeIndex
    rw [edges, labels]
    cases sets.edgeIndex.findIdx? (· == edge) with
    | none => rfl
    | some index => simp only [bind_some, getElem?_map]
  exact ⟨rename edgeSet, by rw [renamed, atLeft]; rfl, by rw [renamed, atRight]; rfl⟩

private theorem mergeRun_keeps {pairs : List (Edge × Edge)} {sets merged : EdgeSets}
    (done : Runs.run (fun pair sets => sets.mergeEdgeSets pair.1 pair.2) pairs sets = some merged) :
    merged.edgeIndex = sets.edgeIndex ∧ (sets.Labelled → merged.Labelled) ∧
      (∀ left right, sets.SameSet left right → merged.SameSet left right) ∧
      (∀ pair ∈ pairs, merged.SameSet pair.1 pair.2) := by
  induction pairs generalizing sets with
  | nil =>
      cases done
      exact ⟨rfl, id, fun _ _ => id, fun _ absent => by cases absent⟩
  | cons first rest ih =>
      obtain ⟨next, merging, later⟩ := Runs.run_cons_eq_some _ done
      obtain ⟨edges, ⟨rename, labels⟩, together⟩ := mergeEdgeSets_eq_some merging
      obtain ⟨laterEdges, laterLabelled, laterSame, laterPairs⟩ := ih later
      refine ⟨laterEdges.trans edges, fun labelled => laterLabelled ?_, ?_, ?_⟩
      · unfold Labelled
        rw [labels, edges, length_map]
        exact labelled
      · intro left right same
        exact laterSame left right (same.of_rename edges labels)
      · intro pair member
        rcases mem_cons.mp member with rfl | deeper
        · exact laterSame _ _ together
        · exact laterPairs pair deeper

private theorem mergeRun_total {pairs : List (Edge × Edge)} {sets : EdgeSets}
    (labelled : sets.Labelled)
    (collected : ∀ pair ∈ pairs, pair.1 ∈ sets.edgeIndex ∧ pair.2 ∈ sets.edgeIndex) :
    ∃ merged,
      Runs.run (fun pair sets => sets.mergeEdgeSets pair.1 pair.2) pairs sets = some merged := by
  induction pairs generalizing sets with
  | nil => exact ⟨sets, rfl⟩
  | cons first rest ih =>
      obtain ⟨inLeft, inRight⟩ := collected first mem_cons_self
      obtain ⟨edgeSet1, atFirst⟩ := getEdgeSetIndex_isSome labelled inLeft
      obtain ⟨edgeSet2, atSecond⟩ := getEdgeSetIndex_isSome labelled inRight
      have merging : ∃ next, sets.mergeEdgeSets first.1 first.2 = some next := by
        simp only [mergeEdgeSets, atFirst, atSecond, bind_eq_bind, bind_some]
        split
        · exact ⟨_, rfl⟩
        · exact ⟨_, rfl⟩
      obtain ⟨next, stepped⟩ := merging
      obtain ⟨edges, ⟨rename, labels⟩, _⟩ := mergeEdgeSets_eq_some stepped
      have nextLabelled : next.Labelled := by
        unfold Labelled
        rw [labels, edges, length_map]
        exact labelled
      obtain ⟨merged, finished⟩ := ih nextLabelled fun pair member => by
        rw [edges]
        exact collected pair (mem_cons_of_mem first member)
      refine ⟨merged, ?_⟩
      rw [Runs.run_cons, stepped]
      exact finished

variable {F : MachineFunction}

theorem realEdge_mem_collectEdges {block later : Nat} (edge : later ∈ F.successors block) :
    realEdge block later ∈ collectEdges F := by
  refine mem_append_right _ (mem_flatMap.mpr ⟨block, ?_, ?_⟩)
  · exact mem_range.mpr (MachineFunction.lt_of_mem_successors edge)
  · exact List.mem_map.mpr ⟨later, edge, rfl⟩

private theorem pairsWithFirst_mem {edges : List Edge} {pair : Edge × Edge}
    (member : pair ∈ pairsWithFirst edges) : pair.1 ∈ edges ∧ pair.2 ∈ edges := by
  cases edges with
  | nil => cases member
  | cons first rest =>
      obtain ⟨other, inRest, rfl⟩ := List.mem_map.mp member
      exact ⟨mem_cons_self, mem_cons_of_mem first inRest⟩

private theorem mergePairs_collected {pair : Edge × Edge} (member : pair ∈ mergePairs F) :
    pair.1 ∈ collectEdges F ∧ pair.2 ∈ collectEdges F := by
  obtain ⟨block, _, inBlock⟩ := mem_flatMap.mp member
  have incoming : ∀ edge ∈ (F.predecessors block).map (fun earlier => realEdge earlier block),
      edge ∈ collectEdges F := by
    intro edge present
    obtain ⟨earlier, isPredecessor, rfl⟩ := List.mem_map.mp present
    exact realEdge_mem_collectEdges (MachineFunction.mem_successors_iff.mpr isPredecessor)
  have outgoing : ∀ edge ∈ (F.successors block).map (fun later => realEdge block later),
      edge ∈ collectEdges F := by
    intro edge present
    obtain ⟨later, isSuccessor, rfl⟩ := List.mem_map.mp present
    exact realEdge_mem_collectEdges isSuccessor
  rcases mem_append.mp inBlock with atTarget | atSource
  · obtain ⟨left, right⟩ := pairsWithFirst_mem atTarget
    exact ⟨incoming _ left, incoming _ right⟩
  · obtain ⟨left, right⟩ := pairsWithFirst_mem atSource
    exact ⟨outgoing _ left, outgoing _ right⟩

theorem computeEdgeSets_isSome (F : MachineFunction) : ∃ sets, computeEdgeSets F = some sets :=
  mergeRun_total (by simp [Labelled]) fun _ member => mergePairs_collected member

theorem computeEdgeSets_labelled {sets : EdgeSets} (computed : computeEdgeSets F = some sets) :
    sets.edgeIndex = collectEdges F ∧ sets.Labelled := by
  obtain ⟨edges, labelled, _, _⟩ := mergeRun_keeps computed
  exact ⟨edges, labelled (by simp [Labelled])⟩

theorem getEdgeSetIndex_of_edge {sets : EdgeSets} (computed : computeEdgeSets F = some sets)
    {block later : Nat} (edge : later ∈ F.successors block) :
    ∃ edgeSet, sets.getEdgeSetIndex (realEdge block later) = some edgeSet := by
  obtain ⟨edges, labelled⟩ := computeEdgeSets_labelled computed
  apply getEdgeSetIndex_isSome labelled
  rw [edges]
  exact realEdge_mem_collectEdges edge

private theorem sameSet_of_pairs {sets : EdgeSets} (edges : List Edge)
    (merged : ∀ pair ∈ pairsWithFirst edges, sets.SameSet pair.1 pair.2)
    {left right : Edge} (inLeft : left ∈ edges) (inRight : right ∈ edges) :
    sets.getEdgeSetIndex left = sets.getEdgeSetIndex right := by
  cases edges with
  | nil => cases inLeft
  | cons first rest =>
      have toFirst : ∀ edge ∈ first :: rest,
          sets.getEdgeSetIndex edge = sets.getEdgeSetIndex first := by
        intro edge member
        rcases mem_cons.mp member with rfl | deeper
        · rfl
        · obtain ⟨edgeSet, atFirst, atEdge⟩ :=
            merged (first, edge) (List.mem_map.mpr ⟨edge, deeper, rfl⟩)
          rw [atFirst, atEdge]
      rw [toFirst left inLeft, toFirst right inRight]

theorem getEdgeSetIndex_eq_of_target {sets : EdgeSets} (computed : computeEdgeSets F = some sets)
    {block left right : Nat} (fromLeft : left ∈ F.predecessors block)
    (fromRight : right ∈ F.predecessors block) :
    sets.getEdgeSetIndex (realEdge left block) = sets.getEdgeSetIndex (realEdge right block) := by
  obtain ⟨_, _, _, merged⟩ := mergeRun_keeps computed
  have inside : block ∈ List.range F.blocks.length := by
    rw [mem_range]
    by_contra outside
    have missing : F.blocks[block]? = none := List.getElem?_eq_none (by omega)
    simp [MachineFunction.predecessors, blockPredecessors, missing] at fromLeft
  refine sameSet_of_pairs ((F.predecessors block).map fun earlier => realEdge earlier block)
    ?_ (List.mem_map.mpr ⟨left, fromLeft, rfl⟩) (List.mem_map.mpr ⟨right, fromRight, rfl⟩)
  intro pair member
  exact merged pair (mem_flatMap.mpr ⟨block, inside, mem_append_left _ member⟩)

theorem getEdgeSetIndex_eq_of_source {sets : EdgeSets} (computed : computeEdgeSets F = some sets)
    {block left right : Nat} (toLeft : left ∈ F.successors block)
    (toRight : right ∈ F.successors block) :
    sets.getEdgeSetIndex (realEdge block left) = sets.getEdgeSetIndex (realEdge block right) := by
  obtain ⟨_, _, _, merged⟩ := mergeRun_keeps computed
  refine sameSet_of_pairs ((F.successors block).map fun later => realEdge block later)
    ?_ (List.mem_map.mpr ⟨left, toLeft, rfl⟩) (List.mem_map.mpr ⟨right, toRight, rfl⟩)
  intro pair member
  refine merged pair (mem_flatMap.mpr ⟨block, ?_, mem_append_right _ member⟩)
  exact mem_range.mpr (MachineFunction.lt_of_mem_successors toLeft)

end EdgeSets

end EvmBackend
