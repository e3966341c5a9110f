/-
The dominator tree: a node for each reachable block, with its immediate
dominator, its level and its children, and what the queries cache.

A node is named by its block, so a node pointer is the name of a block or null.
A failed assertion and the use of a null pointer have no result. A loop gets as
many turns as a tree of the size can need.
-/

import EvmBackend.Library.ParentTrees
import Mathlib.Data.List.AList
import Mathlib.Tactic.Ring

namespace EvmBackend

structure DomTreeNode (Block : Type) where
  idom : Option Block
  level : Nat
  children : List Block
  dfsNumIn : Nat
  dfsNumOut : Nat
  deriving DecidableEq, Repr

def DomTreeNode.create {Block : Type} (idom : Option (Block × DomTreeNode Block)) : DomTreeNode Block :=
  ⟨idom.map Prod.fst, idom.elim 0 fun above => above.2.level + 1, [], 2 ^ 32 - 1, 2 ^ 32 - 1⟩

structure DominatorTree (Block : Type) where
  roots : List Block
  domTreeNodes : AList fun _ : Block => DomTreeNode Block
  rootNode : Option Block
  dfsInfoValid : Bool
  slowQueries : Nat

def DominatorTree.create (Block : Type) : DominatorTree Block := ⟨[], ∅, none, false, 0⟩

namespace DominatorTree

variable {Block : Type} [DecidableEq Block]

def getNode (block : Block) (tree : DominatorTree Block) : Option (DomTreeNode Block) :=
  tree.domTreeNodes.lookup block

def setNode (block : Block) (node : DomTreeNode Block) (tree : DominatorTree Block) : DominatorTree Block :=
  { tree with domTreeNodes := tree.domTreeNodes.insert block node }

def pointer (block : Block) (tree : DominatorTree Block) : Option Block :=
  (tree.getNode block).map fun _ => block

def size (tree : DominatorTree Block) : Nat := tree.domTreeNodes.entries.length

def addChild (block idom : Block) (tree : DominatorTree Block) : Option (DominatorTree Block) := do
  let above ← tree.getNode idom
  let linked := tree.setNode idom { above with children := above.children ++ [block] }
  some (linked.setNode block (.create (some (idom, above))))

/-- The level of the node is not one more than that of its immediate dominator. -/
def isStale (block : Block) (tree : DominatorTree Block) : Option Bool := do
  let node ← tree.getNode block
  let idom ← node.idom
  let above ← tree.getNode idom
  some (decide (node.level ≠ above.level + 1))

def pushStale (tree : DominatorTree Block) : List Block → List Block → Option (List Block)
  | [], workStack => some workStack
  | child :: children, workStack => do
      let stale ← tree.isStale child
      pushStale tree children (if stale then child :: workStack else workStack)

def updateLevelLoop : Nat → List Block → DominatorTree Block → Option (DominatorTree Block)
  | _, [], tree => some tree
  | 0, _ :: _, _ => none
  | fuel + 1, current :: workStack, tree => do
      let node ← tree.getNode current
      let idom ← node.idom
      let above ← tree.getNode idom
      let next := tree.setNode current { node with level := above.level + 1 }
      let pushed ← pushStale next node.children workStack
      updateLevelLoop fuel pushed next

def updateLevel (block : Block) (tree : DominatorTree Block) : Option (DominatorTree Block) := do
  let stale ← tree.isStale block
  if stale then updateLevelLoop tree.size [block] tree else some tree

def setIDom (block newIDom : Block) (tree : DominatorTree Block) : Option (DominatorTree Block) := do
  let node ← tree.getNode block
  let idom ← node.idom
  if idom = newIDom then some tree
  else do
    let old ← tree.getNode idom
    guard (block ∈ old.children)
    let removed := tree.setNode idom { old with children := old.children.erase block }
    let moved := removed.setNode block { node with idom := some newIDom }
    let new ← moved.getNode newIDom
    updateLevel block (moved.setNode newIDom { new with children := new.children ++ [block] })

def addNewBlock (block domBlock : Block) (tree : DominatorTree Block) : Option (DominatorTree Block) := do
  guard (tree.getNode block = none)
  guard (tree.getNode domBlock ≠ none)
  addChild block domBlock { tree with dfsInfoValid := false }

def setNewRoot (block : Block) (tree : DominatorTree Block) : Option (DominatorTree Block) := do
  guard (tree.getNode block = none)
  let added := { tree.setNode block (.create none) with dfsInfoValid := false }
  match added.roots with
  | [] => some { added with roots := [block], rootNode := some block }
  | [oldRoot] => do
      let new ← added.getNode block
      let linked := added.setNode block { new with children := new.children ++ [oldRoot] }
      let old ← linked.getNode oldRoot
      let leveled ← updateLevel oldRoot (linked.setNode oldRoot { old with idom := some block })
      some { leveled with roots := [block], rootNode := some block }
  | _ => none

def changeImmediateDominator (block newBlock : Block) (tree : DominatorTree Block) :
    Option (DominatorTree Block) := do
  guard (tree.getNode block ≠ none ∧ tree.getNode newBlock ≠ none)
  setIDom block newBlock { tree with dfsInfoValid := false }

def unlink (block : Block) (node : DomTreeNode Block) (tree : DominatorTree Block) :
    Option (DominatorTree Block) :=
  match node.idom with
  | none => some tree
  | some idom => do
      let above ← tree.getNode idom
      guard (block ∈ above.children)
      some (tree.setNode idom { above with children := above.children.erase block })

def eraseNode (block : Block) (tree : DominatorTree Block) : Option (DominatorTree Block) := do
  let node ← tree.getNode block
  guard (node.children = [])
  let unlinked ← unlink block node { tree with dfsInfoValid := false }
  some { unlinked with domTreeNodes := unlinked.domTreeNodes.erase block }

def setNumIn (block : Block) (number : Nat) (tree : DominatorTree Block) : Option (DominatorTree Block) := do
  let node ← tree.getNode block
  some (tree.setNode block { node with dfsNumIn := number })

def setNumOut (block : Block) (number : Nat) (tree : DominatorTree Block) : Option (DominatorTree Block) := do
  let node ← tree.getNode block
  some (tree.setNode block { node with dfsNumOut := number })

def updateDFSNumbersLoop : Nat → List (Block × List Block) → Nat → DominatorTree Block →
    Option (DominatorTree Block)
  | _, [], _, tree => some tree
  | 0, _ :: _, _, _ => none
  | fuel + 1, (node, []) :: workStack, dfsNum, tree => do
      let numbered ← tree.setNumOut node dfsNum
      updateDFSNumbersLoop fuel workStack (dfsNum + 1) numbered
  | fuel + 1, (node, child :: rest) :: workStack, dfsNum, tree => do
      let found ← tree.getNode child
      let numbered ← tree.setNumIn child dfsNum
      updateDFSNumbersLoop fuel ((child, found.children) :: (node, rest) :: workStack) (dfsNum + 1) numbered

def updateDFSNumbers (tree : DominatorTree Block) : Option (DominatorTree Block) :=
  if tree.dfsInfoValid then some { tree with slowQueries := 0 }
  else
    match tree.rootNode with
    | none => some tree
    | some thisRoot => do
        let root ← tree.getNode thisRoot
        let started ← tree.setNumIn thisRoot 0
        let numbered ← updateDFSNumbersLoop (2 * tree.size) [(thisRoot, root.children)] 1 started
        some { numbered with slowQueries := 0, dfsInfoValid := true }

def dominatedBy (above below : Block) (tree : DominatorTree Block) : Option Bool := do
  let upper ← tree.getNode above
  let lower ← tree.getNode below
  some (decide (upper.dfsNumIn ≤ lower.dfsNumIn ∧ lower.dfsNumOut ≤ upper.dfsNumOut))

def slowTreeWalkLoop (level : Nat) (tree : DominatorTree Block) : Nat → Block → Option Block
  | 0, _ => none
  | fuel + 1, block => do
      let node ← tree.getNode block
      match node.idom with
      | none => some block
      | some idom => do
          let above ← tree.getNode idom
          if level ≤ above.level then slowTreeWalkLoop level tree fuel idom else some block

def dominatedBySlowTreeWalk (above below : Block) (tree : DominatorTree Block) : Option Bool := do
  let upper ← tree.getNode above
  let found ← slowTreeWalkLoop upper.level tree (tree.size + 1) below
  some (decide (found = above))

/-- The query counts as a slow one. After 32 of these the nodes are numbered. -/
def dominatesSlowly (above below : Block) (tree : DominatorTree Block) : Option (Bool × DominatorTree Block) :=
  let counted := { tree with slowQueries := tree.slowQueries + 1 }
  if 32 < counted.slowQueries then do
    let numbered ← counted.updateDFSNumbers
    let answer ← numbered.dominatedBy above below
    some (answer, numbered)
  else do
    let answer ← counted.dominatedBySlowTreeWalk above below
    some (answer, counted)

def dominatesNodes (above below : Option Block) (tree : DominatorTree Block) :
    Option (Bool × DominatorTree Block) :=
  if below = above then some (true, tree)
  else
    match below, above with
    | none, _ => some (true, tree)
    | some _, none => some (false, tree)
    | some below, some above => do
        let lower ← tree.getNode below
        let upper ← tree.getNode above
        if lower.idom = some above then some (true, tree)
        else if upper.idom = some below then some (false, tree)
        else if lower.level ≤ upper.level then some (false, tree)
        else if tree.dfsInfoValid then (dominatedBy above below tree).map (·, tree)
        else dominatesSlowly above below tree

def dominates (above below : Block) (tree : DominatorTree Block) : Option (Bool × DominatorTree Block) :=
  if above = below then some (true, tree) else dominatesNodes (tree.pointer above) (tree.pointer below) tree

def isReachableFromEntry (block : Block) (tree : DominatorTree Block) : Bool := (tree.getNode block).isSome

def findNearestCommonDominatorLoop (tree : DominatorTree Block) :
    Nat → Option Block → Block → Option (Option Block)
  | 0, _, _ => none
  | _ + 1, none, _ => some none
  | fuel + 1, some nodeA, nodeB =>
      if nodeA = nodeB then some (some nodeA)
      else do
        let left ← tree.getNode nodeA
        let right ← tree.getNode nodeB
        if left.level < right.level then findNearestCommonDominatorLoop tree fuel right.idom nodeA
        else findNearestCommonDominatorLoop tree fuel left.idom nodeB

def findNearestCommonDominator (entry a b : Block) (tree : DominatorTree Block) : Option (Option Block) :=
  if a = entry ∨ b = entry then some (some entry)
  else
    match tree.pointer a, tree.pointer b with
    | some nodeA, some nodeB => findNearestCommonDominatorLoop tree (2 * tree.size + 1) (some nodeA) nodeB
    | _, _ => some none

end DominatorTree

end EvmBackend
