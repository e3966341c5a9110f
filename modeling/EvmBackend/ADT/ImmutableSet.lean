/-
Immutable AVL trees and the factory that builds them.

Trees share subtrees, and equality of trees skips a node that is the same in both
walks, so a node carries the address it lives at. The factory takes an address
that no live node has: a new one, or that of a node it has destroyed. A created
node that is not in the returned tree is destroyed before the call returns; that
is what the reference counts amount to, and they are not modelled.
-/

import Mathlib.Order.Defs.LinearOrder
import Mathlib.Tactic.Ring

namespace EvmBackend

structure ImutInfo (Value Key Data : Type) where
  KeyOfValue : Value → Key
  DataOfValue : Value → Data

inductive ImutAVLTree (Value : Type) where
  | null
  | node (address : Nat) (left : ImutAVLTree Value) (value : Value) (right : ImutAVLTree Value)
      (height : Nat)
  deriving DecidableEq, Repr

/-- Where nodes are put: never at the address of a node that is still live. -/
structure NodeAllocator where
  place : List Nat → Nat
  fresh : ∀ live, place live ∉ live

/-- The addresses of the live nodes, and of those created in the current call. -/
structure ImutAVLFactory where
  live : List Nat
  createdNodes : List Nat
  deriving DecidableEq, Repr

namespace ImutAVLTree

variable {Value Key Data : Type} [LinearOrder Key] [DecidableEq Data]

def isEmpty : ImutAVLTree Value → Bool
  | null => true
  | node .. => false

def getHeight : ImutAVLTree Value → Nat
  | null => 0
  | node _ _ _ _ height => height

def size : ImutAVLTree Value → Nat
  | null => 0
  | node _ left _ right _ => 1 + left.size + right.size

def inOrder : ImutAVLTree Value → List Value
  | null => []
  | node _ left value right _ => left.inOrder ++ value :: right.inOrder

def addresses : ImutAVLTree Value → List Nat
  | null => []
  | node address left _ right _ => address :: (left.addresses ++ right.addresses)

variable (info : ImutInfo Value Key Data)

def find (key : Key) : ImutAVLTree Value → ImutAVLTree Value
  | null => null
  | node address left value right height =>
      if key = info.KeyOfValue value then node address left value right height
      else if key < info.KeyOfValue value then find key left
      else find key right

def contains (key : Key) (tree : ImutAVLTree Value) : Bool := !(tree.find info key).isEmpty

def address? : ImutAVLTree Value → Option Nat
  | null => none
  | node address _ _ _ _ => some address

def getValue? : ImutAVLTree Value → Option Value
  | null => none
  | node _ _ value _ _ => some value

end ImutAVLTree

namespace ImutAVLFactory

open ImutAVLTree

variable {Value Key Data : Type} [LinearOrder Key] (allocator : NodeAllocator)
  (info : ImutInfo Value Key Data)

def incrementHeight (L R : ImutAVLTree Value) : Nat :=
  (if L.getHeight > R.getHeight then L.getHeight else R.getHeight) + 1

def createNode (L : ImutAVLTree Value) (V : Value) (R : ImutAVLTree Value)
    (factory : ImutAVLFactory) : ImutAVLTree Value × ImutAVLFactory :=
  let address := allocator.place factory.live
  (node address L V R (incrementHeight L R),
    { live := address :: factory.live, createdNodes := address :: factory.createdNodes })

def createBoth (L : ImutAVLTree Value) (V : Value) (R : ImutAVLTree Value)
    (outer : ImutAVLTree Value → ImutAVLFactory → ImutAVLTree Value × ImutAVLFactory)
    (factory : ImutAVLFactory) : ImutAVLTree Value × ImutAVLFactory :=
  let (inner, factory) := createNode allocator L V R factory
  outer inner factory

/-- The result is `none` where an assertion on an empty subtree fails. -/
def balanceTree (L : ImutAVLTree Value) (V : Value) (R : ImutAVLTree Value)
    (factory : ImutAVLFactory) : Option (ImutAVLTree Value × ImutAVLFactory) :=
  let hl := L.getHeight
  let hr := R.getHeight
  if hl > hr + 2 then
    match L with
    | null => none
    | node _ LL LV LR _ =>
        if LL.getHeight ≥ LR.getHeight then
          some (createBoth allocator LR V R (createNode allocator LL LV) factory)
        else
          match LR with
          | null => none
          | node _ LRL LRV LRR _ =>
              some (createBoth allocator LL LV LRL (fun left =>
                createBoth allocator LRR V R (createNode allocator left LRV)) factory)
  else if hr > hl + 2 then
    match R with
    | null => none
    | node _ RL RV RR _ =>
        if RR.getHeight ≥ RL.getHeight then
          some (createBoth allocator L V RL (fun left => createNode allocator left RV RR) factory)
        else
          match RL with
          | null => none
          | node _ RLL RLV RLR _ =>
              some (createBoth allocator L V RLL (fun left =>
                createBoth allocator RLR RV RR (createNode allocator left RLV)) factory)
  else some (createNode allocator L V R factory)

def add_internal (V : Value) :
    ImutAVLTree Value → ImutAVLFactory → Option (ImutAVLTree Value × ImutAVLFactory)
  | null, factory => some (createNode allocator null V null factory)
  | node _ left current right _, factory =>
      if info.KeyOfValue V = info.KeyOfValue current then
        some (createNode allocator left V right factory)
      else if info.KeyOfValue V < info.KeyOfValue current then do
        let (left, factory) ← add_internal V left factory
        balanceTree allocator left current right factory
      else do
        let (right, factory) ← add_internal V right factory
        balanceTree allocator left current right factory

def removeMinBinding :
    ImutAVLTree Value → ImutAVLFactory → Option (ImutAVLTree Value × Value × ImutAVLFactory)
  | null, _ => none
  | node _ null value right _, factory => some (right, value, factory)
  | node _ (node address first least second height) value right _, factory => do
      let (left, removed, factory) ←
        removeMinBinding (node address first least second height) factory
      let (tree, factory) ← balanceTree allocator left value right factory
      some (tree, removed, factory)

def combineTrees (L R : ImutAVLTree Value) (factory : ImutAVLFactory) :
    Option (ImutAVLTree Value × ImutAVLFactory) :=
  if L.isEmpty then some (R, factory)
  else if R.isEmpty then some (L, factory)
  else do
    let (newRight, removed, factory) ← removeMinBinding allocator R factory
    balanceTree allocator L removed newRight factory

def remove_internal (K : Key) :
    ImutAVLTree Value → ImutAVLFactory → Option (ImutAVLTree Value × ImutAVLFactory)
  | null, factory => some (null, factory)
  | node _ left current right _, factory =>
      if K = info.KeyOfValue current then combineTrees allocator left right factory
      else if K < info.KeyOfValue current then do
        let (left, factory) ← remove_internal K left factory
        balanceTree allocator left current right factory
      else do
        let (right, factory) ← remove_internal K right factory
        balanceTree allocator left current right factory

/-- The created nodes that did not become part of the tree are destroyed. -/
def recoverNodes (tree : ImutAVLTree Value) (factory : ImutAVLFactory) : ImutAVLFactory :=
  { live := factory.live.filter fun address =>
      !(factory.createdNodes.contains address) || tree.addresses.contains address
    createdNodes := [] }

def add (T : ImutAVLTree Value) (V : Value) (factory : ImutAVLFactory) :
    Option (ImutAVLTree Value × ImutAVLFactory) := do
  let (tree, factory) ← add_internal allocator info V T factory
  some (tree, recoverNodes tree factory)

def remove (T : ImutAVLTree Value) (K : Key) (factory : ImutAVLFactory) :
    Option (ImutAVLTree Value × ImutAVLFactory) := do
  let (tree, factory) ← remove_internal allocator info K T factory
  some (tree, recoverNodes tree factory)

end ImutAVLFactory

/-! ### Iterators -/

inductive VisitFlag where
  | VisitedNone
  | VisitedLeft
  | VisitedRight
  deriving DecidableEq, Repr

abbrev ImutAVLTreeIterator (Value : Type) := List (ImutAVLTree Value × VisitFlag)

namespace ImutAVLTreeIterator

open ImutAVLTree VisitFlag

variable {Value : Type}

def skipToParent : ImutAVLTreeIterator Value → Option (ImutAVLTreeIterator Value)
  | [] => none
  | [_] => some []
  | _ :: (parent, VisitedNone) :: path => some ((parent, VisitedLeft) :: path)
  | _ :: (parent, VisitedLeft) :: path => some ((parent, VisitedRight) :: path)
  | _ :: (_, VisitedRight) :: _ => none

def genericNext : ImutAVLTreeIterator Value → Option (ImutAVLTreeIterator Value)
  | [] => none
  | (null, _) :: _ => none
  | (node address left value right height, VisitedNone) :: path =>
      if left.isEmpty then some ((node address left value right height, VisitedLeft) :: path)
      else some ((left, VisitedNone) :: (node address left value right height, VisitedNone) :: path)
  | (node address left value right height, VisitedLeft) :: path =>
      if right.isEmpty then some ((node address left value right height, VisitedRight) :: path)
      else some ((right, VisitedNone) :: (node address left value right height, VisitedLeft) :: path)
  | (tree, VisitedRight) :: path => skipToParent ((tree, VisitedRight) :: path)

def atValue : ImutAVLTreeIterator Value → Bool
  | [] => true
  | (_, flag) :: _ => flag == VisitedLeft

def stepsBound (path : ImutAVLTreeIterator Value) : Nat :=
  (path.map fun entry => 3 * entry.1.size).sum

def settle : Nat → ImutAVLTreeIterator Value → Option (ImutAVLTreeIterator Value)
  | steps, path =>
      if path.atValue then some path
      else
        match steps with
        | 0 => none
        | steps + 1 => do settle steps (← genericNext path)

def next (path : ImutAVLTreeIterator Value) : Option (ImutAVLTreeIterator Value) := do
  let path ← genericNext path
  settle path.stepsBound path

def skipSubTree (path : ImutAVLTreeIterator Value) : Option (ImutAVLTreeIterator Value) := do
  let path ← skipToParent path
  settle path.stepsBound path

def begin (tree : ImutAVLTree Value) : Option (ImutAVLTreeIterator Value) :=
  if tree.isEmpty then some [] else next [(tree, VisitedNone)]

def values : Nat → ImutAVLTreeIterator Value → Option (List Value)
  | _, [] => some []
  | 0, _ :: _ => none
  | steps + 1, (tree, flag) :: path => do
      let value ← tree.getValue?
      let rest ← values steps (← next ((tree, flag) :: path))
      some (value :: rest)

end ImutAVLTreeIterator

namespace ImutAVLTree

open ImutAVLTreeIterator

variable {Value Key Data : Type} [LinearOrder Key] [DecidableEq Data]
  (info : ImutInfo Value Key Data)

def isElementEqual (left right : Value) : Bool :=
  info.KeyOfValue left == info.KeyOfValue right && info.DataOfValue left == info.DataOfValue right

def isEqualFrom : Nat → ImutAVLTreeIterator Value → ImutAVLTreeIterator Value → Option Bool
  | _, [], RItr => some RItr.isEmpty
  | _, _ :: _, [] => some false
  | 0, _ :: _, _ :: _ => none
  | steps + 1, (L, leftFlag) :: leftPath, (R, rightFlag) :: rightPath =>
      if L.address? = R.address? then do
        isEqualFrom steps (← skipSubTree ((L, leftFlag) :: leftPath))
          (← skipSubTree ((R, rightFlag) :: rightPath))
      else do
        if isElementEqual info (← L.getValue?) (← R.getValue?) then
          isEqualFrom steps (← next ((L, leftFlag) :: leftPath))
            (← next ((R, rightFlag) :: rightPath))
        else some false

def isEqual (this RHS : ImutAVLTree Value) : Option Bool :=
  if RHS.address? = this.address? then some true
  else do isEqualFrom info this.size (← begin this) (← begin RHS)

def rootsEqual (this RHS : ImutAVLTree Value) : Option Bool :=
  if this.isEmpty || RHS.isEmpty then some (this.isEmpty && RHS.isEmpty) else isEqual info this RHS

end ImutAVLTree

end EvmBackend
