/-
Numbers for the nodes of a tree in the order of a walk in depth first: one when
the walk comes to a node, one when it leaves it for good.

The walk keeps a stack of the nodes it is in, each with the children it has not
come to yet. When it is over, a node is above another exactly if its two numbers
are around those of the other.
-/

import EvmBackend.Library.ParentTrees
import Mathlib.Data.List.Basic
import Mathlib.Data.Set.Insert
import Mathlib.Order.Lattice

namespace EvmBackend.TreeNumbering

open ParentTrees Function List

variable {Node : Type*}

/-- Where a walk is: the nodes it came to, those it has left, and the next number. -/
structure Walk (Node : Type*) where
  stack : List (Node × List Node)
  seen : Set Node
  left : Set Node
  next : Nat
  numIn : Node → Nat
  numOut : Node → Nat

variable {parent : Node → Option Node} {children : Node → List Node} {level : Node → Nat} {walk : Walk Node}
  {node child : Node} {rest : List Node} {below : List (Node × List Node)}

def Walk.start (root : Node) (rest : List Node) (numIn numOut : Node → Nat) : Walk Node :=
  ⟨[(root, rest)], {root}, ∅, 1, numIn, numOut⟩

def Walk.visit [DecidableEq Node] (node child : Node) (rest grandchildren : List Node)
    (below : List (Node × List Node))
    (walk : Walk Node) : Walk Node :=
  { walk with
    stack := (child, grandchildren) :: (node, rest) :: below
    seen := insert child walk.seen
    next := walk.next + 1
    numIn := update walk.numIn child walk.next }

def Walk.leave [DecidableEq Node] (node : Node) (below : List (Node × List Node)) (walk : Walk Node) :
    Walk Node :=
  { walk with
    stack := below
    left := insert node walk.left
    next := walk.next + 1
    numOut := update walk.numOut node walk.next }

structure Numbered (parent : Node → Option Node) (children : Node → List Node) (walk : Walk Node) : Prop where
  split : ∀ node, node ∈ walk.seen ↔ node ∈ walk.left ∨ node ∈ walk.stack.map Prod.fst
  distinct : (walk.stack.map Prod.fst).Nodup
  stays : ∀ node ∈ walk.stack.map Prod.fst, node ∉ walk.left
  chain : (walk.stack.map Prod.fst).Pairwise fun lower upper => Above parent upper lower
  rest : ∀ entry ∈ walk.stack, entry.2 <:+ children entry.1 ∧ ∀ child ∈ entry.2, child ∉ walk.seen
  covered : ∀ node ∈ walk.seen, ∀ child ∈ children node,
    child ∈ walk.seen ∨ ∃ entry ∈ walk.stack, entry.1 = node ∧ child ∈ entry.2
  up : ∀ node ∈ walk.seen, ∀ upper, parent node = some upper →
    upper ∈ walk.seen ∧ walk.numIn upper < walk.numIn node ∧
      (upper ∈ walk.left → node ∈ walk.left ∧ walk.numOut node < walk.numOut upper)
  low : ∀ node ∈ walk.seen, walk.numIn node < walk.next
  order : ∀ node ∈ walk.left, walk.numIn node < walk.numOut node ∧ walk.numOut node < walk.next
  apart : ∀ one ∈ walk.seen, ∀ two ∈ walk.seen, ¬ Above parent one two → ¬ Above parent two one →
    (one ∈ walk.left ∧ walk.numOut one < walk.numIn two) ∨ (two ∈ walk.left ∧ walk.numOut two < walk.numIn one)

structure Listed (parent : Node → Option Node) (children : Node → List Node) : Prop where
  mem : ∀ child node, child ∈ children node ↔ parent child = some node
  nodup : ∀ node, (children node).Nodup

theorem Numbered.start {root : Node} (top : parent root = none) (listed : Listed parent children)
    (numIn numOut : Node → Nat) (zero : numIn root = 0) :
    Numbered parent children (Walk.start root (children root) numIn numOut) := by
  have alone : ∀ node, node ∈ ({root} : Set Node) ↔ node = root := fun node => Set.mem_singleton_iff
  refine ⟨fun node => ?_, nodup_cons.mpr ⟨not_mem_nil, nodup_nil⟩,
    fun node _ => Set.notMem_empty node,
    pairwise_singleton _ _, fun entry member => ?_, fun node member child below => ?_,
    fun node member upper step => ?_, fun node member => ?_,
      fun node absent => absurd absent (Set.notMem_empty node),
    fun one first two second apart _ => ?_⟩
  · exact ⟨fun member => .inr (mem_singleton.mpr member), fun either =>
      either.elim (fun absent => absurd absent (Set.notMem_empty node)) mem_singleton.mp⟩
  · rw [mem_singleton.mp member]
    refine ⟨suffix_refl _, fun child below same => ?_⟩
    have step := (listed.mem child root).mp below
    rw [(alone child).mp same, top] at step
    exact absurd step (Option.some_ne_none root).symm
  · right
    rw [(alone node).mp member] at below
    exact ⟨_, mem_singleton_self _, ((alone node).mp member).symm, below⟩
  · rw [(alone node).mp member, top] at step
    exact absurd step (Option.some_ne_none upper).symm
  · change numIn node < 1
    rw [(alone node).mp member, zero]
    exact Nat.one_pos
  · rw [(alone one).mp first, (alone two).mp second] at apart
    exact absurd (Above.refl root) apart

/-! ### Single steps -/

theorem Numbered.fresh_child (numbered : Numbered parent children walk)
    (shape : walk.stack = (node, child :: rest) :: below) : child ∉ walk.seen :=
  (numbered.rest _ (by rw [shape]; exact mem_cons_self)).2 child mem_cons_self

theorem Numbered.parent_child (listed : Listed parent children)
    (numbered : Numbered parent children walk)
    (shape : walk.stack = (node, child :: rest) :: below) : parent child = some node := by
  have here := numbered.rest _ (by rw [shape]; exact mem_cons_self)
  exact (listed.mem child node).mp (here.1.subset mem_cons_self)

theorem Numbered.above_child (listed : Listed parent children)
    (numbered : Numbered parent children walk)
    (shape : walk.stack = (node, child :: rest) :: below) :
    ∀ entry ∈ node :: below.map Prod.fst, Above parent entry child := by
  have step := numbered.parent_child listed shape
  have chain := numbered.chain
  rw [shape, map_cons, pairwise_cons] at chain
  intro entry member
  rcases mem_cons.mp member with rfl | deeper
  · exact above_parent step
  · exact (chain.1 entry deeper).trans (above_parent step)

theorem Numbered.visit_rest (leveled : Leveled parent level) (listed : Listed parent children)
    (numbered : Numbered parent children walk) (shape : walk.stack = (node, child :: rest) :: below) :
    ∀ entry ∈ (child, children child) :: (node, rest) :: below,
      entry.2 <:+ children entry.1 ∧ ∀ next ∈ entry.2, next ∉ insert child walk.seen := by
  have here := numbered.rest _ (by rw [shape]; exact mem_cons_self)
  have fresh := numbered.fresh_child shape
  have distinct := numbered.distinct
  rw [shape, map_cons] at distinct
  intro entry member
  rcases mem_cons.mp member with rfl | member
  · refine ⟨suffix_refl _, fun next nested => ?_⟩
    have up := (listed.mem next child).mp nested
    rintro (same | old)
    · have loop := leveled _ _ (same ▸ up)
      omega
    · exact fresh (numbered.up next old child up).1
  · rcases mem_cons.mp member with rfl | deeper
    · refine ⟨(suffix_cons child rest).trans here.1, fun next nested => ?_⟩
      rintro (same | old)
      · have nodup := (listed.nodup node).sublist here.1.sublist
        exact (nodup_cons.mp nodup).1 (same ▸ nested)
      · exact here.2 next (mem_cons_of_mem child nested) old
    · have old := numbered.rest entry (by rw [shape]; exact mem_cons_of_mem _ deeper)
      refine ⟨old.1, fun next nested => ?_⟩
      rintro (same | seen)
      · have up := (listed.mem next entry.1).mp (old.1.subset nested)
        rw [same, numbered.parent_child listed shape] at up
        have equal : node = entry.1 := Option.some.inj up
        have onStack : node ∈ below.map Prod.fst := by
          rw [equal]
          exact List.mem_map_of_mem deeper
        exact (nodup_cons.mp distinct).1 onStack
      · exact old.2 next nested seen

theorem Numbered.visit_covered (numbered : Numbered parent children walk)
    (shape : walk.stack = (node, child :: rest) :: below) :
    ∀ entry ∈ insert child walk.seen, ∀ next ∈ children entry, next ∈ insert child walk.seen ∨
      ∃ place ∈ (child, children child) :: (node, rest) :: below,
        place.1 = entry ∧ next ∈ place.2 := by
  rintro entry (same | old) next nested
  · right
    rw [same] at nested
    exact ⟨_, mem_cons_self, same.symm, nested⟩
  · rcases numbered.covered entry old next nested with seen | ⟨place, inStack, same, inRest⟩
    · exact .inl (Set.mem_insert_of_mem child seen)
    · rw [shape] at inStack
      rcases mem_cons.mp inStack with rfl | deeper
      · rcases mem_cons.mp inRest with rfl | later
        · exact .inl (Set.mem_insert next walk.seen)
        · exact .inr ⟨(node, rest), mem_cons_of_mem _ mem_cons_self, same, later⟩
      · exact .inr ⟨place, mem_cons_of_mem _ (mem_cons_of_mem _ deeper), same, inRest⟩

section Steps

variable [DecidableEq Node]

theorem Numbered.numIn_kept (numbered : Numbered parent children walk)
    (shape : walk.stack = (node, child :: rest) :: below) :
    ∀ entry ∈ walk.seen, update walk.numIn child walk.next entry = walk.numIn entry := by
  intro entry member
  refine update_of_ne (fun same : entry = child => ?_) _ _
  exact numbered.fresh_child shape (same ▸ member)

theorem Numbered.visit_up (listed : Listed parent children)
    (numbered : Numbered parent children walk) (shape : walk.stack = (node, child :: rest) :: below) :
    ∀ entry ∈ insert child walk.seen, ∀ upper, parent entry = some upper →
      upper ∈ insert child walk.seen ∧
        update walk.numIn child walk.next upper < update walk.numIn child walk.next entry ∧
        (upper ∈ walk.left → entry ∈ walk.left ∧ walk.numOut entry < walk.numOut upper) := by
  have keptIn := numbered.numIn_kept shape
  have onTop : node ∈ walk.stack.map Prod.fst := by
    rw [shape]
    exact mem_cons_self
  have known : node ∈ walk.seen := (numbered.split node).mpr (.inr onTop)
  rintro entry (rfl | old) upper up
  · rw [numbered.parent_child listed shape] at up
    cases up
    refine ⟨Set.mem_insert_of_mem entry known, ?_, fun gone => ?_⟩
    · rw [keptIn node known, update_self]
      exact numbered.low node known
    · exact absurd gone (numbered.stays node onTop)
  · obtain ⟨seen, order, finish⟩ := numbered.up entry old upper up
    refine ⟨Set.mem_insert_of_mem child seen, ?_, finish⟩
    rw [keptIn upper seen, keptIn entry old]
    exact order

theorem Numbered.visit_apart (listed : Listed parent children)
    (numbered : Numbered parent children walk) (shape : walk.stack = (node, child :: rest) :: below) :
    ∀ one ∈ insert child walk.seen, ∀ two ∈ insert child walk.seen,
      ¬ Above parent one two → ¬ Above parent two one →
        (one ∈ walk.left ∧ walk.numOut one < update walk.numIn child walk.next two) ∨
          (two ∈ walk.left ∧ walk.numOut two < update walk.numIn child walk.next one) := by
  have keptIn := numbered.numIn_kept shape
  -- a node that is not above the child is off the stack
  have off : ∀ entry ∈ walk.seen, ¬ Above parent entry child → entry ∈ walk.left := by
    intro entry seen notAbove
    refine ((numbered.split entry).mp seen).resolve_right fun onIt => ?_
    rw [shape] at onIt
    exact notAbove (numbered.above_child listed shape entry onIt)
  rintro one (rfl | oldOne) two (rfl | oldTwo) notOne notTwo
  · exact absurd (Above.refl _) notOne
  · right
    have gone := off two oldTwo notTwo
    rw [update_self]
    exact ⟨gone, (numbered.order two gone).2⟩
  · left
    have gone := off one oldOne notOne
    rw [update_self]
    exact ⟨gone, (numbered.order one gone).2⟩
  · rw [keptIn one oldOne, keptIn two oldTwo]
    exact numbered.apart one oldOne two oldTwo notOne notTwo

theorem Numbered.visit (leveled : Leveled parent level) (listed : Listed parent children)
    (numbered : Numbered parent children walk) (shape : walk.stack = (node, child :: rest) :: below) :
    Numbered parent children (walk.visit node child rest (children child) below) := by
  have fresh := numbered.fresh_child shape
  have keptIn := numbered.numIn_kept shape
  have distinct := numbered.distinct
  have chain := numbered.chain
  rw [shape, map_cons] at distinct chain
  have inSeen : ∀ entry ∈ walk.left, entry ∈ walk.seen :=
    fun entry gone => (numbered.split entry).mpr (.inl gone)
  have onStack : ∀ entry ∈ node :: below.map Prod.fst, entry ∈ walk.seen := by
    intro entry member
    refine (numbered.split entry).mpr (.inr ?_)
    rw [shape]
    exact member
  refine ⟨fun entry => ?_, ?_, fun entry member => ?_, ?_, numbered.visit_rest leveled listed shape,
    numbered.visit_covered shape, numbered.visit_up listed shape, fun entry member => ?_,
    fun entry gone => ?_, numbered.visit_apart listed shape⟩
  · have old := numbered.split entry
    rw [shape, map_cons] at old
    change entry ∈ insert child walk.seen ↔
      entry ∈ walk.left ∨ entry ∈ child :: node :: below.map Prod.fst
    rw [Set.mem_insert_iff, mem_cons, old]
    exact or_left_comm
  · change (child :: node :: below.map Prod.fst).Nodup
    exact nodup_cons.mpr ⟨fun member => fresh (onStack child member), distinct⟩
  · rcases mem_cons.mp member with rfl | deeper
    · exact fun gone => fresh (inSeen entry gone)
    · apply numbered.stays entry
      rw [shape]
      exact deeper
  · change (child :: node :: below.map Prod.fst).Pairwise _
    exact pairwise_cons.mpr ⟨numbered.above_child listed shape, chain⟩
  · change update walk.numIn child walk.next entry < walk.next + 1
    rcases member with rfl | old
    · rw [update_self]
      exact Nat.lt_succ_self _
    · rw [keptIn entry old]
      exact Nat.lt_succ_of_lt (numbered.low entry old)
  · have order := numbered.order entry gone
    change update walk.numIn child walk.next entry < walk.numOut entry ∧
      walk.numOut entry < walk.next + 1
    rw [keptIn entry (inSeen entry gone)]
    exact ⟨order.1, Nat.lt_succ_of_lt order.2⟩

theorem Numbered.leave (leveled : Leveled parent level) (numbered : Numbered parent children walk)
    (shape : walk.stack = (node, []) :: below) : Numbered parent children (walk.leave node below) := by
  have stays : node ∉ walk.left := numbered.stays node (by rw [shape]; exact mem_cons_self)
  have known : node ∈ walk.seen := (numbered.split node).mpr (.inr (by rw [shape]; exact mem_cons_self))
  have distinct := numbered.distinct
  have chain := numbered.chain
  rw [shape, map_cons] at distinct chain
  have keptOut : ∀ entry ∈ walk.left, update walk.numOut node walk.next entry = walk.numOut entry :=
    fun entry gone =>
    update_of_ne (fun same : entry = node => stays (same ▸ gone)) _ _
  refine ⟨fun entry => ?_, (nodup_cons.mp distinct).2, fun entry member => ?_,
    (pairwise_cons.mp chain).2,
    fun entry member => ?_, fun entry member next nested => ?_, fun entry member upper up => ?_,
    fun entry member => Nat.lt_succ_of_lt (numbered.low entry member), fun entry gone => ?_,
    fun one first two second notOne notTwo => ?_⟩
  · have old := numbered.split entry
    rw [shape, map_cons, mem_cons] at old
    change entry ∈ walk.seen ↔ entry ∈ insert node walk.left ∨ entry ∈ below.map Prod.fst
    rw [old, Set.mem_insert_iff, or_left_comm, or_assoc]
  · rintro (same | gone)
    · exact (nodup_cons.mp distinct).1 (same ▸ member)
    · exact numbered.stays entry (by rw [shape]; exact mem_cons_of_mem _ member) gone
  · exact numbered.rest entry (by rw [shape]; exact mem_cons_of_mem _ member)
  · rcases numbered.covered entry member next nested with seen | ⟨place, inStack, same, inRest⟩
    · exact .inl seen
    · rw [shape] at inStack
      rcases mem_cons.mp inStack with rfl | deeper
      · exact absurd inRest not_mem_nil
      · exact .inr ⟨place, deeper, same, inRest⟩
  · obtain ⟨seen, order, finish⟩ := numbered.up entry member upper up
    refine ⟨seen, order, ?_⟩
    change upper ∈ insert node walk.left → entry ∈ insert node walk.left ∧
      update walk.numOut node walk.next entry < update walk.numOut node walk.next upper
    rintro (rfl | gone)
    · -- the children of the node are off the stack, on which only nodes above it are left
      have off : entry ∈ walk.left := by
        refine ((numbered.split entry).mp member).resolve_right fun onIt => ?_
        rw [shape] at onIt
        have low := leveled _ _ up
        rcases mem_cons.mp onIt with same | deeper
        · have equal : entry = upper := same
          rw [equal] at low
          omega
        · have high := ((pairwise_cons.mp chain).1 entry deeper).level_le leveled
          dsimp only at high
          omega
      refine ⟨Set.mem_insert_of_mem upper off, ?_⟩
      rw [keptOut entry off, update_self]
      exact (numbered.order entry off).2
    · obtain ⟨off, less⟩ := finish gone
      refine ⟨Set.mem_insert_of_mem node off, ?_⟩
      rw [keptOut entry off, keptOut upper gone]
      exact less
  · change walk.numIn entry < update walk.numOut node walk.next entry ∧
      update walk.numOut node walk.next entry < walk.next + 1
    rcases gone with rfl | old
    · rw [update_self]
      exact ⟨numbered.low entry known, Nat.lt_succ_self _⟩
    · have order := numbered.order entry old
      rw [keptOut entry old]
      exact ⟨order.1, Nat.lt_succ_of_lt order.2⟩
  · change (one ∈ insert node walk.left ∧ update walk.numOut node walk.next one < walk.numIn two) ∨
      (two ∈ insert node walk.left ∧ update walk.numOut node walk.next two < walk.numIn one)
    rcases numbered.apart one first two second notOne notTwo with ⟨gone, less⟩ | ⟨gone, less⟩
    · left
      rw [keptOut one gone]
      exact ⟨Set.mem_insert_of_mem node gone, less⟩
    · right
      rw [keptOut two gone]
      exact ⟨Set.mem_insert_of_mem node gone, less⟩

end Steps

section Over

variable {top : Node}

theorem Numbered.all_seen (listed : Listed parent children) (numbered : Numbered parent children walk)
    (empty : walk.stack = []) (seen : top ∈ walk.seen) (above : Above parent top node) : node ∈ walk.seen := by
  induction above with
  | refl => exact seen
  | tail _ step ih =>
      rcases numbered.covered _ ih _ ((listed.mem _ _).mpr step) with next | ⟨entry, inStack, -⟩
      · exact next
      · rw [empty] at inStack
        exact absurd inStack not_mem_nil

theorem Numbered.all_left (numbered : Numbered parent children walk) (empty : walk.stack = [])
    (seen : node ∈ walk.seen) : node ∈ walk.left := by
  refine ((numbered.split node).mp seen).resolve_right fun onIt => ?_
  rw [empty] at onIt
  exact absurd onIt not_mem_nil

theorem Numbered.above_iff (numbered : Numbered parent children walk) (empty : walk.stack = []) {one two : Node}
    (first : one ∈ walk.seen) (second : two ∈ walk.seen) :
    Above parent one two ↔ walk.numIn one ≤ walk.numIn two ∧ walk.numOut two ≤ walk.numOut one := by
  have around : ∀ {upper lower}, lower ∈ walk.seen → Above parent upper lower →
      upper ∈ walk.seen ∧ walk.numIn upper ≤ walk.numIn lower ∧ walk.numOut lower ≤ walk.numOut upper ∧
        (upper ≠ lower → walk.numIn upper < walk.numIn lower) := by
    intro upper lower seen above
    induction above with
    | refl => exact ⟨seen, Nat.le_refl _, Nat.le_refl _, fun differs => absurd rfl differs⟩
    | tail _ step ih =>
        obtain ⟨known, less, finish⟩ := numbered.up _ seen _ step
        obtain ⟨upper', low, high, -⟩ := ih known
        have out := (finish (numbered.all_left empty known)).2
        exact ⟨upper', by omega, by omega, fun _ => by omega⟩
  constructor
  · intro above
    obtain ⟨-, low, high, -⟩ := around second above
    exact ⟨low, high⟩
  · rintro ⟨low, high⟩
    by_contra notOne
    by_cases notTwo : Above parent two one
    · have differs : two ≠ one := by
        rintro rfl
        exact notOne (Above.refl two)
      have less := (around first notTwo).2.2.2 differs
      omega
    · have inTwo := (numbered.order two (numbered.all_left empty second)).1
      rcases numbered.apart one first two second notOne notTwo with ⟨-, less⟩ | ⟨-, less⟩ <;> omega

end Over

end EvmBackend.TreeNumbering
