/-
The in-order iterator visits the nodes of a tree in order, and the comparison of
two trees by their iterators compares their entries.

An iterator is the path to the visited node, with what has been visited below each
node of it. What is still ahead of it is a list, and every step keeps that list or
takes its head.
-/

import EvmBackend.ADT.ImmutableSet.Updates

namespace EvmBackend.ImutAVLTreeIterator

open ImutAVLTree VisitFlag List

variable {Value Key Data : Type}

def nodes : ImutAVLTree Value → List (ImutAVLTree Value)
  | null => []
  | node address left value right height =>
      nodes left ++ node address left value right height :: nodes right

def ahead : ImutAVLTree Value × VisitFlag → List (ImutAVLTree Value)
  | (tree, VisitedNone) => nodes tree
  | (node address left value right height, VisitedLeft) =>
      node address left value right height :: nodes right
  | _ => []

/-- What is ahead at a node when the walk below it is over. -/
def behind : ImutAVLTree Value × VisitFlag → List (ImutAVLTree Value)
  | (node address left value right height, VisitedNone) =>
      node address left value right height :: nodes right
  | _ => []

def remaining : ImutAVLTreeIterator Value → List (ImutAVLTree Value)
  | [] => []
  | entry :: path => ahead entry ++ path.flatMap behind

def stepsAhead : ImutAVLTree Value × VisitFlag → Nat
  | (tree, VisitedNone) => 3 * tree.size
  | (node _ _ _ right _, VisitedLeft) => 2 + 3 * right.size
  | _ => 1

def stepsBehind : ImutAVLTree Value × VisitFlag → Nat
  | (node _ _ _ right _, VisitedNone) => 2 + 3 * right.size
  | _ => 1

def steps : ImutAVLTreeIterator Value → Nat
  | [] => 0
  | entry :: path => stepsAhead entry + (path.map stepsBehind).sum

/-- No node of the path is empty, and a walk is going on below all but the first. -/
structure Sound (path : ImutAVLTreeIterator Value) : Prop where
  nonempty : ∀ entry ∈ path, entry.1.isEmpty = false
  below : ∀ entry ∈ path.tail, entry.2 ≠ VisitedRight

section Walk

variable {entry : ImutAVLTree Value × VisitFlag} {path : ImutAVLTreeIterator Value}

theorem Sound.parents (sound : Sound (entry :: path)) :
    ∀ parent ∈ path, parent.1.isEmpty = false ∧ parent.2 ≠ VisitedRight := fun parent member =>
  ⟨sound.nonempty parent (mem_cons_of_mem _ member), sound.below parent member⟩

theorem Sound.replace {other : ImutAVLTree Value × VisitFlag} (sound : Sound (entry :: path))
    (nonempty : other.1.isEmpty = false) : Sound (other :: path) := by
  refine ⟨?_, sound.below⟩
  intro member isMember
  rcases mem_cons.mp isMember with rfl | above
  · exact nonempty
  · exact (sound.parents member above).1

theorem Sound.push {other : ImutAVLTree Value × VisitFlag} (sound : Sound (entry :: path))
    (nonempty : other.1.isEmpty = false) (walking : entry.2 ≠ VisitedRight) :
    Sound (other :: entry :: path) := by
  refine ⟨?_, ?_⟩
  · intro member isMember
    rcases mem_cons.mp isMember with rfl | above
    · exact nonempty
    · exact sound.nonempty member above
  · intro member isMember
    rcases mem_cons.mp isMember with rfl | above
    · exact walking
    · exact sound.below member above

theorem nodes_eq_nil {tree : ImutAVLTree Value} (empty : tree.isEmpty = true) :
    nodes tree = [] ∧ tree.size = 0 := by
  cases tree with
  | null => exact ⟨rfl, rfl⟩
  | node => cases empty

theorem skipToParent_remaining (sound : Sound (entry :: path)) :
    ∃ path', skipToParent (entry :: path) = some path' ∧ Sound path' ∧
      remaining path' = path.flatMap behind ∧ steps path' = (path.map stepsBehind).sum := by
  cases path with
  | nil => exact ⟨[], rfl, ⟨fun _ member => (not_mem_nil member).elim,
      fun _ member => (not_mem_nil member).elim⟩, rfl, rfl⟩
  | cons parent above =>
      obtain ⟨tree, flag⟩ := parent
      have nonempty := (sound.parents (tree, flag) mem_cons_self).1
      have up : Sound ((tree, flag) :: above) :=
        ⟨fun member isMember => sound.nonempty member (mem_cons_of_mem _ isMember),
          fun member isMember => sound.below member (mem_of_mem_tail isMember)⟩
      cases tree with
      | null => cases nonempty
      | node address left value right height =>
          cases flag with
          | VisitedNone | VisitedLeft => exact ⟨_, rfl, up.replace rfl, rfl, rfl⟩
          | VisitedRight =>
              exact absurd rfl (sound.parents _ mem_cons_self).2

/-- A step takes the visited node off the list where its left subtree is done, and keeps
the list everywhere else. -/
theorem genericNext_remaining (sound : Sound (entry :: path)) :
    ∃ path', genericNext (entry :: path) = some path' ∧ Sound path' ∧
      remaining path' =
        (if entry.2 = VisitedLeft then (remaining (entry :: path)).tail
          else remaining (entry :: path)) ∧
      steps path' < steps (entry :: path) := by
  obtain ⟨tree, flag⟩ := entry
  have nonempty := sound.nonempty (tree, flag) mem_cons_self
  cases tree with
  | null => cases nonempty
  | node address left value right height =>
      cases flag with
      | VisitedNone =>
          rw [if_neg (by simp)]
          by_cases empty : left.isEmpty = true
          · obtain ⟨none, zero⟩ := nodes_eq_nil empty
            refine ⟨_, if_pos empty, sound.replace rfl, ?_, ?_⟩
            · simp only [remaining, ahead, nodes, none, nil_append]
            · simp only [steps, stepsAhead, ImutAVLTree.size, zero]
              omega
          · refine ⟨_, if_neg empty, sound.push (Bool.not_eq_true _ ▸ empty) (by simp), ?_, ?_⟩
            · simp only [remaining, ahead, nodes, behind, flatMap_cons, List.append_assoc,
                List.cons_append]
            · simp only [steps, stepsAhead, stepsBehind, ImutAVLTree.size, map_cons,
                sum_cons]
              omega
      | VisitedLeft =>
          rw [if_pos rfl]
          by_cases empty : right.isEmpty = true
          · obtain ⟨none, zero⟩ := nodes_eq_nil empty
            refine ⟨_, if_pos empty, sound.replace rfl, ?_, ?_⟩
            · simp only [remaining, ahead, none, nil_append, List.cons_append, tail_cons]
            · simp only [steps, stepsAhead, zero]
              omega
          · refine ⟨_, if_neg empty, sound.push (Bool.not_eq_true _ ▸ empty) (by simp), ?_, ?_⟩
            · simp only [remaining, ahead, behind, flatMap_cons, nil_append,
                List.cons_append, tail_cons]
            · simp only [steps, stepsAhead, stepsBehind, map_cons, sum_cons]
              omega
      | VisitedRight =>
          rw [if_neg (by simp)]
          obtain ⟨path', moved, up, same, fewer⟩ := skipToParent_remaining sound
          refine ⟨path', moved, up, ?_, ?_⟩
          · rw [same]
            rfl
          · rw [fewer]
            simp only [steps, stepsAhead]
            omega

theorem steps_le_stepsBound (sound : Sound path) : steps path ≤ path.stepsBound := by
  have behindLe : ∀ entry : ImutAVLTree Value × VisitFlag, entry.1.isEmpty = false →
      stepsBehind entry ≤ 3 * entry.1.size := by
    rintro ⟨tree, flag⟩ nonempty
    cases tree with
    | null => cases nonempty
    | node =>
        cases flag <;> simp only [stepsBehind, ImutAVLTree.size] <;> omega
  have sums : ∀ path : ImutAVLTreeIterator Value, (∀ entry ∈ path, entry.1.isEmpty = false) →
      (path.map stepsBehind).sum ≤ path.stepsBound := by
    intro path nonempty
    induction path with
    | nil => exact Nat.le_refl _
    | cons entry path ih =>
        have first := behindLe entry (nonempty entry mem_cons_self)
        have rest := ih fun other member => nonempty other (mem_cons_of_mem _ member)
        simp only [stepsBound, map_cons, sum_cons] at *
        omega
  cases path with
  | nil => exact Nat.le_refl _
  | cons entry path =>
      obtain ⟨tree, flag⟩ := entry
      have rest := sums path fun other member => (sound.parents other member).1
      cases tree with
      | null => cases sound.nonempty _ mem_cons_self
      | node =>
          cases flag <;>
            simp only [steps, stepsAhead, stepsBound, ImutAVLTree.size, map_cons,
              sum_cons] at * <;>
            omega

theorem settle_remaining (sound : Sound path) {bound : Nat} (enough : steps path ≤ bound) :
    ∃ path', settle bound path = some path' ∧ Sound path' ∧ path'.atValue = true ∧
      remaining path' = remaining path := by
  induction bound generalizing path with
  | zero =>
      cases path with
      | nil => exact ⟨[], rfl, sound, rfl, rfl⟩
      | cons entry path =>
          obtain ⟨_, _, _, _, fewer⟩ := genericNext_remaining sound
          omega
  | succ bound ih =>
      unfold settle
      by_cases reached : path.atValue = true
      · rw [if_pos reached]
        exact ⟨path, rfl, sound, reached, rfl⟩
      rw [if_neg reached]
      cases path with
      | nil => exact absurd rfl reached
      | cons entry path =>
          obtain ⟨path', moved, sound', same, fewer⟩ := genericNext_remaining sound
          have walking : ¬ entry.2 = VisitedLeft := by
            intro left
            apply reached
            exact beq_iff_eq.mpr left
          rw [if_neg walking] at same
          obtain ⟨final, settled, final', value, whole⟩ := ih sound' (by omega)
          refine ⟨final, ?_, final', value, whole.trans same⟩
          change (genericNext (entry :: path)).bind (settle bound) = some final
          rw [moved]
          exact settled

theorem exists_of_atValue (sound : Sound (entry :: path)) (value : atValue (entry :: path) = true) :
    ∃ address left stored right height,
      entry = (node address left stored right height, VisitedLeft) ∧
        remaining (entry :: path) =
          node address left stored right height :: (nodes right ++ path.flatMap behind) := by
  obtain ⟨tree, flag⟩ := entry
  cases tree with
  | null => cases sound.nonempty _ mem_cons_self
  | node address left stored right height =>
      have flagged : flag = VisitedLeft := beq_iff_eq.mp value
      exact ⟨address, left, stored, right, height, by rw [flagged], by rw [flagged]; rfl⟩

theorem next_remaining (sound : Sound (entry :: path)) (value : atValue (entry :: path) = true) :
    ∃ path', next (entry :: path) = some path' ∧ Sound path' ∧ path'.atValue = true ∧
      remaining path' = (remaining (entry :: path)).tail := by
  obtain ⟨path', moved, sound', same, _⟩ := genericNext_remaining sound
  rw [if_pos (beq_iff_eq.mp value)] at same
  obtain ⟨final, settled, final', reached, whole⟩ :=
    settle_remaining sound' (steps_le_stepsBound sound')
  refine ⟨final, ?_, final', reached, whole.trans same⟩
  rw [next, moved]
  exact settled

theorem skipSubTree_remaining (sound : Sound (entry :: path)) :
    ∃ path', skipSubTree (entry :: path) = some path' ∧ Sound path' ∧ path'.atValue = true ∧
      remaining path' = path.flatMap behind := by
  obtain ⟨path', moved, sound', same, _⟩ := skipToParent_remaining sound
  obtain ⟨final, settled, final', reached, whole⟩ :=
    settle_remaining sound' (steps_le_stepsBound sound')
  refine ⟨final, ?_, final', reached, whole.trans same⟩
  rw [skipSubTree, moved]
  exact settled

theorem begin_remaining (tree : ImutAVLTree Value) :
    ∃ path, begin tree = some path ∧ Sound path ∧ path.atValue = true ∧
      remaining path = nodes tree := by
  unfold begin
  by_cases empty : tree.isEmpty = true
  · rw [if_pos empty, (nodes_eq_nil empty).1]
    exact ⟨[], rfl, ⟨fun _ member => (not_mem_nil member).elim,
      fun _ member => (not_mem_nil member).elim⟩, rfl, rfl⟩
  · have sound : Sound [(tree, VisitedNone)] := by
      refine ⟨?_, fun _ member => (not_mem_nil member).elim⟩
      intro entry member
      rw [mem_singleton.mp member]
      exact Bool.not_eq_true _ ▸ empty
    obtain ⟨path', moved, sound', same, _⟩ := genericNext_remaining sound
    rw [if_neg (by simp)] at same
    obtain ⟨final, settled, final', reached, whole⟩ :=
      settle_remaining sound' (steps_le_stepsBound sound')
    refine ⟨final, ?_, final', reached, ?_⟩
    · rw [if_neg empty, next, moved]
      exact settled
    · rw [whole, same]
      exact append_nil _

end Walk

/-! ### Values -/

theorem nodes_getValue (tree : ImutAVLTree Value) :
    (nodes tree).map ImutAVLTree.getValue? = tree.inOrder.map some := by
  induction tree with
  | null => rfl
  | node address left value right height leftSame rightSame =>
      rw [nodes, inOrder, map_append, map_append, map_cons, map_cons, leftSame,
        rightSame]
      rfl

theorem values_remaining {path : ImutAVLTreeIterator Value} (sound : Sound path)
    (value : path.atValue = true) {read : List Value}
    (reads : (remaining path).map ImutAVLTree.getValue? = read.map some) {bound : Nat}
    (enough : read.length ≤ bound) : values bound path = some read := by
  induction read generalizing path bound with
  | nil =>
      cases path with
      | nil => cases bound <;> rfl
      | cons entry path =>
          obtain ⟨_, _, _, _, _, _, ahead⟩ := exists_of_atValue sound value
          rw [ahead] at reads
          cases reads
  | cons first read ih =>
      cases path with
      | nil => cases reads
      | cons entry path =>
          obtain ⟨address, left, stored, right, height, rfl, ahead⟩ := exists_of_atValue sound value
          obtain ⟨path', moved, sound', value', rest⟩ := next_remaining sound value
          rw [ahead] at rest
          rw [ahead, map_cons, map_cons] at reads
          obtain ⟨head, tail⟩ := List.cons.inj reads
          cases bound with
          | zero => exact absurd enough (Nat.not_succ_le_zero _)
          | succ bound =>
              have others := ih sound' value' (by rw [rest]; exact tail)
                (Nat.le_of_succ_le_succ enough)
              rw [values, moved]
              change (some stored).bind (fun value => (values bound path').bind fun others =>
                some (value :: others)) = _
              rw [others, Option.some.inj head]
              rfl

theorem values_begin (tree : ImutAVLTree Value) :
    ∃ path, begin tree = some path ∧ values tree.inOrder.length path = some tree.inOrder := by
  obtain ⟨path, started, sound, value, ahead⟩ := begin_remaining tree
  refine ⟨path, started, values_remaining sound value ?_ (Nat.le_refl _)⟩
  rw [ahead]
  exact nodes_getValue tree

section Comparison

variable [LinearOrder Key] [DecidableEq Data] (info : ImutInfo Value Key Data)

def shown (value : Value) : Key × Data := (info.KeyOfValue value, info.DataOfValue value)

theorem isElementEqual_iff (left right : Value) :
    isElementEqual info left right = true ↔ shown info left = shown info right := by
  rw [isElementEqual, Bool.and_eq_true, beq_iff_eq, beq_iff_eq, shown, shown, Prod.mk.injEq]

def Coherent (left right : List (ImutAVLTree Value)) : Prop :=
  ∀ first ∈ left, ∀ second ∈ right, first.address? = second.address? → first = second

def entriesAhead (path : ImutAVLTreeIterator Value) : List (Option (Key × Data)) :=
  (remaining path).map fun tree => tree.getValue?.map (shown info)

theorem isEqualFrom_atEnd {right : ImutAVLTreeIterator Value} (sound : Sound right)
    (value : right.atValue = true) (bound : Nat) :
    isEqualFrom info bound [] right =
      some (decide (entriesAhead info [] = entriesAhead info right)) := by
  cases right with
  | nil => cases bound <;> rfl
  | cons entry path =>
      obtain ⟨_, _, _, _, _, _, ahead⟩ := exists_of_atValue sound value
      rw [entriesAhead, entriesAhead, ahead]
      cases bound <;> rfl

theorem isEqualFrom_remaining {left right : ImutAVLTreeIterator Value} (leftSound : Sound left)
    (leftValue : left.atValue = true) (rightSound : Sound right) (rightValue : right.atValue = true)
    (coherent : Coherent (remaining left) (remaining right)) {bound : Nat}
    (enough : (remaining left).length ≤ bound) :
    isEqualFrom info bound left right =
      some (decide (entriesAhead info left = entriesAhead info right)) := by
  induction bound generalizing left right with
  | zero =>
      cases left with
      | nil => exact isEqualFrom_atEnd info rightSound rightValue 0
      | cons entry path =>
          obtain ⟨_, _, _, _, _, _, ahead⟩ := exists_of_atValue leftSound leftValue
          rw [ahead] at enough
          exact absurd enough (Nat.not_succ_le_zero _)
  | succ bound ih =>
      cases left with
      | nil => exact isEqualFrom_atEnd info rightSound rightValue _
      | cons leftEntry leftPath =>
          obtain ⟨leftAddress, leftLeft, leftStored, leftRight, leftHeight, rfl, leftAhead⟩ :=
            exists_of_atValue leftSound leftValue
          rw [leftAhead] at enough
          cases right with
          | nil =>
              rw [entriesAhead, leftAhead]
              rfl
          | cons rightEntry rightPath =>
              obtain ⟨rightAddress, rightLeft, rightStored, rightRight, rightHeight, rfl,
                rightAhead⟩ := exists_of_atValue rightSound rightValue
              rw [leftAhead, rightAhead] at coherent
              rw [isEqualFrom]
              by_cases same : (node leftAddress leftLeft leftStored leftRight leftHeight).address? =
                  (node rightAddress rightLeft rightStored rightRight rightHeight).address?
              · -- the rest of the shared subtree is ahead of both walks
                have shared := coherent _ mem_cons_self _ mem_cons_self same
                obtain ⟨_, _, _, rfl, _⟩ := ImutAVLTree.node.inj shared
                obtain ⟨left', leftMoved, leftSound', leftValue', leftRest⟩ :=
                  skipSubTree_remaining leftSound
                obtain ⟨right', rightMoved, rightSound', rightValue', rightRest⟩ :=
                  skipSubTree_remaining rightSound
                rw [if_pos same, leftMoved, rightMoved]
                refine (ih leftSound' leftValue' rightSound' rightValue' ?_ ?_).trans ?_
                · rw [leftRest, rightRest]
                  intro first firstMember second secondMember
                  exact coherent first
                    (mem_cons_of_mem _ (mem_append_right _ firstMember)) second
                    (mem_cons_of_mem _ (mem_append_right _ secondMember))
                · rw [leftRest]
                  simp only [length_cons, length_append] at enough
                  omega
                · refine congrArg some (decide_eq_decide.mpr ?_)
                  rw [entriesAhead, entriesAhead, entriesAhead, entriesAhead, leftRest, rightRest,
                    leftAhead, rightAhead, shared, map_cons, map_cons, map_append,
                    map_append, cons_inj_right, append_cancel_left_eq]
              rw [if_neg same]
              change (if isElementEqual info leftStored rightStored = true then _ else _) = _
              by_cases equal : isElementEqual info leftStored rightStored = true
              · have head := (isElementEqual_iff info leftStored rightStored).mp equal
                obtain ⟨left', leftMoved, leftSound', leftValue', leftRest⟩ :=
                  next_remaining leftSound leftValue
                obtain ⟨right', rightMoved, rightSound', rightValue', rightRest⟩ :=
                  next_remaining rightSound rightValue
                rw [leftAhead, tail_cons] at leftRest
                rw [rightAhead, tail_cons] at rightRest
                rw [if_pos equal, leftMoved, rightMoved]
                refine (ih leftSound' leftValue' rightSound' rightValue' ?_ ?_).trans ?_
                · rw [leftRest, rightRest]
                  intro first firstMember second secondMember
                  exact coherent first (mem_cons_of_mem _ firstMember) second
                    (mem_cons_of_mem _ secondMember)
                · rw [leftRest]
                  exact Nat.le_of_succ_le_succ enough
                · have heads : (some leftStored).map (shown info) =
                      (some rightStored).map (shown info) := congrArg some head
                  refine congrArg some (decide_eq_decide.mpr ?_)
                  rw [entriesAhead, entriesAhead, entriesAhead, entriesAhead, leftRest, rightRest,
                    leftAhead, rightAhead, map_cons, map_cons, ImutAVLTree.getValue?,
                    ImutAVLTree.getValue?, heads, cons_inj_right]
              · rw [if_neg equal]
                congr 1
                refine (decide_eq_false ?_).symm
                intro entries
                rw [entriesAhead, entriesAhead, leftAhead, rightAhead] at entries
                have head := (List.cons.inj entries).1
                exact equal ((isElementEqual_iff info leftStored rightStored).mpr
                  (Option.some.inj head))

theorem nodes_stored {memory : ImutAVLFactory.Memory Value} {tree : ImutAVLTree Value}
    (stored : ImutAVLFactory.Stored memory tree) :
    ∀ part ∈ nodes tree, ∃ address, part.address? = some address ∧ memory address = some part := by
  induction tree with
  | null =>
      intro part member
      cases member
  | node address left value right height leftStored rightStored =>
      obtain ⟨here, inLeft, inRight⟩ := stored
      intro part member
      rcases mem_append.mp member with below | rest
      · exact leftStored inLeft part below
      · rcases mem_cons.mp rest with rfl | below
        · exact ⟨address, rfl, here⟩
        · exact rightStored inRight part below

theorem eq_of_address {memory : ImutAVLFactory.Memory Value} {left right : ImutAVLTree Value}
    (leftStored : ImutAVLFactory.Stored memory left)
    (rightStored : ImutAVLFactory.Stored memory right) (same : left.address? = right.address?) :
    left = right := by
  cases left with
  | null =>
      cases right with
      | null => rfl
      | node => cases same
  | node leftAddress =>
      cases right with
      | null => cases same
      | node rightAddress =>
          obtain rfl : leftAddress = rightAddress := Option.some.inj same
          exact Option.some.inj (leftStored.1.symm.trans rightStored.1)

omit [LinearOrder Key] [DecidableEq Data] in
theorem shown_nodes (tree : ImutAVLTree Value) :
    (nodes tree).map (fun part => part.getValue?.map (shown info)) =
      (tree.inOrder.map (shown info)).map some := by
  have values := congrArg (List.map (Option.map (shown info))) (nodes_getValue tree)
  rw [List.map_map, List.map_map] at values
  rw [List.map_map]
  exact values

theorem length_nodes (tree : ImutAVLTree Value) : (nodes tree).length = tree.size := by
  induction tree with
  | null => rfl
  | node address left value right height leftSame rightSame =>
      rw [nodes, length_append, length_cons, leftSame, rightSame, ImutAVLTree.size]
      omega

theorem isEqual_eq {memory : ImutAVLFactory.Memory Value} {left right : ImutAVLTree Value}
    (leftStored : ImutAVLFactory.Stored memory left)
    (rightStored : ImutAVLFactory.Stored memory right) :
    isEqual info left right =
      some (decide (left.inOrder.map (shown info) = right.inOrder.map (shown info))) := by
  unfold isEqual
  by_cases same : right.address? = left.address?
  · rw [if_pos same, eq_of_address rightStored leftStored same, decide_eq_true rfl]
  obtain ⟨leftPath, leftBegin, leftSound, leftValue, leftAhead⟩ := begin_remaining left
  obtain ⟨rightPath, rightBegin, rightSound, rightValue, rightAhead⟩ := begin_remaining right
  rw [if_neg same, leftBegin, rightBegin]
  have coherent : Coherent (remaining leftPath) (remaining rightPath) := by
    rw [leftAhead, rightAhead]
    intro first firstMember second secondMember sameAddress
    obtain ⟨address, atFirst, here⟩ := nodes_stored leftStored first firstMember
    obtain ⟨other, atSecond, there⟩ := nodes_stored rightStored second secondMember
    rw [atFirst, atSecond] at sameAddress
    rw [Option.some.inj sameAddress, there] at here
    exact (Option.some.inj here).symm
  refine (isEqualFrom_remaining info leftSound leftValue rightSound rightValue coherent ?_).trans ?_
  · exact Nat.le_of_eq ((congrArg List.length leftAhead).trans (length_nodes left))
  · refine congrArg some (decide_eq_decide.mpr ?_)
    rw [entriesAhead, entriesAhead, leftAhead, rightAhead, shown_nodes, shown_nodes]
    exact List.map_inj_right fun _ _ => Option.some.inj

theorem rootsEqual_eq {memory : ImutAVLFactory.Memory Value} {left right : ImutAVLTree Value}
    (leftStored : ImutAVLFactory.Stored memory left)
    (rightStored : ImutAVLFactory.Stored memory right) :
    rootsEqual info left right = isEqual info left right := by
  unfold rootsEqual
  by_cases empty : (left.isEmpty || right.isEmpty) = true
  · rw [if_pos empty, isEqual_eq info leftStored rightStored]
    cases left with
    | null =>
        cases right with
        | null => rfl
        | node => simp [ImutAVLTree.isEmpty, inOrder]
    | node =>
        cases right with
        | null => simp [ImutAVLTree.isEmpty, inOrder]
        | node => cases empty
  · rw [if_neg empty]

end Comparison

end EvmBackend.ImutAVLTreeIterator
