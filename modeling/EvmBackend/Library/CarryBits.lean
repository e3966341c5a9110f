/-
The bits of a sum and its carries.

A carry depends on the lower bits only and grows with them. The bit of a sum is
the exclusive or of the two bits and the carry into it.
-/

import Mathlib.Order.Nat

namespace EvmBackend.CarryBits

open BitVec

variable {w : Nat} {x x' y y' : BitVec w} {c : Bool}

def BitsBelow (x y : BitVec w) : Prop := ∀ i, x.getLsbD i = true → y.getLsbD i = true

def sum (x y : BitVec w) (c : Bool) : BitVec w := x + y + setWidth w (ofBool c)

theorem sum_bit {i : Nat} (inside : i < w) (x y : BitVec w) (c : Bool) :
    (sum x y c).getLsbD i = (x.getLsbD i ^^ (y.getLsbD i ^^ carry i x y c)) :=
  getLsbD_add_add_bool inside x y c

theorem atLeastTwo_mono {a a' b b' c c' : Bool} (first : a = true → a' = true) (second : b = true → b' = true)
    (third : c = true → c' = true) : Bool.atLeastTwo a b c = true → Bool.atLeastTwo a' b' c' = true := by
  revert a a' b b' c c'
  decide

theorem carry_mono (c c' : Bool) (left : BitsBelow x x') (right : BitsBelow y y')
    (start : c = true → c' = true) (i : Nat) :
    carry i x y c = true → carry i x' y' c' = true := by
  induction i with
  | zero =>
      rw [carry_zero, carry_zero]
      exact start
  | succ i ih =>
      rw [carry_succ, carry_succ]
      exact atLeastTwo_mono (left i) (right i) ih

theorem carry_congr {i : Nat} (left : ∀ j < i, x.getLsbD j = x'.getLsbD j)
    (right : ∀ j < i, y.getLsbD j = y'.getLsbD j) : carry i x y c = carry i x' y' c := by
  induction i with
  | zero => rw [carry_zero, carry_zero]
  | succ i ih =>
      rw [carry_succ, carry_succ, left i (Nat.lt_succ_self i), right i (Nat.lt_succ_self i),
        ih (fun j below => left j (below.trans (Nat.lt_succ_self i)))
          fun j below => right j (below.trans (Nat.lt_succ_self i))]

def flip (x : BitVec w) (i : Nat) : BitVec w := x ^^^ twoPow w i

theorem flip_self {i : Nat} (inside : i < w) (x : BitVec w) : (flip x i).getLsbD i = !x.getLsbD i := by
  rw [flip, getLsbD_xor, getLsbD_twoPow, decide_eq_true inside, decide_eq_true rfl, Bool.true_and, Bool.xor_true]

theorem flip_of_ne {i j : Nat} (differ : i ≠ j) (x : BitVec w) : (flip x i).getLsbD j = x.getLsbD j := by
  rw [flip, getLsbD_xor, getLsbD_twoPow, decide_eq_false differ, Bool.and_false, Bool.xor_false]

theorem sum_flip_left {i : Nat} (inside : i < w) (x y : BitVec w) (c : Bool) :
    (sum (flip x i) y c).getLsbD i = !(sum x y c).getLsbD i := by
  have carried : carry i (flip x i) y c = carry i x y c :=
    carry_congr (fun j below => flip_of_ne below.ne' x) fun _ _ => rfl
  rw [sum_bit inside, sum_bit inside, flip_self inside, carried, Bool.not_xor]

theorem sum_comm (x y : BitVec w) (c : Bool) : sum x y c = sum y x c := by
  rw [sum, sum, BitVec.add_comm x]

theorem sum_flip_right {i : Nat} (inside : i < w) (x y : BitVec w) (c : Bool) :
    (sum x (flip y i) c).getLsbD i = !(sum x y c).getLsbD i := by
  rw [sum_comm, sum_flip_left inside, sum_comm]

end EvmBackend.CarryBits
