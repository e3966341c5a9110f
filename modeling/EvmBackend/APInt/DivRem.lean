/-
Quotient and remainder at once, into variables that may be the operands.

The results of a division by one are put before the operands are compared, and
the function goes on with the operands it finds then. Every other short cut
reads its operands before it writes, so that only a divisor of one goes wrong,
and only where a result takes the place of an operand.
-/

import EvmBackend.APInt.DivisionValues

namespace EvmBackend.APInt

open Function

variable {Name : Type} [DecidableEq Name] {W : Nat}

section Variables

variable {vars : Variables Name} {name other : Name}

@[simp]
theorem assign_same (value : Nat) : assign W name value vars name = ⟨W, BitVec.ofNat W value⟩ :=
  update_self ..

@[simp]
theorem assign_ne (value : Nat) (different : other ≠ name) : assign W name value vars other = vars other :=
  update_of_ne different ..

@[simp]
theorem copy_same (source : Name) : copy name source vars name = vars source :=
  update_self ..

@[simp]
theorem copy_ne (source : Name) (different : other ≠ name) : copy name source vars other = vars other :=
  update_of_ne different ..

theorem copy_source (source : Name) : copy name source vars source = vars source := by
  by_cases same : source = name
  · rw [same, copy_same]
  · exact copy_ne source same

theorem reallocate_of_width {memory : (W : Nat) → BitVec W} (width : (vars other).BitWidth = W) :
    reallocate memory W name vars other = vars other := by
  unfold reallocate
  by_cases same : other = name
  · subst same
    rw [if_pos (by rw [width]), assign_same]
    subst width
    rw [Variable.value, BitVec.ofNat_toNat, BitVec.setWidth_eq]
  · split
    · exact assign_ne _ same
    · exact update_of_ne same ..

theorem reallocate_both (memory : (W : Nat) → BitVec W) (first second : Name)
    (width : (vars other).BitWidth = W) :
    reallocate memory W second (reallocate memory W first vars) other = vars other := by
  have kept : reallocate memory W first vars other = vars other := reallocate_of_width width
  rw [reallocate_of_width (by rw [kept]; exact width), kept]

theorem reallocate_ne {memory : (W : Nat) → BitVec W} (different : other ≠ name) :
    reallocate memory W name vars other = vars other := by
  unfold reallocate
  split
  · exact assign_ne _ different
  · exact update_of_ne different ..

end Variables

structure Results (vars : Variables Name) (Quotient Remainder : Name) (q r : BitVec W)
    (after : Variables Name) : Prop where
  quotient : after Quotient = ⟨W, q⟩
  remainder : after Remainder = ⟨W, r⟩
  others : ∀ name, name ≠ Quotient → name ≠ Remainder → after name = vars name

theorem results_assign {vars before : Variables Name} {Quotient Remainder : Name} {q r : BitVec W}
    {quotient remainder : Nat} (different : Quotient ≠ Remainder) (isQ : BitVec.ofNat W quotient = q)
    (isR : BitVec.ofNat W remainder = r)
    (same : ∀ name, name ≠ Quotient → name ≠ Remainder → before name = vars name) :
    Results vars Quotient Remainder q r
      (assign W Remainder remainder (assign W Quotient quotient before)) := by
  constructor
  · rw [assign_ne _ different, assign_same, isQ]
  · rw [assign_same, isR]
  · intro name notQ notR
    rw [assign_ne _ notR, assign_ne _ notQ, same name notQ notR]

variable {word : BitVec 64}

section Division

variable (memory : (W : Nat) → BitVec W) {LHS RHS Quotient Remainder : Name} {vars : Variables Name}
  {x y : BitVec W}

theorem divremFrom_spec (isL : vars LHS = ⟨W, x⟩) (isR : vars RHS = ⟨W, y⟩)
    (nonzero : y ≠ 0) (different : Quotient ≠ Remainder) :
    ∃ after, divremFrom memory W (getNumWords (getActiveBits x)) (getNumWords (getActiveBits y)) LHS RHS
        Quotient Remainder vars = some after ∧
      Results vars Quotient Remainder (x / y) (x % y) after := by
  have positive := toNat_ne_zero nonzero
  unfold divremFrom
  simp only [isL, isR, Variable.value_mk]
  split
  · rename_i short
    have less : x.toNat < y.toNat := by
      rcases short with fewer | less
      · exact toNat_lt_of_words fewer
      · exact less
    refine ⟨_, rfl, ?_, ?_, ?_⟩
    · rw [assign_same, ← ofNat_div, Nat.div_eq_of_lt less]
    · rw [assign_ne _ different.symm, copy_same, isL, ← ofNat_mod, Nat.mod_eq_of_lt less,
        BitVec.ofNat_toNat, BitVec.setWidth_eq]
    · intro name notQ notR
      rw [assign_ne _ notQ, copy_ne _ notR]
  · rename_i long
    have larger : y.toNat ≤ x.toNat := Nat.le_of_not_lt fun less => long (.inr less)
    split
    · rename_i same
      refine ⟨_, rfl, results_assign different ?_ ?_ fun _ _ _ => rfl⟩
      · rw [← ofNat_div, same, Nat.div_self (Nat.pos_of_ne_zero positive)]
      · rw [← ofNat_mod, same, Nat.mod_self]
    · have others : ∀ name, name ≠ Quotient → name ≠ Remainder →
          reallocate memory W Remainder (reallocate memory W Quotient vars) name = vars name := by
        intro name notQ notR
        rw [reallocate_ne notR, reallocate_ne notQ]
      have left := (reallocate_both memory Quotient Remainder (by rw [isL])).trans isL
      have right := (reallocate_both memory Quotient Remainder (by rw [isR])).trans isR
      generalize reallocate memory W Remainder (reallocate memory W Quotient vars) = enlarged at *
      simp only [left, right, Variable.pVal_mk]
      split
      · rename_i one
        have small := toNat_lt_of_getNumWords one
        rw [getRawData_zero small, getRawData_zero (larger.trans_lt small),
          nativeDivide_eq positive, nativeRemainder_eq positive]
        exact ⟨_, rfl, results_assign different (ofNat_div x y) (ofNat_mod x y) others⟩
      · obtain ⟨result, divided, quotient, remainder⟩ := divide_values nonzero larger
        rw [divided]
        refine ⟨_, rfl, results_assign different ?_ ?_ others⟩
        · rw [quotient, BitVec.ofNat_toNat, BitVec.setWidth_eq]
        · rw [remainder, BitVec.ofNat_toNat, BitVec.setWidth_eq]

theorem udivrem_spec_of_not_early (isL : vars LHS = ⟨W, x⟩) (isR : vars RHS = ⟨W, y⟩) (nonzero : y ≠ 0)
    (different : Quotient ≠ Remainder) (late : W ≤ 64 ∨ x.toNat = 0 ∨ y.toNat ≠ 1) :
    ∃ after, udivrem memory LHS RHS Quotient Remainder vars = some after ∧
      Results vars Quotient Remainder (x / y) (x % y) after := by
  have positive := toNat_ne_zero nonzero
  unfold udivrem
  simp only [isL, isR, Variable.value_mk, Variable.activeBits_mk]
  split
  · rw [nativeDivide_eq positive, nativeRemainder_eq positive]
    exact ⟨_, rfl, results_assign different (ofNat_div x y) (ofNat_mod x y) fun _ _ _ => rfl⟩
  · rename_i wide
    split
    · rename_i none
      have zero := (getNumWords_eq_zero_iff x).mp none
      refine ⟨_, rfl, results_assign different ?_ ?_ fun _ _ _ => rfl⟩
      · rw [← ofNat_div, zero, Nat.zero_div]
      · rw [← ofNat_mod, zero, Nat.zero_mod]
    · rename_i some
      rw [getNumWords_eq_zero_iff] at some
      rw [if_neg (by rw [getActiveBits_eq_one_iff]; omega)]
      exact divremFrom_spec memory isL isR nonzero different

theorem udivrem_one (wide : 64 < W) (isL : vars LHS = ⟨W, x⟩) (isR : vars RHS = ⟨W, y⟩)
    (some : x.toNat ≠ 0) (one : y.toNat = 1) :
    udivrem memory LHS RHS Quotient Remainder vars =
      divremFrom memory W (getNumWords (getActiveBits x)) (getNumWords (getActiveBits y)) LHS RHS
        Quotient Remainder (assign W Remainder 0 (copy Quotient LHS vars)) := by
  unfold udivrem
  simp only [isL, isR, Variable.activeBits_mk]
  rw [if_neg (Nat.not_le.mpr wide), if_neg (by rw [getNumWords_eq_zero_iff]; exact some),
    if_pos ((getActiveBits_eq_one_iff y).mpr one)]

theorem udivrem_spec_of_kept (isL : vars LHS = ⟨W, x⟩) (isR : vars RHS = ⟨W, y⟩) (nonzero : y ≠ 0)
    (different : Quotient ≠ Remainder)
    (keptL : assign W Remainder 0 (copy Quotient LHS vars) LHS = ⟨W, x⟩)
    (keptR : assign W Remainder 0 (copy Quotient LHS vars) RHS = ⟨W, y⟩) :
    ∃ after, udivrem memory LHS RHS Quotient Remainder vars = some after ∧
      Results vars Quotient Remainder (x / y) (x % y) after := by
  by_cases late : W ≤ 64 ∨ x.toNat = 0 ∨ y.toNat ≠ 1
  · exact udivrem_spec_of_not_early memory isL isR nonzero different late
  · rw [not_or, not_or, not_not, Nat.not_le] at late
    obtain ⟨wide, some, one⟩ := late
    obtain ⟨after, done, results⟩ :=
      divremFrom_spec memory keptL keptR nonzero different
    rw [udivrem_one memory wide isL isR some one]
    refine ⟨after, done, results.quotient, results.remainder, ?_⟩
    intro name notQ notR
    rw [results.others name notQ notR, assign_ne _ notR, copy_ne _ notQ]

theorem udivrem_spec (isL : vars LHS = ⟨W, x⟩) (isR : vars RHS = ⟨W, y⟩) (nonzero : y ≠ 0)
    (different : Quotient ≠ Remainder) (freshQ : Quotient ≠ RHS) (freshL : Remainder ≠ LHS)
    (freshR : Remainder ≠ RHS) :
    ∃ after, udivrem memory LHS RHS Quotient Remainder vars = some after ∧
      Results vars Quotient Remainder (x / y) (x % y) after := by
  apply udivrem_spec_of_kept memory isL isR nonzero different
  · rw [assign_ne _ freshL.symm, copy_source, isL]
  · rw [assign_ne _ freshR.symm, copy_ne _ freshQ.symm, isR]

theorem udivremWord_spec (Quotient : Name) (isL : vars LHS = ⟨W, x⟩) (nonzero : word ≠ 0) :
    ∃ after, udivremWord memory LHS word Quotient vars =
        some (after, BitVec.ofNat 64 (x.toNat % word.toNat)) ∧
      after Quotient = ⟨W, BitVec.ofNat W (x.toNat / word.toNat)⟩ ∧
      ∀ name, name ≠ Quotient → after name = vars name := by
  have positive := toNat_ne_zero nonzero
  unfold udivremWord
  simp only [isL, Variable.value_mk, Variable.activeBits_mk]
  split
  · rw [nativeDivide_eq positive, nativeRemainder_eq positive]
    exact ⟨_, rfl, assign_same _, fun _ different => assign_ne _ different⟩
  · rename_i wide
    split
    · rename_i none
      have zero := (getNumWords_eq_zero_iff x).mp none
      rw [zero, Nat.zero_mod, Nat.zero_div]
      exact ⟨_, rfl, assign_same _, fun _ different => assign_ne _ different⟩
    · split
      · rename_i one
        have value : (1 : BitVec 64).toNat = 1 := by decide
        rw [one, value, Nat.mod_one, Nat.div_one]
        refine ⟨_, rfl, ?_, fun _ different => copy_ne _ different⟩
        rw [copy_same, isL, BitVec.ofNat_toNat, BitVec.setWidth_eq]
      · split
        · rename_i less
          rw [Nat.div_eq_of_lt less, Nat.mod_eq_of_lt less]
          exact ⟨_, rfl, assign_same _, fun _ different => assign_ne _ different⟩
        · rename_i long
          split
          · rename_i same
            rw [same, Nat.div_self (Nat.pos_of_ne_zero positive), Nat.mod_self]
            exact ⟨_, rfl, assign_same _, fun _ different => assign_ne _ different⟩
          · have left : reallocate memory W Quotient vars LHS = ⟨W, x⟩ :=
              (reallocate_of_width (by rw [isL])).trans isL
            have others : ∀ name, name ≠ Quotient → reallocate memory W Quotient vars name = vars name :=
              fun _ different => reallocate_ne different
            generalize reallocate memory W Quotient vars = enlarged at *
            simp only [left, Variable.pVal_mk]
            split
            · rename_i one
              rw [getRawData_zero (toNat_lt_of_getNumWords one), nativeDivide_eq positive,
                nativeRemainder_eq positive]
              refine ⟨_, rfl, assign_same _, fun name different => ?_⟩
              rw [assign_ne _ different, others name different]
            · obtain ⟨result, divided, quotient, remainder⟩ :=
                divide_word nonzero (Nat.le_of_not_lt long)
              rw [divided, Option.map_some, ofRawData_eq, ofRawData_eq, quotient, remainder]
              refine ⟨_, rfl, ?_, fun name different => ?_⟩
              · have width : (vars LHS).BitWidth = W := by rw [isL]
                rw [assign_same, width, BitVec.ofNat_toNat, BitVec.setWidth_eq]
              · rw [assign_ne _ different, others name different]

/-! ### Signed division -/

theorem Results.negate_quotient {q r : BitVec W} {after : Variables Name} (different : Quotient ≠ Remainder)
    (results : Results vars Quotient Remainder q r after) :
    Results vars Quotient Remainder (-q) r (negate Quotient after) := by
  constructor
  · rw [negate, update_self, results.quotient, Variable.negated_mk]
  · rw [negate, update_of_ne different.symm, results.remainder]
  · intro name notQ notR
    rw [negate, update_of_ne notQ, results.others name notQ notR]

theorem Results.negate_remainder {q r : BitVec W} {after : Variables Name} (different : Quotient ≠ Remainder)
    (results : Results vars Quotient Remainder q r after) :
    Results vars Quotient Remainder q (-r) (negate Remainder after) := by
  constructor
  · rw [negate, update_of_ne different, results.quotient]
  · rw [negate, update_self, results.remainder, Variable.negated_mk]
  · intro name notQ notR
    rw [negate, update_of_ne notR, results.others name notQ notR]

theorem divided_magnitudes {left right : Name ⊕ Bool} {a b : BitVec W}
    (isL : withNegated LHS RHS vars left = ⟨W, a⟩) (isR : withNegated LHS RHS vars right = ⟨W, b⟩)
    (nonzero : b ≠ 0) (different : Quotient ≠ Remainder) (freshQ : .inl Quotient ≠ right)
    (freshL : .inl Remainder ≠ left) (freshR : .inl Remainder ≠ right) :
    ∃ after, (udivrem memory left right (.inl Quotient) (.inl Remainder)
        (withNegated LHS RHS vars)).map (· ∘ Sum.inl) = some after ∧
      Results vars Quotient Remainder (a / b) (a % b) after := by
  obtain ⟨after, done, results⟩ := udivrem_spec memory isL isR nonzero
    (fun same => different (Sum.inl.inj same)) freshQ freshL freshR
  refine ⟨after ∘ Sum.inl, by rw [done, Option.map_some], results.quotient, results.remainder, ?_⟩
  intro name notQ notR
  exact results.others (.inl name) (fun same => notQ (Sum.inl.inj same))
    fun same => notR (Sum.inl.inj same)

theorem sdivrem_spec (isL : vars LHS = ⟨W, x⟩) (isR : vars RHS = ⟨W, y⟩) (nonzero : y ≠ 0)
    (different : Quotient ≠ Remainder) (freshQ : Quotient ≠ RHS) (freshL : Remainder ≠ LHS)
    (freshR : Remainder ≠ RHS) :
    ∃ after, sdivrem memory LHS RHS Quotient Remainder vars = some after ∧
      Results vars Quotient Remainder (BitVec.ofInt W (x.toInt.tdiv y.toInt))
        (BitVec.ofInt W (x.toInt.tmod y.toInt)) after := by
  have plainL : withNegated LHS RHS vars (.inl LHS) = ⟨W, x⟩ := isL
  have plainR : withNegated LHS RHS vars (.inl RHS) = ⟨W, y⟩ := isR
  have negatedL : withNegated LHS RHS vars (.inr false) = ⟨W, -x⟩ := congrArg Variable.negated isL
  have negatedR : withNegated LHS RHS vars (.inr true) = ⟨W, -y⟩ := congrArg Variable.negated isR
  have apartQ : (.inl Quotient : Name ⊕ Bool) ≠ .inl RHS := fun same => freshQ (Sum.inl.inj same)
  have apartL : (.inl Remainder : Name ⊕ Bool) ≠ .inl LHS := fun same => freshL (Sum.inl.inj same)
  have apartR : (.inl Remainder : Name ⊕ Bool) ≠ .inl RHS := fun same => freshR (Sum.inl.inj same)
  unfold sdivrem
  simp only [isL, isR, Variable.negative_mk]
  rcases toInt_magnitude x with ⟨signL, valueL⟩ | ⟨signL, valueL⟩ <;>
    rcases toInt_magnitude y with ⟨signR, valueR⟩ | ⟨signR, valueR⟩
  · obtain ⟨after, done, results⟩ := divided_magnitudes memory negatedL negatedR
      (neg_nonzero nonzero) different Sum.inl_ne_inr Sum.inl_ne_inr Sum.inl_ne_inr
    rw [signL, signR, if_pos rfl, if_pos rfl, done, valueL, valueR, ofInt_neg_tdiv_neg,
      ofInt_neg_tmod_neg, ofNat_div, ofNat_mod]
    exact ⟨_, rfl, results.negate_remainder different⟩
  · obtain ⟨after, done, results⟩ := divided_magnitudes memory negatedL plainR
      nonzero different apartQ Sum.inl_ne_inr apartR
    rw [signL, signR, if_pos rfl, if_neg Bool.false_ne_true, done, valueL, valueR, ofInt_neg_tdiv,
      ofInt_neg_tmod, ofNat_div, ofNat_mod]
    exact ⟨_, rfl, (results.negate_quotient different).negate_remainder different⟩
  · obtain ⟨after, done, results⟩ := divided_magnitudes memory plainL negatedR
      (neg_nonzero nonzero) different Sum.inl_ne_inr apartL Sum.inl_ne_inr
    rw [signL, signR, if_neg Bool.false_ne_true, if_pos rfl, done, valueL, valueR, ofInt_tdiv_neg,
      ofInt_tmod_neg, ofNat_div, ofNat_mod]
    exact ⟨_, rfl, results.negate_quotient different⟩
  · obtain ⟨after, done, results⟩ := divided_magnitudes memory plainL plainR
      nonzero different apartQ apartL apartR
    rw [signL, signR, if_neg Bool.false_ne_true, if_neg Bool.false_ne_true, done, valueL, valueR,
      ofInt_tdiv, ofInt_tmod, ofNat_div, ofNat_mod]
    exact ⟨_, rfl, results⟩

theorem divided_word (Quotient : Name) {left : Name ⊕ Bool} {a : BitVec W}
    (isL : withNegated LHS LHS vars left = ⟨W, a⟩) (nonzero : word ≠ 0) :
    ∃ after, (udivremWord memory left word (.inl Quotient) (withNegated LHS LHS vars)).map
        (fun divided => (divided.1 ∘ Sum.inl, divided.2)) =
          some (after, BitVec.ofNat 64 (a.toNat % word.toNat)) ∧
      after Quotient = ⟨W, BitVec.ofNat W (a.toNat / word.toNat)⟩ ∧
      ∀ name, name ≠ Quotient → after name = vars name := by
  obtain ⟨after, done, quotient, others⟩ :=
    udivremWord_spec memory (.inl Quotient) isL nonzero
  refine ⟨after ∘ Sum.inl, by rw [done, Option.map_some], quotient, ?_⟩
  intro name notQ
  exact others (.inl name) fun same => notQ (Sum.inl.inj same)

theorem negate_same {q : BitVec W} {after : Variables Name} (held : after Quotient = ⟨W, q⟩) :
    negate Quotient after Quotient = ⟨W, -q⟩ := by
  rw [negate, update_self, held, Variable.negated_mk]

theorem sdivremWord_spec (Quotient : Name) (isL : vars LHS = ⟨W, x⟩) (nonzero : word ≠ 0) :
    ∃ after, sdivremWord memory LHS word Quotient vars =
        some (after, BitVec.ofInt 64 (x.toInt.tmod word.toInt)) ∧
      after Quotient = ⟨W, BitVec.ofInt W (x.toInt.tdiv word.toInt)⟩ ∧
      ∀ name, name ≠ Quotient → after name = vars name := by
  have plain : withNegated LHS LHS vars (.inl LHS) = ⟨W, x⟩ := isL
  have negated : withNegated LHS LHS vars (.inr false) = ⟨W, -x⟩ := congrArg Variable.negated isL
  unfold sdivremWord
  simp only [isL, Variable.negative_mk]
  rcases toInt_magnitude x with ⟨signL, valueL⟩ | ⟨signL, valueL⟩ <;>
    rcases toInt_magnitude word with ⟨signR, valueR⟩ | ⟨signR, valueR⟩
  · obtain ⟨after, done, quotient, others⟩ :=
      divided_word memory Quotient negated (neg_nonzero nonzero)
    rw [signL, signR, if_pos rfl, if_pos rfl, done, valueL, valueR, ofInt_neg_tdiv_neg,
      ofInt_neg_tmod_neg]
    exact ⟨_, rfl, quotient, others⟩
  · obtain ⟨after, done, quotient, others⟩ := divided_word memory Quotient negated nonzero
    rw [signL, signR, if_pos rfl, if_neg Bool.false_ne_true, done, valueL, valueR, ofInt_neg_tdiv,
      ofInt_neg_tmod]
    refine ⟨_, rfl, negate_same quotient, fun name notQ => ?_⟩
    exact (update_of_ne notQ ..).trans (others name notQ)
  · obtain ⟨after, done, quotient, others⟩ :=
      divided_word memory Quotient plain (neg_nonzero nonzero)
    rw [signL, signR, if_neg Bool.false_ne_true, if_pos rfl, done, valueL, valueR, ofInt_tdiv_neg,
      ofInt_tmod_neg]
    refine ⟨_, rfl, negate_same quotient, fun name notQ => ?_⟩
    exact (update_of_ne notQ ..).trans (others name notQ)
  · obtain ⟨after, done, quotient, others⟩ := divided_word memory Quotient plain nonzero
    rw [signL, signR, if_neg Bool.false_ne_true, if_neg Bool.false_ne_true, done, valueL, valueR,
      ofInt_tdiv, ofInt_tmod]
    exact ⟨_, rfl, quotient, others⟩

end Division

/-! ### Exact division -/

theorem inSigned_tdiv (value : BitVec W) {divisor : Int} (nonzero : divisor ≠ 0)
    (fits : value.toInt = -(2 ^ (W - 1) : Nat) → divisor ≠ -1) : InSigned W (value.toInt.tdiv divisor) := by
  have bounds := toInt_bounds value
  unfold InSigned
  by_cases one : divisor = 1
  · rw [one, Int.tdiv_one]
    exact bounds
  · by_cases minusOne : divisor = -1
    · have above : value.toInt ≠ -(2 ^ (W - 1) : Nat) := fun least => fits least minusOne
      rw [minusOne, Int.tdiv_neg, Int.tdiv_one]
      omega
    · have half : (value.toInt.tdiv divisor).natAbs ≤ value.toInt.natAbs / 2 := by
        rw [Int.natAbs_tdiv]
        exact Nat.div_le_div_left (by omega) (by decide)
      omega

theorem inSigned_tmod_word (value : Int) (nonzero : word ≠ 0) :
    InSigned 64 (value.tmod word.toInt) := by
  have bounds := toInt_bounds word
  have some := toInt_ne_zero nonzero
  have small : (value.tmod word.toInt).natAbs < word.toInt.natAbs := by
    rw [Int.natAbs_tmod]
    exact Nat.mod_lt _ (Int.natAbs_pos.mpr some)
  unfold InSigned
  omega

theorem toInt_ofInt_tmod (x y : BitVec W) :
    (BitVec.ofInt W (x.toInt.tmod y.toInt)).toInt = x.toInt.tmod y.toInt := by
  rw [← BitVec.toInt_srem, BitVec.ofInt_toInt]

section Exact

variable {LHS RHS Quotient Remainder : Name}

/-- All the ways to divide `x`, by another value and by a word, give the same
exact results, the signed ones those that truncate; only the least value
divided by minus one is out of range, and wraps. -/
structure DividesExactly (memory : (W : Nat) → BitVec W) (LHS RHS Quotient Remainder : Name)
    (vars : Variables Name) (x y : BitVec W) (word : BitVec 64) : Prop where
  unsigned : ∃ q r, udiv x y = some q ∧ urem x y = some r ∧
    x.toNat = q.toNat * y.toNat + r.toNat ∧ r.toNat < y.toNat ∧
    ∃ after, udivrem memory LHS RHS Quotient Remainder vars = some after ∧
      Results vars Quotient Remainder q r after
  unsignedWord : ∃ q r, udivWord x word = some q ∧ uremWord x word = some r ∧
    x.toNat = q.toNat * word.toNat + r.toNat ∧ r.toNat < word.toNat ∧
    ∃ after, udivremWord memory LHS word Quotient vars = some (after, r) ∧ after Quotient = ⟨W, q⟩
  signed : ∃ q r, sdiv x y = some q ∧ srem x y = some r ∧
    q.toInt = (x.toInt.tdiv y.toInt).bmod (2 ^ W) ∧ r.toInt = x.toInt.tmod y.toInt ∧
    ((x.toInt = -(2 ^ (W - 1) : Nat) → y.toInt ≠ -1) → q.toInt = x.toInt.tdiv y.toInt) ∧
    ∃ after, sdivrem memory LHS RHS Quotient Remainder vars = some after ∧
      Results vars Quotient Remainder q r after
  signedWord : ∃ q r, sdivWord x word = some q ∧ sremWord x word = some r ∧
    q.toInt = (x.toInt.tdiv word.toInt).bmod (2 ^ W) ∧ r.toInt = x.toInt.tmod word.toInt ∧
    ((x.toInt = -(2 ^ (W - 1) : Nat) → word.toInt ≠ -1) → q.toInt = x.toInt.tdiv word.toInt) ∧
    ∃ after, sdivremWord memory LHS word Quotient vars = some (after, r) ∧ after Quotient = ⟨W, q⟩

theorem division_exact (memory : (W : Nat) → BitVec W) {vars : Variables Name} {x y : BitVec W}
    (isL : vars LHS = ⟨W, x⟩) (isR : vars RHS = ⟨W, y⟩) (nonzero : y ≠ 0) (nonzeroWord : word ≠ 0)
    (different : Quotient ≠ Remainder) (freshQ : Quotient ≠ LHS ∧ Quotient ≠ RHS)
    (freshR : Remainder ≠ LHS ∧ Remainder ≠ RHS) :
    DividesExactly memory LHS RHS Quotient Remainder vars x y word := by
  have positive : 0 < W := by
    by_contra zero
    obtain rfl := Nat.eq_zero_of_not_pos zero
    exact nonzero (BitVec.eq_nil y ▸ rfl)
  have someY := toInt_ne_zero nonzero
  have someWord := toInt_ne_zero nonzeroWord
  constructor
  · refine ⟨x / y, x % y, udiv_eq nonzero, urem_eq nonzero, ?_, ?_,
      udivrem_spec memory isL isR nonzero different freshQ.2 freshR.1 freshR.2⟩
    · rw [BitVec.toNat_udiv, BitVec.toNat_umod, Nat.div_add_mod']
    · rw [BitVec.toNat_umod]
      exact Nat.mod_lt _ (Nat.pos_of_ne_zero (toNat_ne_zero nonzero))
  · obtain ⟨after, done, quotient, _⟩ := udivremWord_spec memory Quotient isL nonzeroWord
    have less := Nat.mod_lt x.toNat (Nat.pos_of_ne_zero (toNat_ne_zero nonzeroWord))
    refine ⟨_, _, udivWord_eq nonzeroWord, uremWord_eq nonzeroWord, ?_, ?_, after, done, quotient⟩
    · rw [BitVec.toNat_ofNat, BitVec.toNat_ofNat, Nat.mod_eq_of_lt (less.trans word.isLt),
        Nat.mod_eq_of_lt ((Nat.div_le_self _ _).trans_lt x.isLt), Nat.div_add_mod']
    · rw [BitVec.toNat_ofNat, Nat.mod_eq_of_lt (less.trans word.isLt)]
      exact less
  · refine ⟨_, _, sdiv_eq nonzero, srem_eq nonzero, BitVec.toInt_ofInt _, toInt_ofInt_tmod x y, ?_,
      sdivrem_spec memory isL isR nonzero different freshQ.2 freshR.1 freshR.2⟩
    intro fits
    rw [BitVec.toInt_ofInt, bmod_of_inSigned positive (inSigned_tdiv x someY fits)]
  · obtain ⟨after, done, quotient, _⟩ := sdivremWord_spec memory Quotient isL nonzeroWord
    refine ⟨_, _, sdivWord_eq nonzeroWord, sremWord_eq nonzeroWord, BitVec.toInt_ofInt _, ?_, ?_, after,
      done, quotient⟩
    · rw [BitVec.toInt_ofInt, bmod_of_inSigned (by decide) (inSigned_tmod_word _ nonzeroWord)]
    · intro fits
      rw [BitVec.toInt_ofInt, bmod_of_inSigned positive (inSigned_tdiv x someWord fits)]

end Exact

def wideOperands : Variables (Fin 4) := fun name =>
  if name = 0 then ⟨256, BitVec.ofNat 256 (2 ^ 200 + 7)⟩ else ⟨256, BitVec.ofNat 256 (2 ^ 70 + 1)⟩

theorem wideOperands_divided :
    DividesExactly (fun W => BitVec.zero W) 0 1 2 3 wideOperands (BitVec.ofNat 256 (2 ^ 200 + 7))
      (BitVec.ofNat 256 (2 ^ 70 + 1)) 10 :=
  division_exact _ rfl rfl (by decide) (by decide) (by decide) (by decide) (by decide)

section Aliasing

variable (memory : (W : Nat) → BitVec W) {LHS RHS Quotient Remainder : Name} {vars : Variables Name}
  {x y : BitVec W}

def HoldsResults (LHS RHS Quotient Remainder : Name) (vars : Variables Name) (x y : BitVec W) : Prop :=
  ∃ after, udivrem memory LHS RHS Quotient Remainder vars = some after ∧
    after Quotient = ⟨W, x / y⟩ ∧ after Remainder = ⟨W, x % y⟩

/-- The results of a division by one stay out of the way of the operands, or do
not matter there. -/
def KeepsOperands (LHS RHS Quotient Remainder : Name) (x : BitVec W) : Prop :=
  LHS = RHS ∨ Remainder ≠ LHS ∧ Remainder ≠ RHS ∧ (Quotient = RHS → x = 1)

private theorem toNat_one_wide (wide : 64 < W) : (1 : BitVec W).toNat = 1 := by
  change 1 % 2 ^ W = 1
  exact Nat.mod_eq_of_lt (Nat.one_lt_two_pow (by omega))

section One

variable (wide : 64 < W) (isL : vars LHS = ⟨W, x⟩) (isR : vars RHS = ⟨W, 1⟩) (some : x ≠ 0)
  (different : Quotient ≠ Remainder)

include wide isL isR some different

theorem holdsResults_one (kept : KeepsOperands LHS RHS Quotient Remainder x) :
    HoldsResults memory LHS RHS Quotient Remainder vars x 1 := by
  have oneNat := toNat_one_wide wide
  have nonzero : (1 : BitVec W) ≠ 0 := by
    intro same
    rw [same] at oneNat
    exact Nat.zero_ne_one (BitVec.toNat_zero.symm.trans oneNat)
  have fromKept := udivrem_spec_of_kept memory isL isR nonzero different
  by_cases onLeft : Remainder = LHS
  · -- both operands are one variable, and the early remainder makes them equal
    rcases kept with same | ⟨apart, _⟩
    · subst same onLeft
      obtain rfl : x = 1 := by
        rw [isL] at isR
        exact eq_of_heq (Variable.mk.inj isR).2
      rw [HoldsResults, udivrem_one memory wide isL isR (toNat_ne_zero some) oneNat]
      unfold divremFrom
      rw [if_neg (by rintro (less | less) <;> exact Nat.lt_irrefl _ less), if_pos rfl]
      refine ⟨_, rfl, ?_, ?_⟩
      · rw [assign_ne _ different, assign_same, ← ofNat_div, oneNat]
      · rw [assign_same, ← ofNat_mod, oneNat]
    · exact absurd onLeft apart
  · have keptL : assign W Remainder 0 (copy Quotient LHS vars) LHS = ⟨W, x⟩ := by
      rw [assign_ne _ (Ne.symm onLeft), copy_source, isL]
    have keptR : assign W Remainder 0 (copy Quotient LHS vars) RHS = ⟨W, 1⟩ := by
      rcases kept with same | ⟨_, apart, aliased⟩
      · rw [← same, keptL]
        rw [← same, isL] at isR
        exact isR
      · rw [assign_ne _ apart.symm]
        by_cases target : Quotient = RHS
        · rw [target, copy_same, isL, aliased target]
        · rw [copy_ne _ (Ne.symm target), isR]
    obtain ⟨after, done, results⟩ := fromKept keptL keptR
    exact ⟨after, done, results.quotient, results.remainder⟩

theorem not_holdsResults_one (lost : ¬ KeepsOperands LHS RHS Quotient Remainder x) :
    ¬ HoldsResults memory LHS RHS Quotient Remainder vars x 1 := by
  have oneNat := toNat_one_wide wide
  have someNat := toNat_ne_zero some
  obtain ⟨apart, lost⟩ := not_or.mp lost
  have quotient : x / 1 = x := by
    rw [← ofNat_div, oneNat, Nat.div_one, BitVec.ofNat_toNat, BitVec.setWidth_eq]
  have words : ¬ getNumWords (getActiveBits x) < getNumWords (getActiveBits (1 : BitVec W)) := by
    intro fewer
    have less := toNat_lt_of_words fewer
    rw [oneNat] at less
    omega
  rintro ⟨after, done, isQuotient, _⟩
  rw [udivrem_one memory wide isL isR someNat oneNat] at done
  rw [quotient] at isQuotient
  unfold divremFrom at done
  by_cases onLeft : Remainder = LHS
  · -- the dividend has become zero, and is smaller than the divisor
    subst onLeft
    have left : assign W Remainder 0 (copy Quotient Remainder vars) Remainder = ⟨W, BitVec.ofNat W 0⟩ :=
      assign_same 0
    have right : (assign W Remainder 0 (copy Quotient Remainder vars) RHS).value ≠ 0 := by
      rw [assign_ne _ (Ne.symm apart)]
      by_cases target : Quotient = RHS
      · rw [target, copy_same, isL]
        exact someNat
      · rw [copy_ne _ (Ne.symm target), isR, Variable.value_mk, oneNat]
        decide
    rw [if_pos (.inr (by rw [left, Variable.value_mk, BitVec.toNat_ofNat, Nat.zero_mod]; omega))] at done
    obtain rfl := Option.some.inj done
    rw [assign_same] at isQuotient
    exact some (eq_of_heq (Variable.mk.inj isQuotient).2).symm
  · have left : assign W Remainder 0 (copy Quotient LHS vars) LHS = ⟨W, x⟩ := by
      rw [assign_ne _ (Ne.symm onLeft), copy_source, isL]
    by_cases onRight : Remainder = RHS
    · -- the divisor has become zero
      subst onRight
      have right : assign W Remainder 0 (copy Quotient LHS vars) Remainder = ⟨W, BitVec.ofNat W 0⟩ :=
        assign_same 0
      have zero : (BitVec.ofNat W 0).toNat = 0 := BitVec.toNat_zero
      rw [left, right, Variable.value_mk, Variable.value_mk, zero,
        if_neg (by rintro (less | less); exacts [words less, Nat.not_lt_zero _ less]),
        if_neg someNat] at done
      generalize assign W Remainder 0 (copy Quotient LHS vars) = early at *
      have divisor := (reallocate_both memory Quotient Remainder (by rw [right])).trans right
      generalize reallocate memory W Remainder (reallocate memory W Quotient early) = enlarged at *
      simp only [divisor, Variable.pVal_mk] at done
      split at done
      · rw [getRawData_zero (by rw [zero]; decide), zero] at done
        cases done
      · obtain ⟨areWords, total⟩ :=
          getRawData_prefix (BitVec.ofNat W 0) (getNumWords (getActiveBits (1 : BitVec W)))
        rw [divide_zero areWords (by rw [total, zero, Nat.zero_mod])] at done
        cases done
    · -- the divisor has become the dividend
      have target : Quotient = RHS ∧ x ≠ 1 := by
        by_contra harmless
        exact lost ⟨onLeft, onRight, fun target => by_contra fun other => harmless ⟨target, other⟩⟩
      have right : assign W Remainder 0 (copy Quotient LHS vars) RHS = ⟨W, x⟩ := by
        rw [assign_ne _ (Ne.symm onRight), ← target.1, copy_same, isL]
      rw [left, right, if_neg (by rintro (less | less); exacts [words less, Nat.lt_irrefl _ less]),
        if_pos rfl] at done
      obtain rfl := Option.some.inj done
      rw [assign_ne _ different, assign_same] at isQuotient
      exact target.2 (eq_of_heq (Variable.mk.inj isQuotient).2).symm

end One

/-- The results are right unless the width is more than a word, the dividend is
not zero, the divisor is one and an early result destroys an operand; by a word
they always are. -/
theorem udivrem_aliased_iff (isL : vars LHS = ⟨W, x⟩) (isR : vars RHS = ⟨W, y⟩) (nonzero : y ≠ 0)
    (different : Quotient ≠ Remainder) :
    (HoldsResults memory LHS RHS Quotient Remainder vars x y ↔
        (64 < W → x ≠ 0 → y = 1 → KeepsOperands LHS RHS Quotient Remainder x)) ∧
      ∀ word : BitVec 64, word ≠ 0 → ∃ after,
        udivremWord memory LHS word Quotient vars =
            some (after, BitVec.ofNat 64 (x.toNat % word.toNat)) ∧
          after Quotient = ⟨W, BitVec.ofNat W (x.toNat / word.toNat)⟩ := by
  constructor
  · constructor
    · intro holds wide some one
      subst one
      by_contra lost
      exact not_holdsResults_one memory wide isL isR some different lost holds
    · intro kept
      by_cases late : W ≤ 64 ∨ x.toNat = 0 ∨ y.toNat ≠ 1
      · obtain ⟨after, done, results⟩ := udivrem_spec_of_not_early memory isL isR nonzero different late
        exact ⟨after, done, results.quotient, results.remainder⟩
      · rw [not_or, not_or, not_not, Nat.not_le] at late
        obtain ⟨wide, someNat, oneNat⟩ := late
        have some : x ≠ 0 := fun zero => someNat (by rw [zero]; exact BitVec.toNat_zero)
        obtain rfl : y = 1 := BitVec.eq_of_toNat_eq (oneNat.trans (toNat_one_wide wide).symm)
        exact holdsResults_one memory wide isL isR some different (kept wide some rfl)
  · intro word nonzeroWord
    obtain ⟨after, done, quotient, _⟩ := udivremWord_spec memory Quotient isL nonzeroWord
    exact ⟨after, done, quotient⟩

end Aliasing

def dividedByOne : Variables (Fin 3) := fun name =>
  if name = 0 then ⟨128, BitVec.ofNat 128 5⟩ else ⟨128, BitVec.ofNat 128 1⟩

/-- The quotient may take the place of the dividend. -/
theorem dividedByOne_in_place :
    HoldsResults (fun W => BitVec.zero W) 0 1 0 2 dividedByOne (BitVec.ofNat 128 5)
      (BitVec.ofNat 128 1) := by
  have isL : dividedByOne 0 = ⟨128, BitVec.ofNat 128 5⟩ := rfl
  have isR : dividedByOne 1 = ⟨128, BitVec.ofNat 128 1⟩ := rfl
  have different : (0 : Fin 3) ≠ 2 := by decide
  apply (udivrem_aliased_iff _ isL isR (by decide) different).1.mpr
  intro _ _ _
  exact .inr (by decide)

/-- The remainder may not: the quotient is lost. -/
theorem dividedByOne_loses_quotient :
    ¬ HoldsResults (fun W => BitVec.zero W) 0 1 2 0 dividedByOne (BitVec.ofNat 128 5)
      (BitVec.ofNat 128 1) := by
  have isL : dividedByOne 0 = ⟨128, BitVec.ofNat 128 5⟩ := rfl
  have isR : dividedByOne 1 = ⟨128, BitVec.ofNat 128 1⟩ := rfl
  have different : (2 : Fin 3) ≠ 0 := by decide
  apply not_holdsResults_one _ (by decide) isL isR (by decide) different
  rw [KeepsOperands]
  decide

end EvmBackend.APInt
