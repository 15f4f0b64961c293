import YcsbIvs.Foundations.Arithmetic
import YcsbIvs.Foundations.Shares

/-!
# Weighted choice of operations

`DiscreteGenerator` draws one of its values. It takes each one's share of the weights off the draw, one after the other, until the draw is in one. In exact rationals
it returns the value whose piece of the unit interval the draw is in, and **it always returns one** (`draws_iff`). What `createOperationGenerator` makes it
with has positive weights (`weight_pos`).
-/

namespace YcsbIvs.Generator

open YcsbIvs.Foundations

variable {D : Type}

/-- A value and its weight. -/
structure Pair (D : Type) where
  /-- The weight. -/
  weight : D
  /-- The value. -/
  value : String

/-- `DiscreteGenerator`. -/
structure DiscreteGenerator (D : Type) where
  /-- What it draws from. -/
  values : List (Pair D)
  /-- What `lastValue()` has returned. -/
  lastvalue : Option String

namespace DiscreteGenerator

section Source

variable (A : FieldArithmetic D)

/-- `new DiscreteGenerator()`. -/
def empty : DiscreteGenerator D := ⟨[], none⟩

/-- `addValue(weight, value)`. -/
def addValue (g : DiscreteGenerator D) (weight : D) (value : String) : DiscreteGenerator D := { g with values := g.values ++ [⟨weight, value⟩] }

/-- The loop that sums the weights. -/
def sumLoop : List (Pair D) → D → D
  | [], sum => sum
  | p :: values, sum => sumLoop values (A.add sum p.weight)

/-- The loop that chooses, from place `i` on: the value that is returned, with its place. -/
def chooseLoop (sum : D) : ℕ → List (Pair D) → D → Option (ℕ × String)
  | _, [], _ => none
  | i, p :: values, val =>
    let pw := A.div p.weight sum
    if A.lt val pw then some (i, p.value) else chooseLoop sum (i + 1) values (A.sub val pw)

/-- What is chosen if `nextDouble()` gives `val`. -/
def choose (g : DiscreteGenerator D) (val : D) : Option (ℕ × String) := chooseLoop A (sumLoop A g.values (A.ofRat 0)) 0 g.values val

/-- `nextValue()`; nothing is the `AssertionError`. -/
def nextValue (g : DiscreteGenerator D) (val : D) : Option String := (g.choose A val).map Prod.snd

/-- `lastValue()`, if `nextDouble()` would give `val`. -/
def lastValue (g : DiscreteGenerator D) (val : D) : Option String × DiscreteGenerator D :=
  match g.lastvalue with
  | some value => (some value, g)
  | none => (g.nextValue A val, { g with lastvalue := g.nextValue A val })

/-- The properties with the proportions, what each is if it is not set, and its operation. -/
def proportions : List (String × ℚ × String) :=
  [("readproportion", 95 / 100, "READ"), ("updateproportion", 5 / 100, "UPDATE"), ("extendproportion", 0, "EXTEND"), ("insertproportion", 0, "INSERT"),
    ("scanproportion", 0, "SCAN"), ("readmodifywriteproportion", 0, "READMODIFYWRITE")]

/-- `createOperationGenerator(p)`, if `p` has these numbers. -/
def createOperationGenerator (p : String → Option D) : DiscreteGenerator D :=
  proportions.foldl (fun operationchooser (property, unset, operation) =>
    let proportion := (p property).getD (A.ofRat unset)
    if A.lt (A.ofRat 0) proportion then operationchooser.addValue proportion operation else operationchooser) empty

end Source

/-! ### What is drawn -/

/-- The shares of the values in the sum of the weights. -/
def shares (g : DiscreteGenerator ℚ) : List ℚ := (g.values.map Pair.weight).map (· / (g.values.map Pair.weight).sum)

theorem sumLoop_rationals (values : List (Pair ℚ)) (sum : ℚ) : sumLoop rationals values sum = sum + (values.map Pair.weight).sum := by
  induction values generalizing sum with
  | nil => rw [sumLoop, List.map_nil, List.sum_nil, add_zero]
  | cons p values ih => rw [sumLoop, ih, List.map_cons, List.sum_cons, ← add_assoc]; rfl

/-- The loop chooses by the pieces. -/
theorem chooseLoop_iff {sum : ℚ} {values : List (Pair ℚ)} (hshares : ∀ p ∈ values, 0 ≤ p.weight / sum) (start : ℕ) {val : ℚ} (h : 0 ≤ val)
    (place : ℕ) (v : String) :
    chooseLoop rationals sum start values val = some (place, v) ↔
      ∃ i, place = start + i ∧ InShare ((values.map Pair.weight).map (· / sum)) i val ∧ (values.map Pair.value)[i]? = some v := by
  induction values generalizing start val with
  | nil => simp [chooseLoop]
  | cons p values ih =>
    rw [List.forall_mem_cons] at hshares
    rw [← Nat.or_exists_add_one]
    simp only [List.map_cons, inShare_cons_zero, inShare_cons_succ, List.getElem?_cons_zero, List.getElem?_cons_succ, Option.some.injEq, add_zero]
    by_cases hlt : val < p.weight / sum
    · have hchosen : chooseLoop rationals sum start (p :: values) val = some (start, p.value) := if_pos (decide_eq_true hlt)
      have hrest : ∀ i, ¬InShare ((values.map Pair.weight).map (· / sum)) i (val - p.weight / sum) := by
        intro i hi
        refine absurd (sub_nonneg.mp (hi.nonneg ?_)) (not_le.mpr hlt)
        simpa using hshares.2
      rw [hchosen, Option.some.injEq, Prod.mk.injEq, or_iff_left (fun hexists => hrest _ hexists.choose_spec.2.1), eq_comm]
      exact and_congr_right fun _ => (and_iff_right ⟨h, hlt⟩).symm
    · have hchosen : chooseLoop rationals sum start (p :: values) val = chooseLoop rationals sum (start + 1) values (val - p.weight / sum) :=
        if_neg fun htrue => hlt (of_decide_eq_true htrue)
      rw [hchosen, ih hshares.2 (start + 1) (sub_nonneg.mpr (not_lt.mp hlt)), or_iff_right (fun hfirst => hlt hfirst.2.1.2)]
      simp only [Nat.add_assoc, Nat.add_comm 1]

section Draws

variable {g : DiscreteGenerator ℚ} (hvalues : g.values ≠ []) (hweights : ∀ p ∈ g.values, 0 < p.weight)

include hvalues hweights in
theorem sum_pos : 0 < (g.values.map Pair.weight).sum := List.sum_pos _ (by simpa using hweights) (by simpa using hvalues)

include hvalues hweights in
/-- The choice is by the pieces of the unit interval. -/
theorem choose_iff {val : ℚ} (h : 0 ≤ val) (i : ℕ) (v : String) :
    g.choose rationals val = some (i, v) ↔ InShare g.shares i val ∧ (g.values.map Pair.value)[i]? = some v := by
  have hshares : ∀ p ∈ g.values, 0 ≤ p.weight / (g.values.map Pair.weight).sum := fun p hp => (div_pos (hweights p hp) (sum_pos hvalues hweights)).le
  rw [choose, sumLoop_rationals, show rationals.ofRat 0 = 0 from rfl, zero_add, chooseLoop_iff hshares 0 h]
  simp only [zero_add, shares, exists_eq_left']

include hvalues hweights in
/-- There is always one. -/
theorem nextValue_ne_none {val : ℚ} (h : 0 ≤ val) (hlt : val < 1) : g.nextValue rationals val ≠ none := by
  have hsum := sum_pos hvalues hweights
  have hshares : ∀ share ∈ g.shares, 0 ≤ share := by
    simp only [shares, List.mem_map, forall_exists_index, and_imp, forall_apply_eq_imp_iff₂]
    exact fun p hp => (div_pos (hweights p hp) hsum).le
  obtain ⟨i, hi, -⟩ := existsUnique_inShare hshares h (by rwa [shares, sum_share hsum.ne'])
  have hlength : i < (g.values.map Pair.value).length := by simpa [shares] using hi.1
  rw [nextValue, (choose_iff hvalues hweights h i _).mpr ⟨hi, List.getElem?_eq_getElem hlength⟩]
  exact Option.some_ne_none _

end Draws

/-- **A value is drawn just if the draw is in its piece**, and one always is. -/
theorem draws_iff {g : DiscreteGenerator ℚ} (hvalues : g.values ≠ []) (hweights : ∀ p ∈ g.values, 0 < p.weight) {val : ℚ} (h : 0 ≤ val) (hlt : val < 1) :
    (∀ i v, g.choose rationals val = some (i, v) ↔ InShare g.shares i val ∧ (g.values.map Pair.value)[i]? = some v) ∧
      g.nextValue rationals val ≠ none :=
  ⟨choose_iff hvalues hweights h, nextValue_ne_none hvalues hweights h hlt⟩

/-- Three reads to an update. -/
theorem draws_iff_half :
    (∀ i v, choose rationals ⟨[⟨3, "READ"⟩, ⟨1, "UPDATE"⟩], none⟩ (1 / 2) = some (i, v) ↔
      InShare (shares ⟨[⟨3, "READ"⟩, ⟨1, "UPDATE"⟩], none⟩) i (1 / 2) ∧ ["READ", "UPDATE"][i]? = some v) ∧
      nextValue rationals ⟨[⟨3, "READ"⟩, ⟨1, "UPDATE"⟩], none⟩ (1 / 2) ≠ none :=
  draws_iff (by simp) (by simp) (by norm_num) (by norm_num)

/-! ### The operations -/

/-- What it is made with weighs something. -/
theorem weight_pos (p : String → Option ℚ) : ∀ pair ∈ (createOperationGenerator rationals p).values, 0 < pair.weight := by
  refine List.foldlRecOn proportions _ (motive := fun g : DiscreteGenerator ℚ => ∀ pair ∈ g.values, 0 < pair.weight) (fun pair hpair => ?_) ?_
  · exact absurd hpair List.not_mem_nil
  · rintro g hg ⟨property, unset, operation⟩ -
    dsimp only
    split_ifs with hlt
    · intro pair hpair
      obtain hold | hnew := List.mem_append.mp hpair
      · exact hg pair hold
      · rw [List.mem_singleton.mp hnew]
        exact of_decide_eq_true hlt
    · exact hg

/-- **Operations are always chosen** if any has a proportion. -/
theorem operation_ne_none {p : String → Option ℚ} (h : (createOperationGenerator rationals p).values ≠ []) {val : ℚ} (hval : 0 ≤ val) (hlt : val < 1) :
    (createOperationGenerator rationals p).nextValue rationals val ≠ none :=
  nextValue_ne_none h (weight_pos p) hval hlt

end DiscreteGenerator

end YcsbIvs.Generator
