import Mathlib.Algebra.BigOperators.Ring.List
import Mathlib.Algebra.Field.Basic
import Mathlib.Algebra.Order.BigOperators.Group.List
import Mathlib.Algebra.Order.Group.Defs

/-!
# Shares of an interval

A list of shares cuts the interval from zero to their sum into pieces, one after the other: `InShare shares i x` says that `x` is in the piece of the `i`-th share.
If no share is negative, each `x` of the interval is in one piece (`existsUnique_inShare`). The shares of weights in their sum cut the unit interval (`sum_share`).
-/

namespace YcsbIvs.Foundations

section Pieces

variable {K : Type} [AddCommGroup K] [LinearOrder K]

/-- What the first `i` shares come to. -/
def upTo (shares : List K) (i : ℕ) : K := (shares.take i).sum

/-- `x` is in the piece of the `i`-th share. -/
def InShare (shares : List K) (i : ℕ) (x : K) : Prop := i < shares.length ∧ upTo shares i ≤ x ∧ x < upTo shares (i + 1)

instance (shares : List K) (i : ℕ) (x : K) : Decidable (InShare shares i x) := inferInstanceAs (Decidable (_ ∧ _ ∧ _))

@[simp] theorem not_inShare_nil (i : ℕ) (x : K) : ¬InShare [] i x := fun h => absurd h.1 (Nat.not_lt_zero i)

/-- The first piece. -/
theorem inShare_cons_zero (share : K) (shares : List K) (x : K) : InShare (share :: shares) 0 x ↔ 0 ≤ x ∧ x < share := by
  simp [InShare, upTo]

variable [IsOrderedAddMonoid K]

/-- The pieces after it. -/
theorem inShare_cons_succ (share : K) (shares : List K) (i : ℕ) (x : K) :
    InShare (share :: shares) (i + 1) x ↔ InShare shares i (x - share) := by
  simp only [InShare, upTo, List.length_cons, List.take_succ_cons, List.sum_cons, Nat.succ_lt_succ_iff, le_sub_iff_add_le', sub_lt_iff_lt_add']

/-- What is in a piece after the first is not less than the first share. -/
theorem InShare.nonneg {shares : List K} (hshares : ∀ share ∈ shares, 0 ≤ share) {i : ℕ} {x : K} (h : InShare shares i x) : 0 ≤ x := by
  have hsum : 0 ≤ upTo shares i := List.sum_nonneg fun share hmem => hshares share (List.mem_of_mem_take hmem)
  exact hsum.trans h.2.1

/-- **The pieces tile the interval.** -/
theorem existsUnique_inShare {shares : List K} (hshares : ∀ share ∈ shares, 0 ≤ share) {x : K} (h : 0 ≤ x) (hlt : x < shares.sum) :
    ∃! i, InShare shares i x := by
  induction shares generalizing x with
  | nil => exact absurd h (not_le.mpr hlt)
  | cons share shares ih =>
    have hrest : ∀ share ∈ shares, 0 ≤ share := fun share hmem => hshares share (List.mem_cons_of_mem _ hmem)
    by_cases hfirst : x < share
    · refine ⟨0, (inShare_cons_zero share shares x).mpr ⟨h, hfirst⟩, fun i hi => ?_⟩
      cases i with
      | zero => rfl
      | succ i => exact absurd (sub_nonneg.mp (((inShare_cons_succ share shares i x).mp hi).nonneg hrest)) (not_le.mpr hfirst)
    · rw [List.sum_cons] at hlt
      obtain ⟨i, hi, hunique⟩ := ih hrest (sub_nonneg.mpr (not_lt.mp hfirst)) (sub_lt_iff_lt_add'.mpr hlt)
      refine ⟨i + 1, (inShare_cons_succ share shares i x).mpr hi, fun j hj => ?_⟩
      cases j with
      | zero => exact absurd ((inShare_cons_zero share shares x).mp hj).2 hfirst
      | succ j => rw [hunique j ((inShare_cons_succ share shares j x).mp hj)]

end Pieces

section Weights

variable {K : Type} [Field K]

/-- The shares of weights in their sum come to one. -/
theorem sum_share {weights : List K} (h : weights.sum ≠ 0) : (weights.map (· / weights.sum)).sum = 1 := by
  simp only [div_eq_mul_inv]
  rw [List.sum_map_mul_right, List.map_id', mul_inv_cancel₀ h]

end Weights

end YcsbIvs.Foundations
