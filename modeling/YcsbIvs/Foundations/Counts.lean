import Mathlib.Algebra.BigOperators.Group.Finset.Piecewise
import Mathlib.Algebra.Order.BigOperators.Group.Finset
import Mathlib.Data.Rat.Floor

/-!
# Counts

How many elements of a list `l` a function `f` sends to each number. The counts of `0, …, n – 1` come to how many elements it sends to one of them
(`sum_countP`), and what is sent below `n + 1` is sent below `n` or to `n` (`countP_lt_add_one`).

A histogram is a list of such counts, `(List.range n).map count`; one more in a bucket changes the count of that bucket (`modify_map_range`).
-/

namespace YcsbIvs.Foundations

variable {α β : Type}

theorem sum_range_ite (x : ℤ) (n : ℕ) :
    ((List.range n).map fun i : ℕ => if x = (i : ℤ) then 1 else 0).sum = if 0 ≤ x ∧ x < n then 1 else 0 := by
  induction n with
  | zero => rw [List.range_zero, List.map_nil, List.sum_nil, if_neg (by omega)]
  | succ n ih =>
    rw [List.range_succ, List.map_append, List.sum_append, ih, List.map_singleton, List.sum_singleton]
    split_ifs <;> omega

/-- The elements of the first buckets are those whose bucket is one of them. -/
theorem sum_countP (f : α → ℤ) (l : List α) (n : ℕ) :
    ((List.range n).map fun i : ℕ => l.countP fun a => f a = (i : ℤ)).sum = l.countP fun a => 0 ≤ f a ∧ f a < n := by
  induction l with
  | nil => simp
  | cons a l ih =>
    have hone := sum_range_ite (f a) n
    simp only [List.countP_cons, decide_eq_true_eq, List.sum_map_add, ih, hone]

/-- Below the next number is below this one, or this one. -/
theorem countP_lt_add_one (f : α → ℤ) (l : List α) (n : ℤ) :
    l.countP (fun a => f a < n + 1) = l.countP (fun a => f a < n) + l.countP fun a => f a = n := by
  induction l with
  | nil => rfl
  | cons a l ih =>
    simp only [List.countP_cons, decide_eq_true_eq, ih]
    split_ifs <;> omega

/-- One bucket changes. -/
theorem modify_map_range (count : ℕ → β) (n i : ℕ) (u : β → β) :
    ((List.range n).map count).modify i u = (List.range n).map fun j => if j = i then u (count j) else count j := by
  refine List.ext_getElem (by simp) fun j hj _ => ?_
  simp only [List.getElem_modify, List.getElem_map, List.getElem_range, eq_comm]

end YcsbIvs.Foundations
