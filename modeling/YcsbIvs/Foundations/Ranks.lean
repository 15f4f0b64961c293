import Mathlib.Data.List.Count
import Mathlib.Order.Lattice

/-!
# Ranks

The value of rank `k` among some: no more than `k` are below it, and more than `k` are not above it (`IsRank`). There is one at most, a higher rank has no lower
value, and it does not matter in which order the values are. In a list that is sorted it is the value at place `k` (`isRank_getElem`).
-/

namespace YcsbIvs.Foundations

universe u

variable {α : Type u} [LinearOrder α]

/-- The value of rank `k`. -/
structure IsRank (xs : List α) (k : ℕ) (v : α) : Prop where
  /-- It is one of them. -/
  mem : v ∈ xs
  /-- How many are below it. -/
  below : xs.countP (· < v) ≤ k
  /-- How many are not above it. -/
  upto : k < xs.countP (· ≤ v)

/-- A higher rank has no lower value. -/
theorem IsRank.le {xs : List α} {k k' : ℕ} {v w : α} (h : IsRank xs k v) (h' : IsRank xs k' w) (hk : k ≤ k') : v ≤ w := by
  by_contra hlt
  have hle : xs.countP (· ≤ w) ≤ xs.countP (· < v) :=
    List.countP_mono_left fun x _ hx => decide_eq_true ((of_decide_eq_true hx).trans_lt (not_le.mp hlt))
  have := h.below
  have := h'.upto
  omega

theorem IsRank.unique {xs : List α} {k : ℕ} {v w : α} (h : IsRank xs k v) (h' : IsRank xs k w) : v = w :=
  le_antisymm (h.le h' (Nat.le_refl k)) (h'.le h (Nat.le_refl k))

theorem IsRank.perm {xs ys : List α} {k : ℕ} {v : α} (h : IsRank xs k v) (hperm : xs.Perm ys) : IsRank ys k v :=
  ⟨hperm.mem_iff.mp h.mem, hperm.countP_eq (· < v) ▸ h.below, hperm.countP_eq (· ≤ v) ▸ h.upto⟩

/-- **The value at a place** of a sorted list has the rank of the place. -/
theorem isRank_getElem {xs : List α} (h : xs.Pairwise (· ≤ ·)) {k : ℕ} (hk : k < xs.length) : IsRank xs k xs[k] := by
  have hcut : xs = xs.take k ++ xs[k] :: xs.drop (k + 1) := by
    rw [← List.drop_eq_getElem_cons hk, List.take_append_drop]
  have htake : (xs.take k).length = k := List.length_take_of_le (Nat.le_of_lt hk)
  have hpair := h
  rw [hcut, List.pairwise_append] at hpair
  obtain ⟨-, hafter, hbefore⟩ := hpair
  have hsplit : ∀ p : α → Bool, xs.countP p = (xs.take k).countP p + (xs[k] :: xs.drop (k + 1)).countP p := by
    intro p
    rw [← List.countP_append, ← hcut]
  refine ⟨List.getElem_mem hk, ?_, ?_⟩
  · -- those that come after are not below
    have hnone : (xs[k] :: xs.drop (k + 1)).countP (· < xs[k]) = 0 := by
      refine List.countP_eq_zero.mpr fun x hx => ?_
      rw [decide_eq_true_eq, not_lt]
      rcases List.mem_cons.mp hx with rfl | hx
      · exact le_refl _
      · exact (List.pairwise_cons.mp hafter).1 x hx
    have hsome : (xs.take k).countP (· < xs[k]) ≤ (xs.take k).length := List.countP_le_length
    rw [hsplit, hnone]
    omega
  · -- those that come before are not above
    have hall : (xs.take k).countP (· ≤ xs[k]) = k := by
      rw [List.countP_eq_length.mpr fun x hx => decide_eq_true (hbefore x hx xs[k] List.mem_cons_self), htake]
    have hself : (xs[k] :: xs.drop (k + 1)).countP (· ≤ xs[k]) = (xs.drop (k + 1)).countP (· ≤ xs[k]) + 1 :=
      List.countP_cons_of_pos (decide_eq_true (le_refl xs[k]))
    rw [hsplit, hall, hself]
    omega

end YcsbIvs.Foundations
