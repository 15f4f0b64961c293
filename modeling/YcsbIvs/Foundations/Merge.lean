import Mathlib.Data.List.Flatten
import Mathlib.Data.List.Perm.Basic
import Mathlib.Tactic.SplitIfs

/-!
# Merging lists

Taking elements off the fronts of several lists, one at a time: `Takes ls out ls'` says that
`out` can be taken off `ls` so, and leaves `ls'`. When it leaves nothing `out` is a
merge of the lists (`IsMerge`).

What is taken and what is left is what there was (`Takes.perm`), and of each list it is a prefix that
is taken, in its order (`Takes.split`).
-/

namespace YcsbIvs.Foundations

universe u

variable {ρ : Type u}

/-- `out` is taken off the fronts of `ls`, and `ls'` is left. -/
inductive Takes : List (List ρ) → List ρ → List (List ρ) → Prop where
  /-- Nothing is taken. -/
  | nil (ls : List (List ρ)) : Takes ls [] ls
  /-- The head of list number `i` is taken first. -/
  | cons {ls ls' : List (List ρ)} {i : ℕ} {x : ρ} {l out : List ρ} :
      ls[i]? = some (x :: l) → Takes (ls.set i l) out ls' → Takes ls (x :: out) ls'

/-- `m` is a merge of the lists: all and only their elements, those of each list in its order. -/
def IsMerge (ls : List (List ρ)) (m : List ρ) : Prop := ∃ ls', Takes ls m ls' ∧ ∀ l ∈ ls', l = []

theorem IsMerge.nil {ls : List (List ρ)} (h : ∀ l ∈ ls, l = []) : IsMerge ls [] := ⟨ls, .nil ls, h⟩

theorem IsMerge.cons {ls : List (List ρ)} {i : ℕ} {x : ρ} {l m : List ρ} (hi : ls[i]? = some (x :: l))
    (h : IsMerge (ls.set i l) m) : IsMerge ls (x :: m) := by
  obtain ⟨ls', htakes, hnil⟩ := h
  exact ⟨ls', .cons hi htakes, hnil⟩

/-- Taking the head of a list takes one element of all there are. -/
theorem perm_flatten_set {ls : List (List ρ)} {i : ℕ} {x : ρ} {l : List ρ} (h : ls[i]? = some (x :: l)) :
    ls.flatten.Perm (x :: (ls.set i l).flatten) := by
  induction ls generalizing i with
  | nil => simp at h
  | cons l₀ ls ih =>
    cases i with
    | zero =>
      simp only [List.getElem?_cons_zero, Option.some.injEq] at h
      simp [h]
    | succ i =>
      rw [List.getElem?_cons_succ] at h
      simp only [List.flatten_cons, List.set_cons_succ]
      exact ((ih h).append_left l₀).trans List.perm_middle

/-- What is taken and what is left is what there was. -/
theorem Takes.perm {ls ls' : List (List ρ)} {out : List ρ} (h : Takes ls out ls') :
    ls.flatten.Perm (out ++ ls'.flatten) := by
  induction h with
  | nil => exact .rfl
  | cons hi _ ih => exact (perm_flatten_set hi).trans (ih.cons _)

/-- A merge has all elements of the lists, each as often as they have it. -/
theorem IsMerge.perm {ls : List (List ρ)} {m : List ρ} (h : IsMerge ls m) : ls.flatten.Perm m := by
  obtain ⟨ls', htakes, hnil⟩ := h
  have hflat : ls'.flatten = [] := List.flatten_eq_nil_iff.mpr hnil
  have hperm := htakes.perm
  rwa [hflat, List.append_nil] at hperm

/-- Of each list it is a prefix that is taken, and it is taken in order. -/
theorem Takes.split {ls ls' : List (List ρ)} {out : List ρ} (h : Takes ls out ls') {j : ℕ} {l : List ρ}
    (hj : ls[j]? = some l) : ∃ pre post, l = pre ++ post ∧ ls'[j]? = some post ∧ pre.Sublist out := by
  induction h generalizing l with
  | nil => exact ⟨[], l, rfl, hj, .slnil⟩
  | @cons ls ls' i x l₀ out hi _ ih =>
    by_cases hij : i = j
    · subst hij
      obtain rfl : x :: l₀ = l := Option.some.inj (hi.symm.trans hj)
      have hset : (ls.set i l₀)[i]? = some l₀ := by
        rw [List.getElem?_set_self (List.getElem?_eq_some_iff.mp hj).1]
      obtain ⟨pre, post, rfl, hpost, hsub⟩ := ih hset
      exact ⟨x :: pre, post, rfl, hpost, hsub.cons_cons x⟩
    · have hset : (ls.set i l₀)[j]? = some l := by rw [List.getElem?_set_ne hij, hj]
      obtain ⟨pre, post, hl, hpost, hsub⟩ := ih hset
      exact ⟨pre, post, hl, hpost, hsub.cons x⟩

end YcsbIvs.Foundations
