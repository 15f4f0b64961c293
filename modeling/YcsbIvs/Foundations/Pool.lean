import YcsbIvs.Foundations.Runs
import Mathlib.Algebra.BigOperators.Group.List.Basic
import Mathlib.Algebra.Ring.Int.Defs
import Mathlib.Algebra.Ring.Nat

/-!
# Pools of threads

Threads that share a state, in any order: a step of the pool is a step of one of its threads,
which may change the shared state and changes no other thread.

What each thread has is summed up over the pool, and a step changes the sum by what it changes
for its thread (`sum_map_set`).
-/

namespace YcsbIvs.Foundations

universe u v w

/-- A shared state, and threads. -/
structure Pool (σ : Type u) (θ : Type v) where
  /-- What the threads share. -/
  shared : σ
  /-- The threads. -/
  threads : List θ
  deriving DecidableEq

variable {σ : Type u} {θ : Type v} {ℓ : Type w} (move : σ → θ → ℓ → Option (σ × θ))

/-- A step of the thread with the index `l.1`. -/
def Pool.step (p : Pool σ θ) (l : ℕ × ℓ) : Option (Pool σ θ) :=
  match p.threads[l.1]? with
  | some t => (move p.shared t l.2).map fun r => ⟨r.1, p.threads.set l.1 r.2⟩
  | none => none

variable {move}

/-- The thread that moves, and what it does. -/
theorem Pool.step_eq_some {p p' : Pool σ θ} {l : ℕ × ℓ} (h : p.step move l = some p') :
    ∃ t s' t', p.threads[l.1]? = some t ∧ move p.shared t l.2 = some (s', t') ∧ p' = ⟨s', p.threads.set l.1 t'⟩ := by
  rw [Pool.step] at h
  cases ht : p.threads[l.1]? with
  | none => simp [ht] at h
  | some t =>
    simp only [ht] at h
    obtain ⟨r, hr, rfl⟩ := Option.map_eq_some_iff.mp h
    exact ⟨t, r.1, r.2, rfl, hr, rfl⟩

/-- A pool whose threads can not all stay where they are can move. -/
theorem Pool.step_of_mem {p : Pool σ θ} {t : θ} (ht : t ∈ p.threads) {l : ℓ} {r : σ × θ}
    (h : move p.shared t l = some r) : ∃ i p', p.step move (i, l) = some p' := by
  obtain ⟨i, hi⟩ := List.mem_iff_getElem?.mp ht
  refine ⟨i, ⟨r.1, p.threads.set i r.2⟩, ?_⟩
  rw [Pool.step]
  simp only [hi, h, Option.map_some]

/-- What holds of every thread still does when it holds of the one that has moved. -/
theorem forall_threads_set {P : θ → Prop} {ts : List θ} (hall : ∀ t ∈ ts, P t) {moved : θ} (hmoved : P moved) (i : ℕ) :
    ∀ t ∈ ts.set i moved, P t := fun _ ht =>
  (List.mem_or_eq_of_mem_set ht).elim (hall _) fun heq => heq ▸ hmoved

/-- A step changes a sum over the threads by what it changes for its thread. -/
theorem sum_map_set (f : θ → ℤ) {ts : List θ} {i : ℕ} {t : θ} (ht : ts[i]? = some t) (t' : θ) :
    ((ts.set i t').map f).sum = (ts.map f).sum + (f t' - f t) := by
  obtain ⟨hi, rfl⟩ := List.getElem?_eq_some_iff.mp ht
  rw [List.map_set, List.sum_set', dif_pos (by rwa [List.length_map]), List.getElem_map]
  omega

/-- What a step does not change for its thread, it does not change for any. -/
theorem map_set_eq {α : Type*} (f : θ → α) {ts : List θ} {i : ℕ} {t t' : θ} (ht : ts[i]? = some t) (h : f t' = f t) :
    (ts.set i t').map f = ts.map f := by
  obtain ⟨hi, rfl⟩ := List.getElem?_eq_some_iff.mp ht
  rw [List.map_set, h, ← List.getElem_map f (h := by rwa [List.length_map]), List.set_getElem_self]

end YcsbIvs.Foundations
