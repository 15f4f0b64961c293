import Mathlib.Combinatorics.Pigeonhole

/-!
# Walks

A walk goes from place to place: each place says where the next one is, or that the walk stops there. `walk next s n` is the place
`n` steps from `s`, if the walk gets that far.

A walk that comes to a place again goes round for ever, and one that has only so many places to go on from stops or comes to one of them again.
So it stops **just when it comes to no place twice** (`stops_iff`), and then within as many steps as there are places (`walk_of_noReturn`).
-/

namespace YcsbIvs.Foundations

universe u

variable {σ : Type u} {next : σ → Option σ} {s : σ}

/-- The place `n` steps from `s`. -/
def walk (next : σ → Option σ) (s : σ) : ℕ → Option σ
  | 0 => some s
  | n + 1 => (walk next s n).bind next

/-- The walk from `s` stops. -/
def Stops (next : σ → Option σ) (s : σ) : Prop := ∃ n, walk next s n = none

/-- The walk from `s` comes to no place twice. -/
def NoReturn (next : σ → Option σ) (s : σ) : Prop :=
  ∀ i j a, i < j → walk next s i = some a → walk next s j ≠ some a

@[simp] theorem walk_zero (next : σ → Option σ) (s : σ) : walk next s 0 = some s := rfl

theorem walk_add (next : σ → Option σ) (s : σ) (m n : ℕ) : walk next s (m + n) = (walk next s m).bind fun t => walk next t n := by
  induction n with
  | zero => simp
  | succ n ih =>
    rw [← Nat.add_assoc, walk, ih, Option.bind_assoc]
    rfl

/-- The first step, and the steps after it. -/
theorem walk_succ (next : σ → Option σ) (s : σ) (n : ℕ) : walk next s (n + 1) = (next s).bind fun t => walk next t n := by
  rw [Nat.add_comm, walk_add]
  rfl

/-- A walk that has stopped stays stopped. -/
theorem walk_of_le {m n : ℕ} (h : walk next s m = none) (hle : m ≤ n) : walk next s n = none := by
  obtain ⟨k, rfl⟩ := Nat.exists_eq_add_of_le hle
  rw [walk_add, h]
  rfl

/-- A walk that gets that far has gone on from every place before. -/
theorem exists_walk_of_le {m n : ℕ} {a : σ} (h : walk next s n = some a) (hle : m ≤ n) : ∃ b, walk next s m = some b := by
  by_contra hnot
  rw [walk_of_le (Option.eq_none_iff_forall_ne_some.mpr fun b hb => hnot ⟨b, hb⟩) hle] at h
  cases h

/-- From a place that it comes to again the walk goes round. -/
theorem walk_round {k : ℕ} (h : walk next s k = some s) (n : ℕ) : walk next s (n * k) = some s := by
  induction n with
  | zero => rw [Nat.zero_mul, walk_zero]
  | succ n ih => rw [Nat.succ_mul, walk_add, ih, Option.bind_some, h]

/-- A walk that stops comes to no place twice. -/
theorem noReturn_of_stops (h : Stops next s) : NoReturn next s := by
  obtain ⟨n, hn⟩ := h
  intro i j a hij hi hj
  have hround : walk next a (j - i) = some a := by
    rw [← Nat.add_sub_cancel' hij.le, walk_add, hi] at hj
    exact hj
  have hfar : walk next s (i + n * (j - i)) = some a := by rw [walk_add, hi, Option.bind_some, walk_round hround]
  have hle : n ≤ i + n * (j - i) := Nat.le_add_left_of_le (Nat.le_mul_of_pos_right n (Nat.sub_pos_of_lt hij))
  rw [walk_of_le hn hle] at hfar
  cases hfar

/-- A walk that comes to no place twice stops after as many steps as there are places that it goes on from. -/
theorem walk_of_noReturn (h : NoReturn next s) {places : Finset σ} (hplaces : ∀ a, next a ≠ none → a ∈ places) :
    walk next s (places.card + 1) = none := by
  classical
  by_contra hnot
  obtain ⟨b, hb⟩ := Option.ne_none_iff_exists'.mp hnot
  have hwalked : ∀ n, n ≤ places.card → ∃ a ∈ places, walk next s n = some a := fun n hn => by
    obtain ⟨c, hc⟩ := exists_walk_of_le hb (Nat.succ_le_succ hn)
    obtain ⟨a, ha, hnext⟩ := Option.bind_eq_some_iff.mp hc
    exact ⟨a, hplaces a (by rw [hnext]; exact Option.some_ne_none c), ha⟩
  have : Nonempty σ := ⟨s⟩
  choose! place hmem hplace using hwalked
  -- one more place than there are
  obtain ⟨i, hi, j, hj, hne, heq⟩ := Finset.exists_ne_map_eq_of_card_lt_of_maps_to (s := Finset.range (places.card + 1)) (t := places)
    (by rw [Finset.card_range]; exact Nat.lt_succ_self _)
    fun n hn => hmem n (Nat.lt_succ_iff.mp (Finset.mem_range.mp hn))
  rw [Finset.mem_range, Nat.lt_succ_iff] at hi hj
  rcases lt_or_gt_of_ne hne with hlt | hlt
  · exact h i j (place i) hlt (hplace i hi) (by rw [heq]; exact hplace j hj)
  · exact h j i (place j) hlt (hplace j hj) (by rw [← heq]; exact hplace i hi)

/-- **A walk with only so many places to go on from stops** just when it comes to no place twice. -/
theorem stops_iff {places : Finset σ} (hplaces : ∀ a, next a ≠ none → a ∈ places) : Stops next s ↔ NoReturn next s :=
  ⟨noReturn_of_stops, fun h => ⟨_, walk_of_noReturn h hplaces⟩⟩

/-- It stops within as many steps as there are places, or never. -/
theorem stops_iff_walk {places : Finset σ} (hplaces : ∀ a, next a ≠ none → a ∈ places) :
    Stops next s ↔ walk next s (places.card + 1) = none :=
  ⟨fun h => walk_of_noReturn (noReturn_of_stops h) hplaces, fun h => ⟨_, h⟩⟩

end YcsbIvs.Foundations
