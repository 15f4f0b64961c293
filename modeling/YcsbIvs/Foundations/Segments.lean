import Mathlib.Order.Lattice

/-!
# Values in segments

Values come with keys that do not go down, and are put together as long as the key stays the same: `push` adds a value to the segment that is open, or closes that
and opens the next. The segments are then those of the keys there have been, in order, and each has the values of its key (`Groups`, `groups_push`).
-/

namespace YcsbIvs.Foundations

universe u v

/-- Segments of values. -/
structure Segments (κ : Type u) (α : Type v) where
  /-- The closed ones. -/
  closed : List (κ × List α)
  /-- The key of the open one. -/
  key : κ
  /-- Its values. -/
  values : List α

namespace Segments

variable {κ : Type u} {α : Type v} [LinearOrder κ]

/-- The first value. -/
def single (k : κ) (a : α) : Segments κ α := ⟨[], k, [a]⟩

/-- The next value. -/
def push (s : Segments κ α) (k : κ) (a : α) : Segments κ α :=
  if s.key < k then ⟨s.closed ++ [(s.key, s.values)], k, [a]⟩ else { s with values := s.values ++ [a] }

/-- The segments, the open one closed. -/
def all (s : Segments κ α) : List (κ × List α) := s.closed ++ [(s.key, s.values)]

end Segments

variable {κ : Type u} {α : Type v} [LinearOrder κ]

/-- The values of a key. -/
def valuesAt (xs : List (κ × α)) (k : κ) : List α := (xs.filter fun x => x.1 = k).map Prod.snd

/-- The values `xs`, by their keys. -/
structure Groups (xs : List (κ × α)) (segments : List (κ × List α)) : Prop where
  /-- The keys go up. -/
  increasing : (segments.map Prod.fst).Pairwise (· < ·)
  /-- They are the keys of the values. -/
  keys : ∀ k, k ∈ segments.map Prod.fst ↔ k ∈ xs.map Prod.fst
  /-- Each segment has the values of its key. -/
  values : ∀ e ∈ segments, e.2 = valuesAt xs e.1

theorem valuesAt_concat (xs : List (κ × α)) (x : κ × α) (k : κ) : valuesAt (xs ++ [x]) k = valuesAt xs k ++ if x.1 = k then [x.2] else [] := by
  rw [valuesAt, List.filter_append, List.map_append, valuesAt]
  split_ifs with h
  · simp [h]
  · simp [h]

/-- A key without values. -/
theorem valuesAt_eq_nil {xs : List (κ × α)} {k : κ} (h : k ∉ xs.map Prod.fst) : valuesAt xs k = [] := by
  rw [valuesAt, List.map_eq_nil_iff, List.filter_eq_nil_iff]
  intro x hx hk
  exact h (List.mem_map.mpr ⟨x, hx, of_decide_eq_true hk⟩)

theorem groups_single (k : κ) (a : α) : Groups [(k, a)] (Segments.single k a).all := by
  refine ⟨List.pairwise_singleton _ _, fun _ => Iff.rfl, fun e he => ?_⟩
  rw [List.mem_singleton.mp he]
  exact (valuesAt_concat [] (k, a) k).symm ▸ (if_pos rfl).symm

/-- **The next value**, when its key is not below any there has been. -/
theorem groups_push {xs : List (κ × α)} {s : Segments κ α} (h : Groups xs s.all) {k : κ} (hk : s.key ≤ k) (a : α) :
    Groups (xs ++ [(k, a)]) (s.push k a).all := by
  obtain ⟨hinc, hkeys, hvalues⟩ := h
  have hlast : valuesAt xs s.key = s.values := (hvalues (s.key, s.values) (List.mem_append_right _ List.mem_cons_self)).symm
  have hbelow : ∀ k' ∈ s.closed.map Prod.fst, k' < s.key := by
    rw [Segments.all, List.map_append, List.pairwise_append] at hinc
    exact fun k' hk' => hinc.2.2 k' hk' s.key List.mem_cons_self
  rw [Segments.push]
  split_ifs with hlt
  · -- a new segment: its key is above all
    have habove : ∀ k' ∈ s.all.map Prod.fst, k' < k := by
      intro k' hk'
      rw [Segments.all, List.map_append] at hk'
      rcases List.mem_append.mp hk' with hk' | hk'
      · exact (hbelow k' hk').trans hlt
      · rw [List.mem_singleton.mp hk']
        exact hlt
    have hall : Segments.all (⟨s.closed ++ [(s.key, s.values)], k, [a]⟩ : Segments κ α) = s.all ++ [(k, [a])] := rfl
    rw [hall]
    refine ⟨?_, fun k' => ?_, fun e he => ?_⟩
    · rw [List.map_append, List.pairwise_append]
      refine ⟨hinc, List.pairwise_singleton _ _, fun k' hk' k'' hk'' => ?_⟩
      rw [List.mem_singleton.mp hk'']
      exact habove k' hk'
    · rw [List.map_append, List.map_append, List.mem_append, List.mem_append, hkeys]
      rfl
    · rw [valuesAt_concat]
      rcases List.mem_append.mp he with he | he
      · rw [if_neg (habove e.1 (List.mem_map.mpr ⟨e, he, rfl⟩)).ne', List.append_nil]
        exact hvalues e he
      · rw [List.mem_singleton.mp he, if_pos rfl, valuesAt_eq_nil]
        · rfl
        · exact fun hmem => lt_irrefl k (habove k ((hkeys k).mpr hmem))
  · -- the open segment goes on
    obtain rfl : s.key = k := le_antisymm hk (not_lt.mp hlt)
    have hfst : Segments.all { s with values := s.values ++ [a] } = s.closed ++ [(s.key, s.values ++ [a])] := rfl
    have hsame : (s.closed ++ [(s.key, s.values ++ [a])]).map Prod.fst = s.all.map Prod.fst := by
      rw [Segments.all, List.map_append, List.map_append]
      rfl
    rw [hfst]
    refine ⟨hsame ▸ hinc, fun k' => ?_, fun e he => ?_⟩
    · rw [hsame, hkeys, List.map_append, List.mem_append]
      refine ⟨.inl, fun hor => hor.elim id fun hone => ?_⟩
      rw [List.mem_singleton.mp hone, ← hkeys, Segments.all, List.map_append]
      exact List.mem_append_right _ List.mem_cons_self
    · rw [valuesAt_concat]
      rcases List.mem_append.mp he with he | he
      · rw [if_neg (hbelow e.1 (List.mem_map.mpr ⟨e, he, rfl⟩)).ne', List.append_nil]
        exact hvalues e (List.mem_append_left _ he)
      · rw [List.mem_singleton.mp he, if_pos rfl, hlast]

/-- No segment is empty. -/
theorem Groups.ne_nil {xs : List (κ × α)} {segments : List (κ × List α)} (h : Groups xs segments) {e : κ × List α} (he : e ∈ segments) : e.2 ≠ [] := by
  obtain ⟨x, hx, hfst⟩ := List.mem_map.mp ((h.keys e.1).mp (List.mem_map.mpr ⟨e, he, rfl⟩))
  rw [h.values e he, valuesAt]
  exact fun hnil => absurd (List.map_eq_nil_iff.mp hnil) (List.ne_nil_of_mem (List.mem_filter.mpr ⟨hx, decide_eq_true hfst⟩))

end YcsbIvs.Foundations
