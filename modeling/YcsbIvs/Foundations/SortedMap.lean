import Mathlib.Data.List.Pairwise
import Mathlib.Data.List.Lex
import Mathlib.Data.List.Sort
import Mathlib.Order.Lattice
import Mathlib.Tactic.SplitIfs

/-!
# Sorted maps

A finite map kept as the list of its entries in increasing order of their keys.
The order is a field (`SortedMap.sorted`), so a list out of order is not a map.

`get`, `put` and `delete` are lookup, replacing insertion and removal. `seek k` is
what an iterator placed at `k` sees: the entries from the first key not below `k`
on. Its first `n` entries are the `n` least entries not below `k`
(`take_sorted_first`): entries in order, each of the map and not below `k`, and an
entry left out is above all of them, and only if there are `n`.

Bytes, and with them strings of bytes, are ordered by their unsigned values.
-/

namespace YcsbIvs.Foundations

/-- Bytes are ordered as unsigned numbers. -/
instance linearOrderByte : LinearOrder UInt8 where
  le_refl _ := UInt8.le_refl _
  le_trans _ _ _ := UInt8.le_trans
  le_antisymm _ _ := UInt8.le_antisymm
  le_total := UInt8.le_total
  lt_iff_le_not_ge a b := by
    simp only [UInt8.le_iff_toNat_le, UInt8.lt_iff_toNat_lt]
    omega
  toDecidableLE := inferInstance

/-- Code units are ordered as unsigned numbers, and with them strings as `compareTo` does. -/
instance linearOrderUnit : LinearOrder UInt16 where
  le_refl _ := UInt16.le_refl _
  le_trans _ _ _ := UInt16.le_trans
  le_antisymm _ _ := UInt16.le_antisymm
  le_total := UInt16.le_total
  lt_iff_le_not_ge a b := by
    simp only [UInt16.le_iff_toNat_le, UInt16.lt_iff_toNat_lt]
    omega
  toDecidableLE := inferInstance

universe u v

variable {α : Type u} {β : Type v}

/-- A finite map, its entries in increasing order of their keys. -/
structure SortedMap (α : Type u) (β : Type v) [LinearOrder α] where
  /-- The entries. -/
  entries : List (α × β)
  /-- They are in increasing order. -/
  sorted : entries.Pairwise fun a b => a.1 < b.1

variable [LinearOrder α]

/-! ### Entries -/

/-- The value of key `k`. -/
def getEntry (k : α) : List (α × β) → Option β
  | [] => none
  | e :: l => if e.1 = k then some e.2 else getEntry k l

/-- Put `v` at its place, over the value its key has. -/
def putEntry (k : α) (v : β) : List (α × β) → List (α × β)
  | [] => [(k, v)]
  | e :: l =>
    if k < e.1 then (k, v) :: e :: l
    else if k = e.1 then (k, v) :: l
    else e :: putEntry k v l

theorem mem_putEntry {k : α} {v : β} {l : List (α × β)} {a : α × β} (h : a ∈ putEntry k v l) :
    a = (k, v) ∨ a ∈ l := by
  induction l with
  | nil => simpa [putEntry] using h
  | cons e l ih =>
    rw [putEntry] at h
    split_ifs at h with h1 h2
    · simpa using h
    · rcases List.mem_cons.mp h with h | h
      · exact .inl h
      · exact .inr (List.mem_cons_of_mem e h)
    · rcases List.mem_cons.mp h with rfl | h
      · exact .inr List.mem_cons_self
      · exact (ih h).imp_right (List.mem_cons_of_mem e)

theorem sorted_putEntry (k : α) (v : β) {l : List (α × β)} (h : l.Pairwise fun a b => a.1 < b.1) :
    (putEntry k v l).Pairwise fun a b => a.1 < b.1 := by
  induction l with
  | nil => simp [putEntry]
  | cons e l ih =>
    obtain ⟨he, hl⟩ := List.pairwise_cons.mp h
    rw [putEntry]
    split_ifs with h1 h2
    · refine List.pairwise_cons.mpr ⟨fun a ha => ?_, h⟩
      rcases List.mem_cons.mp ha with rfl | ha
      · exact h1
      · exact h1.trans (he a ha)
    · exact List.pairwise_cons.mpr ⟨fun a ha => h2 ▸ he a ha, hl⟩
    · refine List.pairwise_cons.mpr ⟨fun a ha => ?_, ih hl⟩
      rcases mem_putEntry ha with rfl | ha
      · exact lt_of_le_of_ne (not_lt.mp h1) (Ne.symm h2)
      · exact he a ha

theorem getEntry_putEntry (k k' : α) (v : β) (l : List (α × β)) :
    getEntry k' (putEntry k v l) = if k' = k then some v else getEntry k' l := by
  induction l with
  | nil => simp [putEntry, getEntry, eq_comm]
  | cons e l ih =>
    rw [putEntry]
    by_cases h1 : k < e.1
    · rw [if_pos h1, getEntry]
      simp only [eq_comm]
    · by_cases h2 : k = e.1
      · rw [if_neg h1, if_pos h2, getEntry, getEntry]
        by_cases h3 : k = k'
        · simp [h3]
        · simp [h3, Ne.symm h3, ← h2]
      · rw [if_neg h1, if_neg h2, getEntry, ih, getEntry]
        by_cases h3 : e.1 = k'
        · rw [if_pos h3, if_pos h3, if_neg (by rw [← h3]; exact Ne.symm h2)]
        · rw [if_neg h3, if_neg h3]

theorem getEntry_eq_some {k : α} {v : β} {l : List (α × β)} (h : l.Pairwise fun a b => a.1 < b.1) :
    getEntry k l = some v ↔ (k, v) ∈ l := by
  induction l with
  | nil => simp [getEntry]
  | cons e l ih =>
    obtain ⟨he, hl⟩ := List.pairwise_cons.mp h
    rw [getEntry, List.mem_cons]
    split_ifs with hk
    · constructor
      · intro hv
        exact .inl (Prod.ext hk.symm (Option.some.inj hv).symm)
      · rintro (hkv | hkv)
        · rw [← hkv]
        · exact absurd (he _ hkv) (by simp [hk])
    · rw [ih hl]
      constructor
      · exact .inr
      · rintro (hkv | hkv)
        · exact absurd (by rw [← hkv]) hk
        · exact hkv

theorem getEntry_filter (p : α → Bool) (k : α) (l : List (α × β)) :
    getEntry k (l.filter fun e => p e.1) = if p k then getEntry k l else none := by
  induction l with
  | nil => simp [getEntry]
  | cons e l ih =>
    by_cases hp : p e.1 = true
    · rw [List.filter_cons, if_pos hp, getEntry, getEntry, ih]
      by_cases hk : e.1 = k
      · simp [hk ▸ hp, hk]
      · simp [hk]
    · rw [List.filter_cons, if_neg hp, ih, getEntry]
      by_cases hk : e.1 = k
      · simp [← hk, hp]
      · simp [hk]

theorem getEntry_map {γ : Type u} (f : β → γ) (k : α) (l : List (α × β)) :
    getEntry k (l.map fun e => (e.1, f e.2)) = (getEntry k l).map f := by
  induction l with
  | nil => rfl
  | cons e l ih =>
    rw [List.map_cons, getEntry, getEntry, ih]
    split_ifs <;> rfl

namespace SortedMap

/-- The map with no entries. -/
def empty : SortedMap α β := ⟨[], List.Pairwise.nil⟩

/-- The value of key `k`. -/
def get (m : SortedMap α β) (k : α) : Option β := getEntry k m.entries

/-- Put `v` at `k`. -/
def put (m : SortedMap α β) (k : α) (v : β) : SortedMap α β :=
  ⟨putEntry k v m.entries, sorted_putEntry k v m.sorted⟩

/-- Remove `k`. -/
def delete (m : SortedMap α β) (k : α) : SortedMap α β :=
  ⟨m.entries.filter fun e => e.1 ≠ k, m.sorted.filter _⟩

/-- The entries from the first key not below `k` on. -/
def seek (m : SortedMap α β) (k : α) : List (α × β) := m.entries.filter fun e => k ≤ e.1

/-- The map of the values `f v`. -/
def map {γ : Type u} (f : β → γ) (m : SortedMap α β) : SortedMap α γ :=
  ⟨m.entries.map fun e => (e.1, f e.2), List.pairwise_map.mpr m.sorted⟩

/-- The entries whose keys meet `p`. -/
def filter (p : α → Bool) (m : SortedMap α β) : SortedMap α β := ⟨m.entries.filter fun e => p e.1, m.sorted.filter _⟩

@[simp] theorem get_empty (k : α) : (empty : SortedMap α β).get k = none := rfl

theorem get_put (m : SortedMap α β) (k k' : α) (v : β) :
    (m.put k v).get k' = if k' = k then some v else m.get k' :=
  getEntry_putEntry k k' v m.entries

theorem get_delete (m : SortedMap α β) (k k' : α) :
    (m.delete k).get k' = if k' = k then none else m.get k' := by
  have := getEntry_filter (fun a => decide (a ≠ k)) k' m.entries
  simp only [decide_eq_true_eq, ite_not] at this
  exact this

theorem get_put_self (m : SortedMap α β) (k : α) (v : β) : (m.put k v).get k = some v := by
  rw [get_put, if_pos rfl]

theorem get_map {γ : Type u} (f : β → γ) (m : SortedMap α β) (k : α) : (m.map f).get k = (m.get k).map f :=
  getEntry_map f k m.entries

theorem get_filter (p : α → Bool) (m : SortedMap α β) (k : α) : (m.filter p).get k = if p k then m.get k else none :=
  getEntry_filter p k m.entries

/-- Maps with the same values are the same. -/
theorem ext_get {m m' : SortedMap α β} (h : ∀ k, m.get k = m'.get k) : m = m' := by
  have hmem : ∀ e, e ∈ m.entries ↔ e ∈ m'.entries := by
    intro (k, v)
    rw [← getEntry_eq_some m.sorted, ← getEntry_eq_some m'.sorted]
    exact Eq.congr_left (h k)
  have hirrefl : Std.Irrefl fun a b : α × β => a.1 < b.1 := ⟨fun a => lt_irrefl a.1⟩
  have hantisymm : Std.Antisymm fun a b : α × β => a.1 < b.1 := ⟨fun a b hab hba => absurd hba hab.asymm⟩
  have hentries : m.entries = m'.entries := m.sorted.eq_of_mem_iff m'.sorted hmem
  cases m
  cases m'
  cases hentries
  rfl

theorem map_put {γ : Type u} (f : β → γ) (m : SortedMap α β) (k : α) (v : β) : (m.put k v).map f = (m.map f).put k (f v) := by
  refine ext_get fun k' => ?_
  rw [get_map, get_put, get_put, get_map]
  split_ifs <;> rfl

theorem filter_put (p : α → Bool) (m : SortedMap α β) (k : α) (v : β) : (m.put k v).filter p = if p k then (m.filter p).put k v else m.filter p := by
  refine ext_get fun k' => ?_
  by_cases hk : k' = k
  · subst hk
    split_ifs with hp <;> simp [get_filter, get_put, hp]
  · split_ifs with hp <;> simp [get_filter, get_put, hk]

theorem filter_delete (p : α → Bool) (m : SortedMap α β) (k : α) : (m.delete k).filter p = (m.filter p).delete k := by
  refine ext_get fun k' => ?_
  by_cases hk : k' = k <;> simp [get_filter, get_delete, hk]

theorem seek_filter (p : α → Bool) (m : SortedMap α β) (k : α) : (m.filter p).seek k = (m.seek k).filter fun e => p e.1 :=
  List.filter_comm _ _ m.entries

/-- A map with a value for a key is not empty. -/
theorem entries_ne_nil {m : SortedMap α β} {k : α} {v : β} (h : m.get k = some v) : m.entries ≠ [] := by
  intro hnil
  rw [get, hnil] at h
  cases h

theorem mem_entries {m : SortedMap α β} {k : α} {v : β} : (k, v) ∈ m.entries ↔ m.get k = some v :=
  (getEntry_eq_some m.sorted).symm

/-- It has as many entries as there are keys with a value. -/
theorem length_entries {m : SortedMap α β} {keys : List α} (hnodup : keys.Nodup) (h : ∀ k, m.get k ≠ none ↔ k ∈ keys) :
    m.entries.length = keys.length := by
  have hentries : (m.entries.map Prod.fst).Nodup := (List.pairwise_map.mpr m.sorted).imp ne_of_lt
  have hmem : ∀ k, k ∈ m.entries.map Prod.fst ↔ k ∈ keys := by
    intro k
    rw [← h k, List.mem_map, Option.ne_none_iff_exists']
    constructor
    · rintro ⟨e, he, rfl⟩
      exact ⟨e.2, mem_entries.mp he⟩
    · rintro ⟨v, hv⟩
      exact ⟨(k, v), mem_entries.mpr hv, rfl⟩
  have hperm := (List.perm_ext_iff_of_nodup hentries hnodup).mpr hmem
  rw [← hperm.length_eq, List.length_map]

theorem mem_seek {m : SortedMap α β} {k k' : α} {v : β} :
    (k', v) ∈ m.seek k ↔ k ≤ k' ∧ m.get k' = some v := by
  rw [seek, List.mem_filter, mem_entries, and_comm]
  simp

theorem sorted_seek (m : SortedMap α β) (k : α) : (m.seek k).Pairwise fun a b => a.1 < b.1 :=
  m.sorted.filter _

end SortedMap

/-- In a sorted list, what is left out of the first `n` is above all of them, and
is left out only if there are `n`. -/
theorem take_sorted_first {l : List (α × β)} (h : l.Pairwise fun a b => a.1 < b.1) (n : ℕ) {e : α × β}
    (he : e ∈ l) : e ∈ l.take n ∨ ((l.take n).length = n ∧ ∀ a ∈ l.take n, a.1 < e.1) := by
  rw [← List.take_append_drop n l] at he
  rcases List.mem_append.mp he with he | he
  · exact .inl he
  · right
    constructor
    · rw [List.length_take, min_eq_left]
      by_contra hlt
      rw [List.drop_eq_nil_of_le (le_of_not_ge hlt)] at he
      cases he
    · intro a ha
      rw [← List.take_append_drop n l] at h
      exact (List.pairwise_append.mp h).2.2 a ha e he

/-- Lists with the same beginning are ordered as what follows it. -/
theorem append_lt_append_left_iff {pre l m : List α} : pre ++ l < pre ++ m ↔ l < m :=
  StrictMono.lt_iff_lt (f := fun l => pre ++ l) fun _ _ h => List.append_left_lt h

/-- Two selections of a list are one, if nothing is in both and what is in the first comes before what is in the second. -/
theorem filter_append_filter {γ : Type u} {p q : γ → Bool} {l : List γ} (hnot : ∀ a ∈ l, ¬ (p a = true ∧ q a = true))
    (h : l.Pairwise fun a b => q a = true → p b = false) : l.filter p ++ l.filter q = l.filter fun a => p a || q a := by
  induction l with
  | nil => rfl
  | cons a l ih =>
    obtain ⟨ha, hl⟩ := List.pairwise_cons.mp h
    have hrest := ih (fun b hb => hnot b (List.mem_cons_of_mem a hb)) hl
    cases hp : p a <;> cases hq : q a
    · simp [hp, hq, hrest]
    · have hnil : l.filter p = [] := List.filter_eq_nil_iff.mpr fun b hb => by simp [ha b hb hq]
      rw [hnil, List.nil_append] at hrest
      simp [hp, hq, hnil, hrest]
    · simp [hp, hq, hrest]
    · exact absurd ⟨hp, hq⟩ (hnot a List.mem_cons_self)

/-- What is said of each place in a list: the first, and those after it. -/
theorem forall_splits_cons {γ : Type u} {P : List γ → γ → Prop} {y : γ} {l : List γ} :
    (∀ pre x post, y :: l = pre ++ x :: post → P pre x) ↔ P [] y ∧ ∀ pre x post, l = pre ++ x :: post → P (y :: pre) x := by
  constructor
  · intro h
    exact ⟨h [] y l rfl, fun pre x post hl => h (y :: pre) x post (congrArg (y :: ·) hl)⟩
  · rintro ⟨hy, hrest⟩ pre x post hl
    cases pre with
    | nil =>
      obtain ⟨rfl, rfl⟩ := List.cons.inj hl
      exact hy
    | cons z pre =>
      obtain ⟨rfl, hl'⟩ := List.cons.inj hl
      exact hrest pre x post hl'

/-- **The first `n` of two selections are the same** just if what is in one of them alone comes after `n` that are in both. -/
theorem take_filter_eq_iff {γ : Type u} {p q : γ → Bool} {l : List γ} {n : ℕ} :
    (l.filter p).take n = (l.filter q).take n ↔
      ∀ pre x post, l = pre ++ x :: post → p x ≠ q x → n ≤ (pre.filter fun x => p x && q x).length := by
  induction l generalizing n with
  | nil => simp
  | cons y l ih =>
    rw [forall_splits_cons, List.filter_nil, List.length_nil, Nat.le_zero]
    -- what is in one of them alone is not the first of the other
    have honly : ∀ {p q : γ → Bool} {n : ℕ}, p y = true → q y = false → ((y :: l).filter p).take n = ((y :: l).filter q).take n → n = 0 := by
      intro p q n hp hq h
      cases n with
      | zero => rfl
      | succ n =>
        rw [List.filter_cons_of_pos hp, List.take_succ_cons] at h
        have hmem : y ∈ ((y :: l).filter q).take (n + 1) := h ▸ List.mem_cons_self
        have hy := (List.mem_filter.mp (List.mem_of_mem_take hmem)).2
        rw [hq] at hy
        cases hy
    cases hp : p y <;> cases hq : q y
    · have hnot : ∀ r : γ → Bool, r y = false → (y :: l).filter r = l.filter r := fun r hr => List.filter_cons_of_neg (by rw [hr]; decide)
      rw [hnot p hp, hnot q hq, ih]
      simp [hp]
    · constructor
      · intro h
        have hn := honly hq hp h.symm
        exact ⟨fun _ => hn, fun pre x post _ _ => hn ▸ Nat.zero_le _⟩
      · rintro ⟨hn, -⟩
        rw [hn (by decide), List.take_zero, List.take_zero]
    · constructor
      · intro h
        have hn := honly hp hq h
        exact ⟨fun _ => hn, fun pre x post _ _ => hn ▸ Nat.zero_le _⟩
      · rintro ⟨hn, -⟩
        rw [hn (by decide), List.take_zero, List.take_zero]
    · rw [List.filter_cons_of_pos hp, List.filter_cons_of_pos hq]
      cases n with
      | zero => simp
      | succ n =>
        rw [List.take_succ_cons, List.take_succ_cons, List.cons.injEq, ih]
        simp [hp, hq]

end YcsbIvs.Foundations
