import Mathlib.Data.List.AList

/-!
# One cell for each key

A table of cells that are made when they are first asked for. Who finds no cell for a key makes one, and enters it with `putIfAbsent`; if another has been
entered in the meantime, it takes that one. A cell that is held is changed in place, by its address.

Whoever holds a cell for a key holds the one that is in the table, and goes on doing so whatever else is done (`address_putIfAbsent`, `address_modify`). So
what is done to the cells of one key is done one after the other to what `find` gives for it (`find_putIfAbsent`, `find_modify`), and no other key sees it.
-/

namespace YcsbIvs.Foundations

universe u v

/-- Cells, and a table of them with one cell for a key and one key for a cell. -/
structure Interned (κ : Type u) (α : Type v) [DecidableEq κ] where
  /-- All the cells there are. -/
  cells : List α
  /-- The addresses of those in the table. -/
  table : AList fun _ : κ => ℕ
  /-- They are addresses of cells. -/
  lt_length : ∀ {k i}, table.lookup k = some i → i < cells.length
  /-- No cell is in the table twice. -/
  key_unique : ∀ {k k' i}, table.lookup k = some i → table.lookup k' = some i → k = k'

namespace Interned

variable {κ : Type u} {α : Type v} [DecidableEq κ]

/-- No cells. -/
def empty : Interned κ α where
  cells := []
  table := ∅
  lt_length h := by cases h
  key_unique h := by cases h

/-- The address of the cell for a key. -/
def address (m : Interned κ α) (k : κ) : Option ℕ := m.table.lookup k

/-- What is in the cell for a key. -/
def find (m : Interned κ α) (k : κ) : Option α := (m.address k).bind fun i => m.cells[i]?

/-- A new address is entered for a key that had none. -/
theorem lt_length_insert (m : Interned κ α) {k k' : κ} {i : ℕ} (h : (m.table.insert k m.cells.length).lookup k' = some i) : i < m.cells.length + 1 := by
  by_cases hk : k' = k
  · rw [hk, AList.lookup_insert, Option.some.injEq] at h
    omega
  · rw [AList.lookup_insert_ne hk] at h
    exact Nat.lt_succ_of_lt (m.lt_length h)

/-- It is the address of no other key. -/
theorem key_unique_insert (m : Interned κ α) {k k₁ k₂ : κ} {i : ℕ} (h₁ : (m.table.insert k m.cells.length).lookup k₁ = some i)
    (h₂ : (m.table.insert k m.cells.length).lookup k₂ = some i) : k₁ = k₂ := by
  have hnew : ∀ {k'}, k' ≠ k → (m.table.insert k m.cells.length).lookup k' = some i → i < m.cells.length := by
    intro k' hk h'
    rw [AList.lookup_insert_ne hk] at h'
    exact m.lt_length h'
  by_cases hk₁ : k₁ = k <;> by_cases hk₂ : k₂ = k
  · rw [hk₁, hk₂]
  · rw [hk₁, AList.lookup_insert, Option.some.injEq] at h₁
    exact absurd h₁.symm (Nat.ne_of_lt (hnew hk₂ h₂))
  · rw [hk₂, AList.lookup_insert, Option.some.injEq] at h₂
    exact absurd h₂.symm (Nat.ne_of_lt (hnew hk₁ h₁))
  · rw [AList.lookup_insert_ne hk₁] at h₁
    rw [AList.lookup_insert_ne hk₂] at h₂
    exact m.key_unique h₁ h₂

/-- A cell is made, and entered for the key unless there is one: the address of the one in the table then. -/
def putIfAbsent (m : Interned κ α) (k : κ) (a : α) : Interned κ α × ℕ :=
  match m.table.lookup k with
  | some i =>
    ({ m with
       cells := m.cells ++ [a]
       lt_length := fun h => by rw [List.length_append]; exact Nat.lt_add_right _ (m.lt_length h) }, i)
  | none =>
    (⟨m.cells ++ [a], m.table.insert k m.cells.length, fun h => by rw [List.length_append]; exact m.lt_length_insert h, m.key_unique_insert⟩,
      m.cells.length)

/-- A cell is changed. -/
def modify (m : Interned κ α) (i : ℕ) (f : α → α) : Interned κ α where
  cells := m.cells.modify i f
  table := m.table
  lt_length h := by
    rw [List.length_modify]
    exact m.lt_length h
  key_unique := m.key_unique

/-- The keys of the table, with what is in their cells. -/
def entries (m : Interned κ α) : List (κ × α) := m.table.entries.filterMap fun e => m.cells[e.2]?.map fun a => (e.1, a)

variable {m : Interned κ α} {k k' : κ} {i : ℕ} {a : α}

@[simp] theorem address_empty (k : κ) : (empty : Interned κ α).address k = none := rfl

@[simp] theorem find_empty (k : κ) : (empty : Interned κ α).find k = none := rfl

theorem cells_of_address (h : m.address k = some i) : ∃ a, m.cells[i]? = some a :=
  ⟨_, List.getElem?_eq_getElem (m.lt_length h)⟩

theorem find_of_address (h : m.address k = some i) : m.find k = m.cells[i]? := by
  rw [find, h, Option.bind_some]

theorem find_eq_none_iff : m.find k = none ↔ m.address k = none := by
  constructor
  · intro h
    cases ha : m.address k with
    | none => rfl
    | some i =>
      obtain ⟨a, hi⟩ := cells_of_address ha
      rw [find_of_address ha, hi] at h
      cases h
  · intro h
    rw [find, h, Option.bind_none]

/-- Who enters a cell holds the one in the table. -/
theorem address_putIfAbsent_self (m : Interned κ α) (k : κ) (a : α) : (m.putIfAbsent k a).1.address k = some (m.putIfAbsent k a).2 := by
  rw [putIfAbsent]
  split
  · next i h => exact h
  · exact AList.lookup_insert _

/-- The cell of a key stays the same. -/
theorem address_putIfAbsent (h : m.address k' = some i) : (m.putIfAbsent k a).1.address k' = some i := by
  rw [putIfAbsent]
  split
  · exact h
  · next hk =>
    have hne : k' ≠ k := fun heq => by
      rw [address, heq, hk] at h
      cases h
    exact (AList.lookup_insert_ne hne).trans h

theorem cells_putIfAbsent (h : m.cells[i]? = some a) {b : α} : (m.putIfAbsent k b).1.cells[i]? = some a := by
  have hcells : (m.putIfAbsent k b).1.cells = m.cells ++ [b] := by
    rw [putIfAbsent]
    split <;> rfl
  rw [hcells, List.getElem?_append_left (List.getElem?_eq_some_iff.mp h).1, h]

/-- **Entering** makes a value for the key if there was none, and changes no other. -/
theorem find_putIfAbsent (m : Interned κ α) (k k' : κ) (a : α) :
    (m.putIfAbsent k a).1.find k' = if k' = k then some ((m.find k).getD a) else m.find k' := by
  -- what is there is left alone
  have hold : ∀ {k' i}, m.address k' = some i → (m.putIfAbsent k a).1.find k' = m.find k' := by
    intro k' i h
    obtain ⟨b, hb⟩ := cells_of_address h
    rw [find_of_address (address_putIfAbsent h), find_of_address h, hb, cells_putIfAbsent hb]
  cases hk' : m.address k' with
  | some i =>
    rw [hold hk']
    split_ifs with heq
    · obtain ⟨b, hb⟩ := cells_of_address hk'
      rw [← heq, find_of_address hk', hb]
      rfl
    · rfl
  | none =>
    rw [find_eq_none_iff.mpr hk']
    split_ifs with heq
    · subst heq
      rw [find_eq_none_iff.mpr hk', Option.getD_none, find, address_putIfAbsent_self, Option.bind_some, putIfAbsent]
      split
      · next i h => cases hk'.symm.trans h
      · exact List.getElem?_concat_length
    · rw [find_eq_none_iff, putIfAbsent]
      split
      · exact hk'
      · exact (AList.lookup_insert_ne heq).trans hk'

@[simp] theorem address_modify (m : Interned κ α) (i : ℕ) (f : α → α) (k : κ) : (m.modify i f).address k = m.address k := rfl

/-- **Changing** the cell that is held for a key changes the value of that key only. -/
theorem find_modify (h : m.address k = some i) (f : α → α) (k' : κ) :
    (m.modify i f).find k' = if k' = k then (m.find k).map f else m.find k' := by
  cases hk' : m.address k' with
  | none =>
    have hne : k' ≠ k := fun heq => by
      rw [← heq, hk'] at h
      cases h
    rw [if_neg hne, find_eq_none_iff.mpr hk', find_eq_none_iff, address_modify, hk']
  | some j =>
    have hget : (m.modify i f).find k' = (m.cells.modify i f)[j]? := find_of_address hk'
    rw [hget, List.getElem?_modify]
    split_ifs with hij hkk hkk
    · rw [find_of_address h, hij]
      rfl
    · rw [← hij] at hk'
      exact absurd (m.key_unique hk' h) hkk
    · rw [hkk] at hk'
      exact absurd (Option.some.inj (h.symm.trans hk')) hij
    · rw [find_of_address hk']
      exact id_map m.cells[j]?

theorem mem_entries_iff : (k, a) ∈ m.entries ↔ m.find k = some a := by
  rw [entries, List.mem_filterMap]
  constructor
  · rintro ⟨⟨k', i⟩, he, hmap⟩
    obtain ⟨b, hb, heq⟩ := Option.map_eq_some_iff.mp hmap
    obtain ⟨rfl, rfl⟩ := Prod.mk.inj heq
    have haddr : m.address k' = some i := AList.mem_lookup_iff.mpr he
    rw [find_of_address haddr]
    exact hb
  · intro h
    obtain ⟨i, hi, ha⟩ := Option.bind_eq_some_iff.mp h
    exact ⟨⟨k, i⟩, AList.mem_lookup_iff.mp hi, by rw [ha]; rfl⟩

/-- No key is listed twice. -/
theorem nodup_entries (m : Interned κ α) : (m.entries.map Prod.fst).Nodup := by
  have hsub : (m.entries.map Prod.fst).Sublist m.table.keys := by
    rw [entries, AList.keys, List.keys, List.map_filterMap]
    have hfm : (fun e : (Σ _ : κ, ℕ) => (m.cells[e.2]?.map fun a => (e.1, a)).map Prod.fst) =
        fun e => (m.cells[e.2]?.map fun _ => e.1) := by
      funext e
      rw [Option.map_map]
      rfl
    rw [hfm]
    induction m.table.entries with
    | nil => exact .slnil
    | cons e es ih =>
      rw [List.filterMap_cons, List.map_cons]
      cases m.cells[e.2]? with
      | none => exact .cons _ ih
      | some a => exact .cons_cons _ ih
  exact hsub.nodup m.table.nodupKeys

end Interned

end YcsbIvs.Foundations
