import YcsbIvs.Core.DB
import YcsbIvs.Foundations.SortedMap
import Mathlib.Data.List.Forall2

/-!
# The Kudu binding: scanning

`scan` takes batches of rows from the scanner, and what the scanner has left when it is closed. `addAllRowsToResult` has one map for a batch: it puts the
columns of each row into it, over those of the row before, and adds it to the result again. So the maps of the result are kept by reference here
(`Heap`), and what a caller sees of them is what is in them at the end.

**The maps of a scan hold their own rows** just if rows of one batch, of those that are returned, have the same values in the columns that are
asked for (`ownRows_iff`).
-/

namespace YcsbIvs.Kudu

open YcsbIvs.Foundations YcsbIvs.Core

/-- A row: the string of each column. -/
abbrev Row := Utf16 → Utf16

/-- What `scanner.nextRows()` and `scanner.close()` come to. -/
inductive Reply where
  /-- An iterator over rows, or `null`. -/
  | rows (it : Option (List Row))
  /-- `TimeoutException`. -/
  | timeout
  /-- Another exception. -/
  | fails

/-- What `scan` returns. -/
inductive ScanStatus where
  /-- `OK`. -/
  | ok
  /-- `ERROR`. -/
  | error
  /-- `TIMEOUT`. -/
  | timeout
  deriving DecidableEq

/-- The maps that have been made, and those of them in the result. -/
structure Heap where
  /-- What is in a map. -/
  maps : ℕ → Values Utf16
  /-- The next map. -/
  next : ℕ
  /-- `result`. -/
  result : List ℕ

/-- What a caller sees in the result. -/
def Heap.observed (s : Heap) : List (Values Utf16) := s.result.map s.maps

/-- The loop that puts the columns of a row. `colIdx` is the place of `col` in `querySchema`, by which the scanner knows it. -/
def putRow (querySchema : List Utf16) (rowResult : Values Utf16) (row : Row) : Values Utf16 :=
  querySchema.foldl (fun rowResult col => rowResult.insert col (.string (.ofString (row col)))) rowResult

/-- The loop of `addAllRowsToResult`. -/
def addRows (recordcount : ℤ) (querySchema : List Utf16) (rowResult : ℕ) : List Row → Heap → Heap
  | [], s => s
  | row :: rows, s =>
    if s.result.length = recordcount then s
    else
      addRows recordcount querySchema rowResult rows
        { s with maps := Function.update s.maps rowResult (putRow querySchema (s.maps rowResult) row), result := s.result ++ [rowResult] }

/-- `new HashMap<>(querySchema.size())`. -/
def Heap.alloc (s : Heap) : Heap := { s with maps := Function.update s.maps s.next ∅, next := s.next + 1 }

/-- `addAllRowsToResult(it, recordcount, querySchema, result)`. -/
def addAllRowsToResult (it : Option (List Row)) (recordcount : ℤ) (querySchema : List Utf16) (s : Heap) : Heap :=
  match it with
  | none => s.alloc
  | some rows => addRows recordcount querySchema s.next rows s.alloc

/-- `scanner.close()`, and what comes of it. -/
def scanClose (recordcount : ℤ) (querySchema : List Utf16) (closes : Reply) (s : Heap) : ScanStatus × Heap :=
  match closes with
  | .timeout => (.timeout, s)
  | .fails => (.error, s)
  | .rows closer => (.ok, addAllRowsToResult closer recordcount querySchema s)

/-- The loop while `scanner.hasMoreRows()`. -/
def scanLoop (recordcount : ℤ) (querySchema : List Utf16) (closes : Reply) : List Reply → Heap → ScanStatus × Heap
  | [], s => scanClose recordcount querySchema closes s
  | .timeout :: _, s => (.timeout, s)
  | .fails :: _, s => (.error, s)
  | .rows data :: replies, s =>
    let s := addAllRowsToResult data recordcount querySchema s
    if recordcount = s.result.length then scanClose recordcount querySchema closes s
    else scanLoop recordcount querySchema closes replies s

/-- `scan(table, startkey, recordcount, fields, result)`, from what the scanner delivers. -/
def scan (columnNames : List Utf16) (recordcount : ℤ) (fields : Option (List Utf16)) (replies : List Reply) (closes : Reply) :
    ScanStatus × Heap :=
  scanLoop recordcount (fields.getD columnNames) closes replies ⟨fun _ => ∅, 0, []⟩

/-- The map holds the values of the row in these columns. -/
def Holds (querySchema : List Utf16) (row : Row) (map : Values Utf16) : Prop :=
  ∀ col ∈ querySchema, map.lookup col = some (.string (.ofString (row col)))

/-- Each map that is added to the result holds its own row at the end. -/
def OwnRows (columnNames : List Utf16) (recordcount : ℤ) (fields : Option (List Utf16)) (batches : List (List Row))
    (closer : Option (List Row)) : Prop :=
  ∀ (i : ℕ) (row : Row), i < recordcount → (batches ++ [closer.getD []]).flatten[i]? = some row →
    ∃ map, (scan columnNames recordcount fields (batches.map fun batch => .rows (some batch)) (.rows closer)).2.observed[i]? = some map ∧
      Holds (fields.getD columnNames) row map

/-- The rows have the same values in these columns. -/
def Same (querySchema : List Utf16) (row row' : Row) : Prop := ∀ col ∈ querySchema, row col = row' col

section

variable {columnNames querySchema : List Utf16} {recordcount : ℤ} {fields : Option (List Utf16)} {s : Heap} {batch : List Row}
  {batches : List (List Row)} {closer : Option (List Row)} {n : ℕ}

/-! ### One map -/

theorem lookup_putRow_of_notMem {row : Row} {rowResult : Values Utf16} {col : Utf16} (h : col ∉ querySchema) :
    (putRow querySchema rowResult row).lookup col = rowResult.lookup col := by
  induction querySchema generalizing rowResult with
  | nil => rfl
  | cons c cols ih =>
    rw [List.mem_cons, not_or] at h
    exact (ih h.2).trans (AList.lookup_insert_ne h.1)

/-- What is put last is what the map holds. -/
theorem holds_putRow (querySchema : List Utf16) (rowResult : Values Utf16) (row : Row) :
    Holds querySchema row (putRow querySchema rowResult row) := by
  induction querySchema generalizing rowResult with
  | nil => exact fun col hcol => absurd hcol List.not_mem_nil
  | cons c cols ih =>
    intro col hcol
    by_cases hin : col ∈ cols
    · exact ih _ col hin
    · obtain rfl : col = c := (List.mem_cons.mp hcol).resolve_right hin
      exact (lookup_putRow_of_notMem hin).trans (AList.lookup_insert _)

theorem Holds.same {row row' : Row} {map : Values Utf16} (h : Holds querySchema row map) (h' : Holds querySchema row' map) :
    Same querySchema row row' := fun col hcol => by
  have heq := (h col hcol).symm.trans (h' col hcol)
  simpa [StringByteIterator.ofString] using heq

theorem Holds.congr {row row' : Row} {map : Values Utf16} (h : Holds querySchema row map) (hsame : Same querySchema row row') :
    Holds querySchema row' map := fun col hcol => hsame col hcol ▸ h col hcol

/-! ### A batch -/

/-- Of a batch the rows that are still to come go into one map, and into the result. -/
theorem addRows_eq (h : (s.result.length : ℤ) + n = recordcount) (ref : ℕ) :
    addRows recordcount querySchema ref batch s =
      { s with
        maps := Function.update s.maps ref ((batch.take n).foldl (putRow querySchema) (s.maps ref))
        result := s.result ++ List.replicate (batch.take n).length ref } := by
  induction batch generalizing s n with
  | nil => simp [addRows]
  | cons row rows ih =>
    rw [addRows]
    split_ifs with hfull
    · obtain rfl : n = 0 := by omega
      simp
    · obtain ⟨n, rfl⟩ : ∃ m, n = m + 1 := ⟨n - 1, by omega⟩
      have hleft : ((s.result ++ [ref]).length : ℤ) + n = recordcount := by
        rw [List.length_append, List.length_singleton]
        omega
      rw [ih (s := { s with maps := Function.update s.maps ref (putRow querySchema (s.maps ref) row), result := s.result ++ [ref] }) hleft,
        List.take_succ_cons, List.foldl_cons, List.length_cons, List.replicate_succ]
      simp

/-- The maps of the result have been made. -/
def Heap.Made (s : Heap) : Prop := ∀ ref ∈ s.result, ref < s.next

/-- What `addAllRowsToResult` adds to what a caller sees: one map for all rows. -/
theorem observed_addAllRowsToResult (querySchema : List Utf16) (batch : List Row) (hmade : s.Made) (h : (s.result.length : ℤ) + n = recordcount) :
    (addAllRowsToResult (some batch) recordcount querySchema s).Made ∧
      (addAllRowsToResult (some batch) recordcount querySchema s).result.length = s.result.length + (batch.take n).length ∧
      (addAllRowsToResult (some batch) recordcount querySchema s).observed =
        s.observed ++ List.replicate (batch.take n).length ((batch.take n).foldl (putRow querySchema) ∅) := by
  have hadd : addAllRowsToResult (some batch) recordcount querySchema s =
      { maps := Function.update s.maps s.next ((batch.take n).foldl (putRow querySchema) ∅)
        next := s.next + 1
        result := s.result ++ List.replicate (batch.take n).length s.next } := by
    rw [addAllRowsToResult, addRows_eq (s := s.alloc) h]
    simp [Heap.alloc]
  rw [hadd]
  refine ⟨fun ref href => ?_, by simp, ?_⟩
  · rcases List.mem_append.mp href with href | href
    · exact (hmade ref href).trans (Nat.lt_succ_self _)
    · rw [List.eq_of_mem_replicate href]
      exact Nat.lt_succ_self _
  · rw [Heap.observed, List.map_append, List.map_replicate]
    dsimp only
    rw [Function.update_self]
    congr 1
    refine List.map_congr_left fun ref href => Function.update_of_ne ?_ _ _
    exact (hmade ref href).ne

/-! ### A scan -/

/-- What a caller sees of some batches: for each the same map as often as it has rows, of those that are still to come. -/
def shownMaps (querySchema : List Utf16) : ℕ → List (List Row) → List (Values Utf16)
  | _, [] => []
  | n, batch :: batches =>
    List.replicate (batch.take n).length ((batch.take n).foldl (putRow querySchema) ∅) ++ shownMaps querySchema (n - batch.length) batches

theorem shownMaps_zero (querySchema : List Utf16) (batches : List (List Row)) : shownMaps querySchema 0 batches = [] := by
  induction batches with
  | nil => rfl
  | cons batch batches ih => simpa [shownMaps] using ih

theorem length_shownMaps (querySchema : List Utf16) (n : ℕ) (batches : List (List Row)) :
    (shownMaps querySchema n batches).length = (batches.flatten.take n).length := by
  induction batches generalizing n with
  | nil => simp [shownMaps]
  | cons batch batches ih =>
    rw [shownMaps, List.length_append, List.length_replicate, ih, List.flatten_cons, List.take_append, List.length_append]

/-- What a caller sees of a scan. -/
theorem observed_scanLoop (hmade : s.Made) (h : (s.result.length : ℤ) + n = recordcount) :
    (scanLoop recordcount querySchema (.rows closer) (batches.map fun batch => .rows (some batch)) s).2.observed =
      s.observed ++ shownMaps querySchema n (batches ++ [closer.getD []]) := by
  have hclose : ∀ {s : Heap} {n : ℕ}, s.Made → (s.result.length : ℤ) + n = recordcount →
      (scanClose recordcount querySchema (.rows closer) s).2.observed = s.observed ++ shownMaps querySchema n [closer.getD []] := by
    intro s n hmade h
    have heq : addAllRowsToResult closer recordcount querySchema s = addAllRowsToResult (some (closer.getD [])) recordcount querySchema s := by
      cases closer <;> rfl
    rw [scanClose, heq, (observed_addAllRowsToResult _ _ hmade h).2.2, shownMaps, shownMaps, List.append_nil]
  induction batches generalizing s n with
  | nil => exact hclose hmade h
  | cons batch batches ih =>
    obtain ⟨hmade', hlength, hobserved⟩ := observed_addAllRowsToResult querySchema batch hmade h
    have hleft : ((addAllRowsToResult (some batch) recordcount querySchema s).result.length : ℤ) + (n - batch.length : ℕ) = recordcount := by
      rw [hlength, List.length_take]
      omega
    rw [List.map_cons, scanLoop, List.cons_append, shownMaps, ← List.append_assoc, ← hobserved]
    split_ifs with hfull
    · have hzero : n - batch.length = 0 := by omega
      have hnone : ((addAllRowsToResult (some batch) recordcount querySchema s).result.length : ℤ) + (0 : ℕ) = recordcount := by omega
      rw [hclose hmade' hnone, hzero, shownMaps_zero, shownMaps_zero]
    · exact ih hmade' hleft

/-! ### Own rows -/

/-- Relating two lists is relating their parts. -/
theorem forall₂_append_iff {α β : Type} {R : α → β → Prop} {l₁ l₂ : List α} {m₁ m₂ : List β} (h : l₁.length = m₁.length) :
    List.Forall₂ R (l₁ ++ l₂) (m₁ ++ m₂) ↔ List.Forall₂ R l₁ m₁ ∧ List.Forall₂ R l₂ m₂ := by
  induction l₁ generalizing m₁ with
  | nil =>
    obtain rfl := List.length_eq_zero_iff.mp h.symm
    simp
  | cons a l₁ ih =>
    cases m₁ with
    | nil => cases h
    | cons b m₁ =>
      rw [List.cons_append, List.cons_append, List.forall₂_cons, List.forall₂_cons, ih (Nat.succ.inj h), and_assoc]

theorem forall₂_replicate_iff {α β : Type} {R : α → β → Prop} {l : List α} {b : β} :
    List.Forall₂ R l (List.replicate l.length b) ↔ ∀ a ∈ l, R a b := by
  induction l with
  | nil => simp
  | cons a l ih => rw [List.length_cons, List.replicate_succ, List.forall₂_cons, ih, List.forall_mem_cons]

/-- The elements that are taken of a list are related to those of another just if each of them is. -/
theorem forall₂_take_iff {α β : Type} {R : α → β → Prop} {l : List α} {m : List β} {n : ℕ} (hlength : m.length = (l.take n).length) :
    List.Forall₂ R (l.take n) m ↔ ∀ i a, i < n → l[i]? = some a → ∃ b, m[i]? = some b ∧ R a b := by
  have hmin : m.length = min n l.length := hlength.trans List.length_take
  rw [List.forall₂_iff_get]
  constructor
  · rintro ⟨-, h⟩ i a hi ha
    obtain ⟨hin, rfl⟩ := List.getElem?_eq_some_iff.mp ha
    have hrelated := h i (by rw [List.length_take]; omega) (by omega)
    rw [List.get_eq_getElem, List.getElem_take] at hrelated
    exact ⟨_, List.getElem?_eq_getElem (by omega), hrelated⟩
  · intro h
    refine ⟨hlength.symm, fun i hi hi' => ?_⟩
    rw [List.length_take] at hi
    obtain ⟨b, hb, hrelated⟩ := h i _ (by omega) (List.getElem?_eq_getElem (by omega))
    obtain ⟨_, rfl⟩ := List.getElem?_eq_some_iff.mp hb
    rw [List.get_eq_getElem, List.getElem_take]
    exact hrelated

/-- One map holds all rows of a batch just if they have the same values. -/
theorem holds_batch_iff {rows : List Row} :
    (∀ row ∈ rows, Holds querySchema row (rows.foldl (putRow querySchema) ∅)) ↔ rows.Pairwise (Same querySchema) := by
  constructor
  · intro h
    exact List.pairwise_of_forall_mem_list fun row hrow row' hrow' => (h row hrow).same (h row' hrow')
  · intro h row hrow
    -- it holds the last row
    have hne := List.ne_nil_of_mem hrow
    obtain ⟨init, last, rfl⟩ : ∃ init last, rows = init ++ [last] := ⟨_, _, (List.dropLast_append_getLast hne).symm⟩
    rw [List.foldl_append, List.foldl_cons, List.foldl_nil]
    have hlast := holds_putRow querySchema (init.foldl (putRow querySchema) ∅) last
    rcases List.mem_append.mp hrow with hin | hin
    · have hsame := (List.pairwise_append.mp h).2.2 row hin last (List.mem_singleton_self _)
      exact hlast.congr fun col hcol => (hsame col hcol).symm
    · rwa [List.mem_singleton.mp hin]

/-- So do the maps of all batches just if the rows of each have the same values, of those that are still to come. -/
theorem holds_shownMaps_iff :
    List.Forall₂ (Holds querySchema) (batches.flatten.take n) (shownMaps querySchema n batches) ↔
      ∀ pre batch post, batches = pre ++ batch :: post → (batch.take (n - pre.flatten.length)).Pairwise (Same querySchema) := by
  induction batches generalizing n with
  | nil => simp [shownMaps]
  | cons batch batches ih =>
    rw [forall_splits_cons, List.flatten_cons, List.take_append, shownMaps, forall₂_append_iff List.length_replicate.symm,
      forall₂_replicate_iff, holds_batch_iff, ih, List.flatten_nil, List.length_nil, Nat.sub_zero]
    simp only [List.flatten_cons, List.length_append, Nat.sub_sub]

/-- **The maps of a scan hold their own rows** just if rows of one batch, of those that are returned, have the same values in the
columns that are asked for. -/
theorem ownRows_iff :
    OwnRows columnNames recordcount fields batches closer ↔
      ∀ pre batch post, batches ++ [closer.getD []] = pre ++ batch :: post →
        (batch.take (recordcount - pre.flatten.length).toNat).Pairwise (Same (fields.getD columnNames)) := by
  rcases lt_or_ge recordcount 0 with hneg | hpos
  · have hnone : ∀ m : ℕ, (recordcount - m).toNat = 0 := fun m => by omega
    simp only [hnone, List.take_zero, List.Pairwise.nil, implies_true, iff_true]
    intro i row hi
    omega
  · obtain ⟨n, rfl⟩ := Int.eq_ofNat_of_zero_le hpos
    have htoNat : ∀ m : ℕ, ((n : ℤ) - m).toNat = n - m := fun m => by omega
    have hobserved : (scan columnNames n fields (batches.map fun batch => .rows (some batch)) (.rows closer)).2.observed =
        shownMaps (fields.getD columnNames) n (batches ++ [closer.getD []]) :=
      (observed_scanLoop (fun ref href => absurd href List.not_mem_nil) (by simp)).trans (List.nil_append _)
    simp only [htoNat]
    rw [← holds_shownMaps_iff, forall₂_take_iff (length_shownMaps _ _ _), OwnRows, hobserved]
    simp only [Int.ofNat_lt]

/-- Two rows in one batch: the first map holds the second. -/
theorem not_ownRows_two :
    ¬ OwnRows [[0x66]] 2 none [[fun _ => [0x31], fun _ => [0x32]]] none := fun h => by
  obtain ⟨map, hmap, hholds⟩ := h 0 (fun _ => [0x31]) (by decide) rfl
  have hother : Holds [[0x66]] (fun _ => [0x32]) map := by
    cases hmap
    exact holds_putRow _ _ _
  exact absurd (hholds.same hother [0x66] List.mem_cons_self) (by decide)

end

end YcsbIvs.Kudu
