import YcsbIvs.Foundations.Merge
import YcsbIvs.Foundations.Runs
import Mathlib.Order.Lattice
import Mathlib.Data.Int.Order.Basic

/-!
# The sorted merge of the VoltDB binding

A scan of all partitions gives a table of each, sorted by the key. `VoltDBTableSortedMergeWrangler`
merges them: it takes the row with the least key off the tables until there are as many as are
wanted (`getSortedTable`). Of rows with the same key it takes the one of the last table. It
remembers what it selected last, and throws if what it selects next is less.

A table has a cursor, its active row: `-1` before the first row, and the number of rows after
the last. `value` is the value of the column the tables are sorted by; a row whose value cannot be
compared has none.

**The merge is right** (`getSortedTable_spec`): of sorted tables it returns the first rows of a sorted
merge; of tables that are not sorted it may throw, and when it returns, the rows it has taken of
each table were sorted.
-/

namespace YcsbIvs.VoltDB

open YcsbIvs.Foundations

variable {ρ α : Type} [LinearOrder α]

/-- What a merge throws. -/
inductive MergeError where
  /-- `ClientResponseIsBadException`, for response number `i`. -/
  | clientResponseIsBad (i : ℕ)
  /-- `IncomingVoltTablesNeedToBeSortedException`. -/
  | needsToBeSorted
  /-- `NeedsToBeComparableException`. -/
  | needsToBeComparable
  /-- There is no row where the cursor is. -/
  | noActiveRow
  /-- `ArrayIndexOutOfBoundsException`: there is no response. -/
  | indexOutOfBounds
  deriving DecidableEq, Repr

/-! ### Tables -/

/-- `VoltTable`: rows, and a cursor. -/
structure VoltTable (ρ : Type) where
  /-- The rows. -/
  rows : List ρ
  /-- The cursor. -/
  activeRowIndex : ℤ

namespace VoltTable

/-- `resetRowPosition()`. -/
def resetRowPosition (t : VoltTable ρ) : VoltTable ρ := { t with activeRowIndex := -1 }

/-- `advanceRow()`: past the last row the cursor stays at the number of rows. -/
def advanceRow (t : VoltTable ρ) : VoltTable ρ := { t with activeRowIndex := min (t.activeRowIndex + 1) t.rows.length }

/-- Whether the cursor is at a row. -/
def isActive (t : VoltTable ρ) : Bool := -1 < t.activeRowIndex && t.activeRowIndex < t.rows.length

/-- `cloneRow()`: the row at the cursor. -/
def cloneRow (t : VoltTable ρ) : Except MergeError ρ :=
  if t.activeRowIndex < 0 then .error .noActiveRow
  else match t.rows[t.activeRowIndex.toNat]? with
    | some r => .ok r
    | none => .error .noActiveRow

end VoltTable

/-- A response of one partition. -/
structure Response (ρ : Type) where
  /-- Its status is `SUCCESS`. -/
  success : Bool
  /-- Its table. -/
  table : VoltTable ρ

variable (value : ρ → Option α)

/-- `getComparable(theTable, columnId)`. -/
def getComparable (t : VoltTable ρ) : Except MergeError α := do
  let r ← t.cloneRow
  match value r with
  | some v => .ok v
  | none => .error .needsToBeComparable

/-- The loop of `getLowestId`: `lowestId` and `lowestObservedValue`, if there are any. -/
def lowestLoop : List (VoltTable ρ) → ℕ → Option (ℕ × α) → Except MergeError (Option (ℕ × α))
  | [], _, lowest => .ok lowest
  | t :: tables, i, lowest =>
    if t.isActive then
      match lowest with
      | none => do
        let lowestObservedValue ← getComparable value t
        lowestLoop tables (i + 1) (some (i, lowestObservedValue))
      | some (lowestId, lowestObservedValue) => do
        let newObservedValue ← getComparable value t
        if newObservedValue ≤ lowestObservedValue then lowestLoop tables (i + 1) (some (i, newObservedValue))
        else lowestLoop tables (i + 1) (some (lowestId, lowestObservedValue))
    else lowestLoop tables (i + 1) lowest

/-- `getLowestId(columnid)`: the number of the table with the least value, and what was selected last, after it. -/
def getLowestId (tables : List (VoltTable ρ)) (whatWeSelectedLastTime : Option α) :
    Except MergeError (Option ℕ × Option α) := do
  match ← lowestLoop value tables 0 none with
  | none => .ok (none, whatWeSelectedLastTime)
  | some (lowestId, latestItemWeSelected) =>
    match whatWeSelectedLastTime with
    | none => .ok (some lowestId, some latestItemWeSelected)
    | some last =>
      if latestItemWeSelected < last then .error .needsToBeSorted
      else .ok (some lowestId, some latestItemWeSelected)

/-- The loop of `getSortedTable`, for `n` more rows: the output, and the tables after it. -/
def mergeRows : ℕ → List (VoltTable ρ) → Option ℕ → Option α → List ρ → Except MergeError (List ρ × List (VoltTable ρ))
  | 0, tables, _, _, outputTable => .ok (outputTable, tables)
  | _ + 1, tables, none, _, outputTable => .ok (outputTable, tables)
  | n + 1, tables, some lowestId, last, outputTable =>
    match tables[lowestId]? with
    | none => .error .indexOutOfBounds
    | some lowestTable => do
      let row ← lowestTable.cloneRow
      let tables := tables.set lowestId lowestTable.advanceRow
      let (lowestId, last) ← getLowestId value tables last
      mergeRows n tables lowestId last (outputTable ++ [row])

omit [LinearOrder α] in
/-- The loop of `getSortedTable` that makes the tables ready. -/
def readyTables : ℕ → List (Response ρ) → Except MergeError (List (VoltTable ρ))
  | _, [] => .ok []
  | i, r :: responses =>
    if r.success then do
      let tables ← readyTables (i + 1) responses
      .ok (r.table.resetRowPosition.advanceRow :: tables)
    else .error (.clientResponseIsBad i)

/-- `getSortedTable(columnid, limit)`: the output, and the tables after it. -/
def getSortedTable (responses : List (Response ρ)) (limit : ℤ) : Except MergeError (List ρ × List (VoltTable ρ)) :=
  if responses = [] then .error .indexOutOfBounds
  else do
    let tables ← readyTables 0 responses
    let (lowestId, last) ← getLowestId value tables none
    mergeRows value limit.toNat tables lowestId last []

/-! ### Cursors -/

namespace VoltTable

variable {t : VoltTable ρ} {r : ρ} {l : List ρ}

/-- The rows the cursor has not passed. -/
def remaining (t : VoltTable ρ) : List ρ := t.rows.drop t.activeRowIndex.toNat

/-- The rows the cursor has passed. -/
def consumed (t : VoltTable ρ) : List ρ := t.rows.take t.activeRowIndex.toNat

/-- The cursor is at a row or after the last. -/
def Ready (t : VoltTable ρ) : Prop := 0 ≤ t.activeRowIndex ∧ t.activeRowIndex ≤ t.rows.length

theorem isActive_eq (h : t.Ready) : t.isActive = !t.remaining.isEmpty := by
  obtain ⟨h₀, h₁⟩ := h
  have hempty : t.remaining = [] ↔ (t.rows.length : ℤ) ≤ t.activeRowIndex := by
    rw [remaining, List.drop_eq_nil_iff]
    omega
  rw [Bool.eq_iff_iff]
  simp only [isActive, Bool.and_eq_true, decide_eq_true_eq, Bool.not_eq_true', List.isEmpty_eq_false_iff, ne_eq, hempty]
  omega

/-- The cursor is at the first of the remaining rows. -/
theorem getElem_active (h : t.remaining = r :: l) : t.rows[t.activeRowIndex.toNat]? = some r := by
  rw [← List.head?_drop, ← remaining, h]
  rfl

theorem cloneRow_eq (hr : t.Ready) (h : t.remaining = r :: l) : t.cloneRow = .ok r := by
  rw [cloneRow, if_neg (not_lt.mpr hr.1), getElem_active h]

theorem mem_rows (h : r ∈ t.remaining) : r ∈ t.rows := List.mem_of_mem_drop h

/-- `advanceRow()` passes one row. -/
theorem advanceRow_ready (hr : t.Ready) (h : t.remaining = r :: l) :
    t.advanceRow.Ready ∧ t.advanceRow.remaining = l ∧ t.advanceRow.rows = t.rows := by
  obtain ⟨hlt, -⟩ := List.getElem?_eq_some_iff.mp (getElem_active h)
  obtain ⟨h₀, h₁⟩ := hr
  have hidx : t.advanceRow.activeRowIndex = t.activeRowIndex + 1 := by
    simp only [advanceRow]
    omega
  have hnat : t.advanceRow.activeRowIndex.toNat = t.activeRowIndex.toNat + 1 := by omega
  refine ⟨⟨by omega, ?_⟩, ?_, rfl⟩
  · change t.advanceRow.activeRowIndex ≤ t.rows.length
    omega
  · change t.rows.drop t.advanceRow.activeRowIndex.toNat = l
    rw [hnat, ← List.tail_drop, ← remaining, h]
    rfl

/-- A table made ready has all its rows before it. -/
theorem ready_reset (t : VoltTable ρ) :
    t.resetRowPosition.advanceRow.Ready ∧ t.resetRowPosition.advanceRow.remaining = t.rows := by
  have hidx : t.resetRowPosition.advanceRow.activeRowIndex = 0 := by
    simp only [resetRowPosition, advanceRow]
    omega
  refine ⟨⟨by omega, ?_⟩, ?_⟩
  · rw [hidx]
    exact Int.natCast_nonneg _
  · rw [remaining, hidx]
    rfl

end VoltTable

/-! ### The least head -/

/-- The rows are in the order of the values they have. -/
def Sorted (rows : List ρ) : Prop := rows.Pairwise fun r r' => ∀ v v', value r = some v → value r' = some v' → v ≤ v'

/-- What is selected of the tables: nothing if they are exhausted, else a head with the least value. -/
def Selects (tables : List (VoltTable ρ)) : Option (ℕ × α) → Prop
  | none => ∀ t ∈ tables, t.remaining = []
  | some (i, v) =>
    (∃ t r l, tables[i]? = some t ∧ t.remaining = r :: l ∧ value r = some v) ∧
      ∀ t ∈ tables, ∀ r l, t.remaining = r :: l → ∃ v', value r = some v' ∧ v ≤ v'

variable {value}

omit [LinearOrder α] in
theorem getComparable_eq {t : VoltTable ρ} {r : ρ} {l : List ρ} {v : α} (hr : t.Ready) (h : t.remaining = r :: l)
    (hv : value r = some v) : getComparable value t = .ok v := by
  rw [getComparable, bind_ok (VoltTable.cloneRow_eq hr h)]
  simp only [hv]

section Selects

variable {tables : List (VoltTable ρ)} {t : VoltTable ρ} {r : ρ} {l : List ρ} {v w : α} {i : ℕ}

/-- A table whose head is not less than what is selected changes nothing. -/
theorem Selects.append (h : Selects value tables (some (i, w))) (hhead : ∀ r l, t.remaining = r :: l → ∃ v, value r = some v ∧ w ≤ v) :
    Selects value (tables ++ [t]) (some (i, w)) := by
  obtain ⟨⟨t₀, r₀, l₀, hget, hrem, hval⟩, hle⟩ := h
  refine ⟨⟨t₀, r₀, l₀, ?_, hrem, hval⟩, fun t' ht' r' l' hrem' => ?_⟩
  · rw [List.getElem?_append_left (List.getElem?_eq_some_iff.mp hget).1, hget]
  · rcases List.mem_append.mp ht' with hmem | hmem
    · exact hle t' hmem r' l' hrem'
    · rw [List.mem_singleton.mp hmem] at hrem'
      exact hhead r' l' hrem'

/-- Nor does an exhausted table. -/
theorem Selects.skip {lowest : Option (ℕ × α)} (h : Selects value tables lowest) (ht : t.remaining = []) :
    Selects value (tables ++ [t]) lowest := by
  cases lowest with
  | none =>
    intro t' ht'
    rcases List.mem_append.mp ht' with hmem | hmem
    · exact h t' hmem
    · rw [List.mem_singleton.mp hmem, ht]
  | some p =>
    refine h.append fun r l hrem => ?_
    rw [ht] at hrem
    cases hrem

/-- A table with a head that is not greater than the heads before is selected. -/
theorem Selects.take (ht : t.remaining = r :: l) (hv : value r = some v)
    (hle : ∀ t' ∈ tables, ∀ r' l', t'.remaining = r' :: l' → ∃ v', value r' = some v' ∧ v ≤ v') :
    Selects value (tables ++ [t]) (some (tables.length, v)) := by
  refine ⟨⟨t, r, l, by simp, ht, hv⟩, fun t' ht' r' l' hrem' => ?_⟩
  rcases List.mem_append.mp ht' with hmem | hmem
  · exact hle t' hmem r' l' hrem'
  · rw [List.mem_singleton.mp hmem, ht] at hrem'
    obtain ⟨rfl, rfl⟩ := List.cons.inj hrem'
    exact ⟨v, hv, le_rfl⟩

/-- A table with a greater head is not. -/
theorem Selects.keep (h : Selects value tables (some (i, w))) (ht : t.remaining = r :: l) (hv : value r = some v) (hwv : w ≤ v) :
    Selects value (tables ++ [t]) (some (i, w)) := by
  refine h.append fun r' l' hrem' => ?_
  rw [ht] at hrem'
  obtain ⟨rfl, rfl⟩ := List.cons.inj hrem'
  exact ⟨v, hv, hwv⟩

end Selects

/-- The tables can be read, and have values to compare. -/
structure Readable (value : ρ → Option α) (tables : List (VoltTable ρ)) : Prop where
  /-- Each cursor is at a row or after the last. -/
  ready : ∀ t ∈ tables, t.Ready
  /-- Each row has a value. -/
  comparable : ∀ t ∈ tables, ∀ r ∈ t.rows, ∃ v, value r = some v

/-- The loop over the tables, if each head has a value. -/
theorem lowestLoop_selects (tables : List (VoltTable ρ)) (before : List (VoltTable ρ)) (lowest : Option (ℕ × α))
    (hread : Readable value tables) (h : Selects value before lowest) :
    ∃ o, lowestLoop value tables before.length lowest = .ok o ∧ Selects value (before ++ tables) o := by
  induction tables generalizing before lowest with
  | nil => exact ⟨lowest, rfl, by simpa using h⟩
  | cons t tables ih =>
    have hrest := ih (before ++ [t])
    simp only [List.length_append, List.length_singleton, List.append_assoc, List.singleton_append] at hrest
    replace hrest := fun lowest => hrest lowest ⟨fun t' ht' => hread.ready t' (List.mem_cons_of_mem _ ht'),
      fun t' ht' => hread.comparable t' (List.mem_cons_of_mem _ ht')⟩
    have htready := hread.ready t List.mem_cons_self
    unfold lowestLoop
    rw [VoltTable.isActive_eq htready]
    cases hrem : t.remaining with
    | nil =>
      rw [if_neg (by simp)]
      exact hrest lowest (h.skip hrem)
    | cons r l =>
      obtain ⟨v, hv⟩ := hread.comparable t List.mem_cons_self r (VoltTable.mem_rows (by simp [hrem]))
      have hcomp := getComparable_eq htready hrem hv
      rw [if_pos (by simp)]
      cases lowest with
      | none =>
        -- The heads before are none.
        dsimp only
        rw [bind_ok hcomp]
        refine hrest _ (Selects.take hrem hv fun t' ht' r' l' hrem' => ?_)
        rw [h t' ht'] at hrem'
        cases hrem'
      | some p =>
        obtain ⟨i, w⟩ := p
        dsimp only
        rw [bind_ok hcomp]
        by_cases hvw : v ≤ w
        · rw [if_pos hvw]
          refine hrest _ (Selects.take hrem hv fun t' ht' r' l' hrem' => ?_)
          obtain ⟨v', hv', hle⟩ := h.2 t' ht' r' l' hrem'
          exact ⟨v', hv', hvw.trans hle⟩
        · rw [if_neg hvw]
          exact hrest _ (h.keep hrem hv (not_le.mp hvw).le)

/-- What `getLowestId` has selected, and `whatWeSelectedLastTime`, which is its value. -/
def Selected (value : ρ → Option α) (tables : List (VoltTable ρ)) : Option ℕ → Option α → Prop
  | none, _ => Selects value tables none
  | some i, last => ∃ v, last = some v ∧ Selects value tables (some (i, v))

/-- `getLowestId` throws only if a head is less than what was selected last. -/
theorem getLowestId_spec {tables : List (VoltTable ρ)} (hread : Readable value tables) (last : Option α) :
    (getLowestId value tables last = .error .needsToBeSorted ∧
        ∃ w, last = some w ∧ ∃ t ∈ tables, ∃ r l v, t.remaining = r :: l ∧ value r = some v ∧ v < w) ∨
      ∃ lowestId last', getLowestId value tables last = .ok (lowestId, last') ∧ Selected value tables lowestId last' ∧
        ∀ w, last = some w → ∃ v, last' = some v ∧ w ≤ v := by
  obtain ⟨o, ho, hsel⟩ := lowestLoop_selects tables [] none hread (fun _ h => nomatch h)
  rw [List.length_nil] at ho
  rw [List.nil_append] at hsel
  rw [getLowestId, bind_ok ho]
  cases o with
  | none => exact .inr ⟨none, last, rfl, hsel, fun w hw => ⟨w, hw, le_rfl⟩⟩
  | some p =>
    obtain ⟨i, v⟩ := p
    cases last with
    | none => exact .inr ⟨some i, some v, rfl, ⟨v, rfl, hsel⟩, fun w hw => nomatch hw⟩
    | some w =>
      dsimp only
      by_cases hvw : v < w
      · rw [if_pos hvw]
        obtain ⟨t, r, l, hget, hrem, hval⟩ := hsel.1
        exact .inl ⟨rfl, w, rfl, t, List.mem_of_getElem? hget, r, l, v, hrem, hval, hvw⟩
      · rw [if_neg hvw]
        refine .inr ⟨some i, some v, rfl, ⟨v, rfl, hsel⟩, fun w' hw' => ⟨v, rfl, ?_⟩⟩
        rw [← Option.some.inj hw']
        exact not_lt.mp hvw

/-! ### The loop -/

/-- The rows left in each table. -/
def remainders (tables : List (VoltTable ρ)) : List (List ρ) := tables.map VoltTable.remaining

/-- All the rows of each table. -/
def allRows (tables : List (VoltTable ρ)) : List (List ρ) := tables.map VoltTable.rows

section Loop

variable {tables : List (VoltTable ρ)} {last : Option α} {i : ℕ}

/-- **A round**: the head of the selected table is taken, and the next one is selected. -/
theorem mergeRows_round (hread : Readable value tables) (hsel : Selected value tables (some i) last) :
    ∃ v t r l, last = some v ∧ tables[i]? = some t ∧ t.remaining = r :: l ∧ value r = some v ∧
      Selects value tables (some (i, v)) ∧ Readable value (tables.set i t.advanceRow) ∧
      remainders (tables.set i t.advanceRow) = (remainders tables).set i l ∧
      allRows (tables.set i t.advanceRow) = allRows tables ∧
      ∀ n out, mergeRows value (n + 1) tables (some i) last out =
        (getLowestId value (tables.set i t.advanceRow) last >>= fun p =>
          mergeRows value n (tables.set i t.advanceRow) p.1 p.2 (out ++ [r])) := by
  obtain ⟨v, hlast, hsel⟩ := hsel
  obtain ⟨t, r, l, hget, hrem, hval⟩ := hsel.1
  have hmem : t ∈ tables := List.mem_of_getElem? hget
  obtain ⟨hadv, hadvrem, hadvrows⟩ := VoltTable.advanceRow_ready (hread.ready t hmem) hrem
  refine ⟨v, t, r, l, hlast, hget, hrem, hval, hsel, ⟨fun t' ht' => ?_, fun t' ht' => ?_⟩, ?_, ?_, fun n out => ?_⟩
  · rcases List.mem_or_eq_of_mem_set ht' with hmem' | rfl
    · exact hread.ready t' hmem'
    · exact hadv
  · rcases List.mem_or_eq_of_mem_set ht' with hmem' | rfl
    · exact hread.comparable t' hmem'
    · rw [hadvrows]
      exact hread.comparable t hmem
  · rw [remainders, List.map_set, hadvrem, remainders]
  · obtain ⟨hlt, rfl⟩ := List.getElem?_eq_some_iff.mp hget
    rw [allRows, List.map_set, hadvrows, ← List.map_set, List.set_getElem_self hlt, allRows]
  · rw [mergeRows, hget]
    dsimp only
    rw [bind_ok (VoltTable.cloneRow_eq (hread.ready t hmem) hrem)]

/-- The loop throws, or takes rows off the tables in order. -/
theorem mergeRows_takes (n : ℕ) (out : List ρ) {lowestId : Option ℕ} (hread : Readable value tables)
    (hsel : Selected value tables lowestId last) :
    mergeRows value n tables lowestId last out = .error .needsToBeSorted ∨
      ∃ m tables', mergeRows value n tables lowestId last out = .ok (out ++ m, tables') ∧ Readable value tables' ∧
        Takes (remainders tables) m (remainders tables') ∧ allRows tables' = allRows tables ∧ Sorted value m ∧
        ∀ r ∈ m, ∀ v, value r = some v → ∀ w, last = some w → w ≤ v := by
  induction n generalizing tables lowestId last out with
  | zero => exact .inr ⟨[], tables, by simp [mergeRows], hread, .nil _, rfl, .nil, fun r hr => nomatch hr⟩
  | succ n ih =>
    cases lowestId with
    | none => exact .inr ⟨[], tables, by simp [mergeRows], hread, .nil _, rfl, .nil, fun r hr => nomatch hr⟩
    | some i =>
      obtain ⟨v, t, r, l, rfl, hget, hrem, hval, hsel, hread', hremainders, hrows, hround⟩ := mergeRows_round hread hsel
      rw [hround n out]
      rcases getLowestId_spec hread' (some v) with ⟨herr, -⟩ | ⟨lowestId, last', hok, hsel', hlast⟩
      · rw [herr]
        exact .inl rfl
      · obtain ⟨v', rfl, hvv'⟩ := hlast v rfl
        rw [bind_ok hok]
        rcases ih (out ++ [r]) hread' hsel' with herr | ⟨m, tables', hm, hread'', htakes, hrows', hsorted, hge⟩
        · exact .inl herr
        · -- What is taken later is not less than what is selected now.
          have hgev : ∀ r' ∈ m, ∀ u, value r' = some u → v ≤ u := fun r' hr' u hu => hvv'.trans (hge r' hr' u hu v' rfl)
          refine .inr ⟨r :: m, tables', by rw [hm]; simp, hread'', ?_, hrows'.trans hrows, ?_, ?_⟩
          · refine .cons (l := l) ?_ (hremainders ▸ htakes)
            rw [remainders, List.getElem?_map, hget, ← hrem]
            rfl
          · refine List.pairwise_cons.mpr ⟨fun r' hr' u u' hu hu' => ?_, hsorted⟩
            rw [hval] at hu
            exact Option.some.inj hu ▸ hgev r' hr' u' hu'
          · intro r' hr' u hu w hw
            obtain rfl := Option.some.inj hw
            rcases List.mem_cons.mp hr' with rfl | hr'
            · rw [hval] at hu
              exact (Option.some.inj hu).le
            · exact hgev r' hr' u hu

/-- No head is less than what was selected of sorted tables. -/
theorem selects_le {t t' : VoltTable ρ} {r r' : ρ} {l l' : List ρ} {v v' : α} (hget : tables[i]? = some t)
    (hrem : t.remaining = r :: l) (hval : value r = some v) (hsel : Selects value tables (some (i, v)))
    (hread : Readable value tables) (hsorted : ∀ rows ∈ remainders tables, Sorted value rows)
    (ht' : t' ∈ tables.set i t.advanceRow) (hrem' : t'.remaining = r' :: l') (hval' : value r' = some v') : v ≤ v' := by
  have hmem : t ∈ tables := List.mem_of_getElem? hget
  rcases List.mem_or_eq_of_mem_set ht' with hmem' | rfl
  · obtain ⟨u, hu, hle⟩ := hsel.2 t' hmem' r' l' hrem'
    rw [hval'] at hu
    exact (Option.some.inj hu) ▸ hle
  · -- The next row of the same table.
    obtain ⟨-, hadvrem, -⟩ := VoltTable.advanceRow_ready (hread.ready t hmem) hrem
    have hpair := hsorted t.remaining (List.mem_map_of_mem hmem)
    rw [hrem, ← hadvrem, hrem'] at hpair
    exact List.rel_of_pairwise_cons hpair List.mem_cons_self v v' hval hval'

/-- Of sorted tables the loop returns the first rows of a merge. -/
theorem mergeRows_merge {lowestId : Option ℕ} (hread : Readable value tables)
    (hsorted : ∀ rows ∈ remainders tables, Sorted value rows) (hsel : Selected value tables lowestId last) :
    ∃ m, IsMerge (remainders tables) m ∧
      ∀ n out, ∃ tables', mergeRows value n tables lowestId last out = .ok (out ++ m.take n, tables') := by
  -- By induction on the number of rows that are left.
  induction hk : (remainders tables).flatten.length using Nat.strong_induction_on generalizing tables lowestId last with
  | _ k ih =>
    cases lowestId with
    | none =>
      refine ⟨[], IsMerge.nil fun l hl => ?_, fun n out => ⟨tables, ?_⟩⟩
      · obtain ⟨t, ht, rfl⟩ := List.mem_map.mp hl
        exact hsel t ht
      · cases n <;> simp [mergeRows]
    | some i =>
      obtain ⟨v, t, r, l, rfl, hget, hrem, hval, hsel, hread', hremainders, -, hround⟩ := mergeRows_round hread hsel
      have hi : (remainders tables)[i]? = some (r :: l) := by
        rw [remainders, List.getElem?_map, hget, ← hrem]
        rfl
      have hsorted' : ∀ rows ∈ remainders (tables.set i t.advanceRow), Sorted value rows := by
        intro rows hrows
        rw [hremainders] at hrows
        rcases List.mem_or_eq_of_mem_set hrows with hmem | rfl
        · exact hsorted rows hmem
        · exact (List.pairwise_cons.mp (hsorted _ (List.mem_of_getElem? hi))).2
      rcases getLowestId_spec hread' (some v) with ⟨-, w, hw, t', ht', r', l', v', hrem', hval', hlt⟩ | ⟨lowestId, last', hok, hsel', -⟩
      · obtain rfl := Option.some.inj hw
        exact absurd (selects_le hget hrem hval hsel hread hsorted ht' hrem' hval') (not_le.mpr hlt)
      · have hless : (remainders (tables.set i t.advanceRow)).flatten.length < k := by
          have hperm := (perm_flatten_set hi).length_eq
          rw [List.length_cons] at hperm
          rw [hremainders]
          omega
        obtain ⟨m, hmerge, hrows⟩ := ih _ hless hread' hsorted' hsel' rfl
        rw [hremainders] at hmerge
        refine ⟨r :: m, hmerge.cons hi, fun n out => ?_⟩
        cases n with
        | zero => exact ⟨tables, by simp [mergeRows]⟩
        | succ n =>
          obtain ⟨tables', htables'⟩ := hrows n (out ++ [r])
          refine ⟨tables', ?_⟩
          rw [hround n out, bind_ok hok, htables']
          simp

end Loop

/-! ### The merge -/

omit [LinearOrder α] in
theorem readyTables_eq (responses : List (Response ρ)) (i : ℕ) (hsuccess : ∀ x ∈ responses, x.success) :
    readyTables i responses = .ok (responses.map fun x => x.table.resetRowPosition.advanceRow) := by
  induction responses generalizing i with
  | nil => rfl
  | cons x responses ih =>
    rw [readyTables, if_pos (hsuccess x List.mem_cons_self),
      bind_ok (ih (i + 1) fun y hy => hsuccess y (List.mem_cons_of_mem _ hy))]
    rfl

/-- The responses that can be merged: there is one, they are successful, and their rows have values to compare. -/
structure Mergeable (value : ρ → Option α) (responses : List (Response ρ)) : Prop where
  /-- There is a response. -/
  nonempty : responses ≠ []
  /-- Each is successful. -/
  success : ∀ x ∈ responses, x.success
  /-- Each row has a value. -/
  comparable : ∀ x ∈ responses, ∀ r ∈ x.table.rows, ∃ v, value r = some v

/-- The tables of the responses. -/
def tableRows (responses : List (Response ρ)) : List (List ρ) := responses.map fun x => x.table.rows

/-- The loop starts with all rows of the tables before the cursors, and a head selected. -/
theorem getSortedTable_start {responses : List (Response ρ)} (h : Mergeable value responses) :
    ∃ tables lowestId last, Readable value tables ∧ Selected value tables lowestId last ∧
      remainders tables = tableRows responses ∧ allRows tables = tableRows responses ∧
      ∀ limit, getSortedTable value responses limit = mergeRows value limit.toNat tables lowestId last [] := by
  have hread : Readable value (responses.map fun x => x.table.resetRowPosition.advanceRow) := by
    refine ⟨fun t ht => ?_, fun t ht => ?_⟩
    · obtain ⟨x, -, rfl⟩ := List.mem_map.mp ht
      exact x.table.ready_reset.1
    · obtain ⟨x, hx, rfl⟩ := List.mem_map.mp ht
      exact h.comparable x hx
  have hremainders : remainders (responses.map fun x => x.table.resetRowPosition.advanceRow) = tableRows responses := by
    rw [remainders, List.map_map]
    exact List.map_congr_left fun x _ => x.table.ready_reset.2
  rcases getLowestId_spec hread none with ⟨-, w, hw, -⟩ | ⟨lowestId, last, hok, hsel, -⟩
  · cases hw
  · refine ⟨_, lowestId, last, hread, hsel, hremainders, List.map_map, fun limit => ?_⟩
    rw [getSortedTable, if_neg h.nonempty, bind_ok (readyTables_eq responses 0 h.success), bind_ok hok]

/-- If what is taken is sorted, what is consumed of each table is. -/
theorem consumed_sorted {tables : List (VoltTable ρ)} {m : List ρ} {t : VoltTable ρ}
    (h : Takes (allRows tables) m (remainders tables)) (hm : Sorted value m) (ht : t ∈ tables) : Sorted value t.consumed := by
  obtain ⟨j, hj⟩ := List.mem_iff_getElem?.mp ht
  have hrows : (allRows tables)[j]? = some t.rows := by rw [allRows, List.getElem?_map, hj]; rfl
  have hrem : (remainders tables)[j]? = some t.remaining := by rw [remainders, List.getElem?_map, hj]; rfl
  obtain ⟨pre, post, heq, hpost, hsub⟩ := h.split hrows
  rw [hrem] at hpost
  obtain rfl := Option.some.inj hpost
  have hcut : t.consumed ++ t.remaining = pre ++ t.remaining := (List.take_append_drop _ _).trans heq
  rw [List.append_cancel_right hcut]
  exact List.Pairwise.sublist hsub hm

/-- **The merge is right**: it throws only that the tables need to be sorted; when it returns, the rows it has
taken of each table are sorted; and of sorted tables it returns the first rows of a sorted merge of all their rows. -/
theorem getSortedTable_spec (value : ρ → Option α) (responses : List (Response ρ)) (limit : ℤ)
    (h : Mergeable value responses) :
    (getSortedTable value responses limit = .error .needsToBeSorted ∨
        ∃ out tables', getSortedTable value responses limit = .ok (out, tables') ∧
          allRows tables' = tableRows responses ∧ ∀ t ∈ tables', Sorted value t.consumed) ∧
      ((∀ x ∈ responses, Sorted value x.table.rows) →
        ∃ merged tables', getSortedTable value responses limit = .ok (merged.take limit.toNat, tables') ∧
          IsMerge (tableRows responses) merged ∧ Sorted value merged) := by
  obtain ⟨tables, lowestId, last, hread, hsel, hremainders, hrows, heq⟩ := getSortedTable_start h
  refine ⟨?_, fun hsorted => ?_⟩
  · rw [heq limit]
    rcases mergeRows_takes limit.toNat [] hread hsel with herr | ⟨m, tables', hm, -, htakes, hrows', hsorted, -⟩
    · exact .inl herr
    · refine .inr ⟨m, tables', hm, hrows'.trans hrows, fun t ht => ?_⟩
      rw [hremainders, ← hrows, ← hrows'] at htakes
      exact consumed_sorted htakes hsorted ht
  · have hsorted' : ∀ rows ∈ remainders tables, Sorted value rows := by
      intro rows hrows
      rw [hremainders] at hrows
      obtain ⟨x, hx, rfl⟩ := List.mem_map.mp hrows
      exact hsorted x hx
    obtain ⟨m, hmerge, hall⟩ := mergeRows_merge hread hsorted' hsel
    obtain ⟨tables', htables'⟩ := hall limit.toNat []
    rw [hremainders] at hmerge
    refine ⟨m, tables', by rw [heq limit, htables', List.nil_append], hmerge, ?_⟩
    -- Without a limit the loop returns all of the merge, and what it returns is sorted.
    obtain ⟨tables₁, htables₁⟩ := hall m.length []
    rcases mergeRows_takes m.length [] hread hsel with herr | ⟨m', tables₂, hm', -, -, -, hsorted₂, -⟩
    · rw [htables₁] at herr
      cases herr
    · rw [htables₁, List.take_length] at hm'
      cases hm'
      exact hsorted₂

/-- Two partitions, of rows that are their own values. -/
def twoPartitions : List (Response ℕ) := [⟨true, ⟨[1, 4], -1⟩⟩, ⟨true, ⟨[1, 2, 7], -1⟩⟩]

theorem getSortedTable_spec_two :
    (getSortedTable some twoPartitions 3 = .error .needsToBeSorted ∨
        ∃ out tables', getSortedTable some twoPartitions 3 = .ok (out, tables') ∧
          allRows tables' = tableRows twoPartitions ∧ ∀ t ∈ tables', Sorted some t.consumed) ∧
      ∃ merged tables', getSortedTable some twoPartitions 3 = .ok (merged.take (3 : ℤ).toNat, tables') ∧
        IsMerge (tableRows twoPartitions) merged ∧ Sorted some merged := by
  have h := getSortedTable_spec some twoPartitions 3 ⟨by simp [twoPartitions], by decide, fun _ _ r _ => ⟨r, rfl⟩⟩
  exact ⟨h.1, h.2 (by simp [twoPartitions, Sorted])⟩

-- Of the two rows with the least value the last table's comes first.
example : (getSortedTable some twoPartitions 3).toOption.map Prod.fst = some [1, 1, 2] := by decide

end YcsbIvs.VoltDB
