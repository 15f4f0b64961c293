import YcsbIvs.Core.DB
import YcsbIvs.Foundations.SortedMap

/-!
# The AsyncHBase binding: scanning

`scan` asks the scanner for one batch of rows after another, until there is none, and adds the rows of each to its result. When it has as many
as are asked for, it leaves the loop over the rows of a batch, but not the loop over the batches: it asks for the rest of them, and adds the first
row of each.

**A scan returns the first rows, and asks for no batch when it has as many as are asked for, just if there are fewer rows than that**
(`scansRight_iff_fewer`); the rows alone are right just if the batches that are left then are empty (`result_scan_iff`).
-/

namespace YcsbIvs.AsyncHBase

open YcsbIvs.Foundations YcsbIvs.Core

/-- `KeyValue`: a column of a row. -/
structure KeyValue where
  /-- `qualifier()`. -/
  qualifier : Bytes
  /-- `value()`. -/
  value : Bytes
  deriving DecidableEq

/-- A row. -/
abbrev Row := List KeyValue

/-- What `scanner.nextRows().join(joinTimeout)` comes to, before it is `null`. -/
inductive Reply where
  /-- A batch. -/
  | rows (batch : List Row)
  /-- It throws. -/
  | fails

/-- `scan`, in its loops. -/
structure Scan where
  /-- `numResults`. -/
  numResults : ℕ
  /-- `result`. -/
  result : List (Values Utf16)
  /-- What `numResults` was each time a batch was asked for. -/
  asked : List ℕ

/-- `rowResult`. -/
def rowResult (row : Row) : Values Utf16 :=
  row.foldl (fun rowResult column => rowResult.insert (decode column.qualifier) (.byteArray (.ofArray column.value))) ∅

/-- The loop over the rows of a batch. -/
def addRows (recordcount : ℕ) : List Row → Scan → Scan
  | [], s => s
  | row :: rows, s =>
    let s : Scan := { s with numResults := s.numResults + 1, result := s.result ++ [rowResult row] }
    if s.numResults ≥ recordcount then s else addRows recordcount rows s

/-- `scanner.nextRows()`. -/
def Scan.ask (s : Scan) : Scan := { s with asked := s.asked ++ [s.numResults] }

/-- The loop over the batches, and `scanner.close()` after it. -/
def scanLoop (recordcount : ℕ) (closes : Bool) : List Reply → Scan → Status × Scan
  | [], s => (if closes then .ok else .error, s.ask)
  | .fails :: _, s => (.error, s.ask)
  | .rows batch :: replies, s => scanLoop recordcount closes replies (addRows recordcount batch s.ask)

/-- `scan(table, startkey, recordcount, fields, result)`, from what the scanner delivers. -/
def scan (recordcount : ℕ) (closes : Bool) (replies : List Reply) : Status × Scan := scanLoop recordcount closes replies ⟨0, [], []⟩

/-- It returns the first rows, and asks for no batch when it has as many as are asked for. -/
def ScansRight (recordcount : ℕ) (closes : Bool) (batches : List (List Row)) : Prop :=
  let s := (scan recordcount closes (batches.map .rows)).2
  s.result = (batches.flatten.take recordcount).map rowResult ∧ ∀ n ∈ s.asked, n < recordcount

section

variable {recordcount : ℕ} {closes : Bool} {s : Scan} {batch : List Row} {batches : List (List Row)}

/-- How many rows of the next batch are added: as many as are still to come, but one at least. -/
def Scan.room (recordcount : ℕ) (s : Scan) : ℕ := max 1 (recordcount - s.numResults)

theorem addRows_eq (recordcount : ℕ) (batch : List Row) (s : Scan) :
    addRows recordcount batch s = ⟨s.numResults + (batch.take (s.room recordcount)).length,
      s.result ++ (batch.take (s.room recordcount)).map rowResult, s.asked⟩ := by
  induction batch generalizing s with
  | nil => simp [addRows]
  | cons row rows ih =>
    rw [addRows]
    dsimp only
    split_ifs with hlimit
    · have hroom : s.room recordcount = 1 := by unfold Scan.room; omega
      simp [hroom]
    · have hroom : s.room recordcount = Scan.room recordcount ⟨s.numResults + 1, s.result ++ [rowResult row], s.asked⟩ + 1 := by
        simp only [Scan.room]
        omega
      rw [ih, hroom, List.take_succ_cons, List.length_cons, List.map_cons, List.append_assoc, List.singleton_append, Nat.add_assoc,
        Nat.add_comm 1]

/-- A round of the loop over the batches. -/
theorem scanLoop_rows (recordcount : ℕ) (closes : Bool) (batch : List Row) (replies : List Reply) (s : Scan) :
    scanLoop recordcount closes (.rows batch :: replies) s =
      scanLoop recordcount closes replies ⟨s.numResults + (batch.take (s.room recordcount)).length,
        s.result ++ (batch.take (s.room recordcount)).map rowResult, s.asked ++ [s.numResults]⟩ := by
  rw [scanLoop, addRows_eq]
  rfl

/-! ### What is asked for -/

/-- If there are fewer rows than are asked for, all of them are added, and it has fewer each time it asks for a batch. -/
theorem scanLoop_below (h : s.numResults + batches.flatten.length < recordcount) (hasked : ∀ n ∈ s.asked, n < recordcount) :
    (scanLoop recordcount closes (batches.map .rows) s).2.result = s.result ++ batches.flatten.map rowResult ∧
      ∀ n ∈ (scanLoop recordcount closes (batches.map .rows) s).2.asked, n < recordcount := by
  induction batches generalizing s with
  | nil => exact ⟨(List.append_nil _).symm, List.forall_mem_append.mpr ⟨hasked, List.forall_mem_singleton.mpr (by simpa using h)⟩⟩
  | cons batch batches ih =>
    rw [List.flatten_cons, List.length_append] at h
    have hall : batch.take (s.room recordcount) = batch := List.take_of_length_le (by unfold Scan.room; omega)
    have hask : ∀ n ∈ s.asked ++ [s.numResults], n < recordcount :=
      List.forall_mem_append.mpr ⟨hasked, List.forall_mem_singleton.mpr (by omega)⟩
    rw [List.map_cons, scanLoop_rows, hall]
    obtain ⟨hresult, hbelow⟩ := ih (s := ⟨s.numResults + batch.length, s.result ++ batch.map rowResult, s.asked ++ [s.numResults]⟩)
      (by simp only; omega) hask
    refine ⟨?_, hbelow⟩
    rw [hresult, List.flatten_cons, List.map_append, List.append_assoc]

/-- Otherwise it has as many as are asked for, when it asks for a batch at the end. -/
theorem exists_asked (h : recordcount ≤ s.numResults + batches.flatten.length) :
    ∃ n ∈ (scanLoop recordcount closes (batches.map .rows) s).2.asked, recordcount ≤ n := by
  induction batches generalizing s with
  | nil => exact ⟨s.numResults, List.mem_append_right _ (List.mem_singleton_self _), by simpa using h⟩
  | cons batch batches ih =>
    rw [List.map_cons, scanLoop_rows]
    rw [List.flatten_cons, List.length_append] at h
    refine ih ?_
    simp only [List.length_take, Scan.room]
    omega

/-- **A scan returns the first rows, and asks for no batch when it has as many as are asked for**, just if there are fewer rows than that. -/
theorem scansRight_iff_fewer : ScansRight recordcount closes batches ↔ batches.flatten.length < recordcount := by
  constructor
  · rintro ⟨-, hasked⟩
    by_contra hle
    have hge : recordcount ≤ 0 + batches.flatten.length := by omega
    obtain ⟨n, hn, hn'⟩ : ∃ n ∈ (scan recordcount closes (batches.map .rows)).2.asked, recordcount ≤ n := exists_asked hge
    exact absurd (hasked n hn) (not_lt.mpr hn')
  · intro hlt
    have hbelow : 0 + batches.flatten.length < recordcount := by omega
    rw [ScansRight, List.take_of_length_le hlt.le]
    exact scanLoop_below hbelow fun n hn => absurd hn List.not_mem_nil

/-! ### What is returned -/

/-- Rows that have been added stay. -/
theorem length_scanLoop_ge (recordcount : ℕ) (closes : Bool) (batches : List (List Row)) (s : Scan) :
    s.result.length ≤ (scanLoop recordcount closes (batches.map .rows) s).2.result.length := by
  induction batches generalizing s with
  | nil => exact le_rfl
  | cons batch batches ih =>
    rw [List.map_cons, scanLoop_rows]
    refine le_trans ?_ (ih _)
    rw [List.length_append]
    omega

/-- A batch that is not empty adds a row, however many there are. -/
theorem length_scanLoop_gt (recordcount : ℕ) (closes : Bool) (row : Row) (rows : List Row) (batches : List (List Row)) (s : Scan) :
    s.result.length < (scanLoop recordcount closes (((row :: rows) :: batches).map .rows) s).2.result.length := by
  rw [List.map_cons, scanLoop_rows]
  refine lt_of_lt_of_le ?_ (length_scanLoop_ge _ _ _ _)
  simp only [List.length_append, List.length_map, List.length_take, List.length_cons, Scan.room]
  omega

/-- The rows returned are the first ones just if the batches after those with as many as are asked for are empty. -/
theorem result_scanLoop_iff (recordcount : ℕ) (closes : Bool) (batches : List (List Row)) (s : Scan) :
    (scanLoop recordcount closes (batches.map .rows) s).2.result =
        s.result ++ (batches.flatten.take (recordcount - s.numResults)).map rowResult ↔
      ∀ pre batch post, batches = pre ++ batch :: post → recordcount ≤ s.numResults + pre.flatten.length → batch = [] := by
  induction batches generalizing s with
  | nil => simp [scanLoop, Scan.ask]
  | cons batch batches ih =>
    rw [forall_splits_cons]
    by_cases hle : recordcount ≤ s.numResults
    · have hnone : recordcount - s.numResults = 0 := by omega
      rw [hnone, List.take_zero, List.map_nil, List.append_nil]
      cases batch with
      | nil =>
        have hrest := ih ⟨s.numResults, s.result, s.asked ++ [s.numResults]⟩
        rw [hnone, List.take_zero, List.map_nil, List.append_nil] at hrest
        rw [List.map_cons, scanLoop_rows]
        simpa using hrest
      | cons row rows =>
        -- its first row is one too many
        refine iff_of_false (fun h => ?_) fun h => ?_
        · exact absurd (congrArg List.length h) (length_scanLoop_gt recordcount closes row rows batches s).ne'
        · exact absurd (h.1 (by simpa using hle)) (List.cons_ne_nil _ _)
    · have hroom : s.room recordcount = recordcount - s.numResults := by unfold Scan.room; omega
      have hrest := ih ⟨s.numResults + (batch.take (recordcount - s.numResults)).length,
        s.result ++ (batch.take (recordcount - s.numResults)).map rowResult, s.asked ++ [s.numResults]⟩
      rw [List.length_take] at hrest
      have hleft : recordcount - s.numResults - batch.length =
          recordcount - (s.numResults + min (recordcount - s.numResults) batch.length) := by omega
      rw [List.map_cons, scanLoop_rows, List.flatten_cons, hroom, List.take_append, List.map_append, ← List.append_assoc, hleft, List.length_take,
        hrest]
      constructor
      · intro h
        refine ⟨fun hfirst => absurd (by simpa using hfirst) hle, fun pre x post hl hfull => h pre x post hl ?_⟩
        rw [List.flatten_cons, List.length_append] at hfull
        dsimp only
        omega
      · rintro ⟨-, h⟩ pre x post hl hfull
        refine h pre x post hl ?_
        rw [List.flatten_cons, List.length_append]
        dsimp only at hfull
        omega

/-- **The rows of a scan are the first**, just if the batches after those with as many as are asked for are empty. -/
theorem result_scan_iff :
    (scan recordcount closes (batches.map .rows)).2.result = (batches.flatten.take recordcount).map rowResult ↔
      ∀ pre batch post, batches = pre ++ batch :: post → recordcount ≤ pre.flatten.length → batch = [] := by
  have h := result_scanLoop_iff recordcount closes batches ⟨0, [], []⟩
  simp only [Nat.zero_add, Nat.sub_zero, List.nil_append] at h
  exact h

/-- A row for each of two batches: the second is asked for, and its row is returned. -/
theorem not_scansRight_batches : ¬ ScansRight 1 true [[[⟨[0x61], [0x31]⟩]], [[⟨[0x61], [0x32]⟩]]] := fun h => by
  have hlength := congrArg List.length h.1
  exact absurd hlength (by decide)

end

end YcsbIvs.AsyncHBase
