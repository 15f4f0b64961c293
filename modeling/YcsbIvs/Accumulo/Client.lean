import YcsbIvs.Core.DB
import YcsbIvs.Foundations.SortedMap

/-!
# The Accumulo binding: scanning

`scan` sets the range from the start key on, and the columns, and lets Accumulo send whole rows. It adds each row to its result before it compares
the rows before that with the limit.

**A scan returns as many rows as are asked for** just if there are no more rows than that (`scansRight_iff_le`); otherwise it returns one
more (`scanLoop_eq`).
-/

namespace YcsbIvs.Accumulo

open YcsbIvs.Foundations YcsbIvs.Core

/-- A column of a row, and its value. -/
structure Column where
  /-- The column family. -/
  family : Bytes
  /-- The column qualifier. -/
  qualifier : Bytes
  /-- The value. -/
  value : Bytes
  deriving DecidableEq

/-- A row: its columns, in order. -/
abbrev Row := List Column

/-- A table: its rows, by row ID. -/
abbrev Table := SortedMap Bytes Row

/-- What a scanner sends of a row: the columns it has been told to fetch, or all of them if it has been told of none. -/
def fetch (colFam : Bytes) (fields : Option (List Utf16)) (row : Row) : Row :=
  if (fields.getD []).isEmpty then row else row.filter fun c => c.family = colFam && ((fields.getD []).map encode).contains c.qualifier

/-- The rows that a scanner sends: those from a row ID on of which there is something to send. -/
def available (colFam : Bytes) (table : Table) (startkey : Utf16) (fields : Option (List Utf16)) : List Row :=
  ((table.seek (encode startkey)).map fun e => fetch colFam fields e.2).filter fun row => !row.isEmpty

/-- `rowData`. -/
def rowData (row : Row) : Values Utf16 :=
  row.foldl (fun rowData c => rowData.insert (decode c.qualifier) (.byteArray (.ofArray c.value))) ∅

/-- The loop over the entries of the scanner, each a row, or nothing if `decodeRow` throws. -/
def scanLoop (recordcount : ℕ) : List (Option Row) → ℕ → List (Values Utf16) → Status × List (Values Utf16)
  | [], _, result => (.ok, result)
  | none :: _, _, result => (.error, result)
  | some row :: entries, count, result =>
    let result := result ++ [rowData row]
    -- `count++ == recordcount`: `count` is compared before the row is counted
    if count = recordcount then (.ok, result) else scanLoop recordcount entries (count + 1) result

/-- `scan(table, startkey, recordcount, fields, result)`; `none` is a table that is not found. -/
def scan (colFam : Bytes) (table : Option Table) (startkey : Utf16) (recordcount : ℕ) (fields : Option (List Utf16)) :
    Status × List (Values Utf16) :=
  match table with
  | none => (.error, [])
  | some table => scanLoop recordcount ((available colFam table startkey fields).map some) 0 []

/-- It returns as many rows as are asked for, if there are so many, from the start key on, and of each its columns. -/
def ScansRight (colFam : Bytes) (table : Table) (startkey : Utf16) (recordcount : ℕ) (fields : Option (List Utf16)) : Prop :=
  (scan colFam (some table) startkey recordcount fields).2 = ((available colFam table startkey fields).take recordcount).map rowData

section

variable {colFam : Bytes} {table : Table} {startkey : Utf16} {recordcount count : ℕ} {fields : Option (List Utf16)} {rows : List Row}

/-- The loop returns one row more than are still to come. -/
theorem scanLoop_eq (h : count ≤ recordcount) (result : List (Values Utf16)) :
    scanLoop recordcount (rows.map some) count result = (.ok, result ++ (rows.take (recordcount - count + 1)).map rowData) := by
  induction rows generalizing count result with
  | nil => simp [scanLoop]
  | cons row rows ih =>
    rw [List.map_cons, scanLoop, List.take_succ_cons, List.map_cons]
    split_ifs with hlast
    · rw [hlast, Nat.sub_self, List.take_zero, List.map_nil]
    · have hleft : recordcount - (count + 1) + 1 = recordcount - count := by omega
      rw [ih (by omega), hleft, List.append_assoc, List.singleton_append]

theorem scan_eq :
    scan colFam (some table) startkey recordcount fields =
      (.ok, ((available colFam table startkey fields).take (recordcount + 1)).map rowData) := by
  rw [scan, scanLoop_eq (Nat.zero_le _), Nat.sub_zero, List.nil_append]

/-- **A scan returns as many rows as are asked for**, just if there are no more rows than that. -/
theorem scansRight_iff_le :
    ScansRight colFam table startkey recordcount fields ↔ (available colFam table startkey fields).length ≤ recordcount := by
  rw [ScansRight, scan_eq]
  constructor
  · intro h
    have hlength := congrArg List.length h
    simp only [List.length_map, List.length_take] at hlength
    omega
  · intro h
    rw [List.take_of_length_le h, List.take_of_length_le (by omega)]

/-- One row is asked for, of two. -/
theorem not_scansRight_rows :
    ¬ ScansRight [] ((SortedMap.empty.put [0x61] [⟨[], [0x66], [0x31]⟩]).put [0x62] [⟨[], [0x66], [0x32]⟩]) [0x61] 1 none := fun h =>
  absurd (congrArg List.length h) (by decide)

end

end YcsbIvs.Accumulo
