import YcsbIvs.Foundations.SortedMap
import YcsbIvs.Jdbc.Statements

/-!
# Tables

What is behind a connection of the JDBC binding: tables whose rows are found by the primary key, and the statements that the binding
prepares for them (`Sql`), with the texts that its flavors make (`toText_sql`). A statement finds its parameters by their indices, from 1
on.

A statement that names a column that there is not, or one column twice, or that has not got all its parameters, is refused and changes
nothing, as are an `INSERT` of a key that there is and an `UPDATE` that moves a row to one. `UPSERT` changes the row that there is. Rows are
ordered by the code units of their keys.

The part of a table that has some of the keys does for those what the table does (`insert_part`, `update_part`, `delete_part`), and a scan
of it gives the first of those rows that it has (`scan_part`).
-/

namespace YcsbIvs.Jdbc

open YcsbIvs.Foundations

/-! ### Statements -/

/-- What the texts depend on: the flavor, and what `init` finds in the name of the driver. -/
structure Dialect where
  /-- `dbFlavor`. -/
  dbFlavor : DBFlavor
  /-- `sqlserverScans`. -/
  sqlserverScans : Bool
  /-- `sqlansiScans`. -/
  sqlansiScans : Bool

/-- `createReadStatement(readType, key)`. -/
def createReadStatement (readType : StatementType) : Utf16 :=
  text "SELECT * FROM " ++ readType.tableName ++ text " WHERE " ++ primaryKey ++ text " = " ++ text "?"

/-- `createDeleteStatement(deleteType, key)`. -/
def createDeleteStatement (deleteType : StatementType) : Utf16 :=
  text "DELETE FROM " ++ deleteType.tableName ++ text " WHERE " ++ primaryKey ++ text " = ?"

/-- `createScanStatement(scanType, key, sqlserverScans, sqlansiScans)`. -/
def createScanStatement (scanType : StatementType) (sqlserverScans sqlansiScans : Bool) : Utf16 :=
  (if sqlserverScans then text "SELECT TOP (?) * FROM " else text "SELECT * FROM ") ++ scanType.tableName ++ text " WHERE " ++ primaryKey ++ text " >= ?" ++
    text " ORDER BY " ++ primaryKey ++
    if sqlserverScans then [] else if sqlansiScans then text " FETCH FIRST ? ROWS ONLY" else text " LIMIT ?"

/-- The text that is prepared for a type. -/
def Dialect.createStatement (d : Dialect) (type : StatementType) : Utf16 :=
  match type.type with
  | .insert => d.dbFlavor.createInsertStatement type
  | .update => d.dbFlavor.createUpdateStatement type
  | .read => createReadStatement type
  | .delete => createDeleteStatement type
  | .scan => createScanStatement type d.sqlserverScans d.sqlansiScans

/-- A statement. -/
inductive Sql where
  /-- `INSERT INTO` or `UPSERT INTO` a table: its columns, and how many parameters. -/
  | insert (orUpdate : Bool) (table : Utf16) (columns : List Utf16) (parameters : ℕ)
  /-- `UPDATE` of the row with a key. -/
  | update (table : Utf16) (fields : List Utf16)
  /-- `UPSERT INTO` with the key as the last column. -/
  | upsert (table : Utf16) (fields : List Utf16)
  /-- `SELECT` of the row with a key. -/
  | select (table : Utf16)
  /-- `DELETE` of the row with a key. -/
  | delete (table : Utf16)
  /-- `SELECT` of the first rows from a key on: with `TOP`, and so with the number as the first parameter, or with one of the others. -/
  | scan (top fetchFirst : Bool) (table : Utf16)

/-- Its text. -/
def Sql.toText : Sql → Utf16
  | .insert orUpdate table columns parameters =>
    (if orUpdate then text "UPSERT INTO " else text "INSERT INTO ") ++ table ++ text " (" ++ commas columns ++ text ") VALUES(" ++
      List.intercalate (text ",") (List.replicate parameters (text "?")) ++ text ")"
  | .update table fields =>
    text "UPDATE " ++ table ++ text " SET " ++ List.intercalate (text ", ") (fields.map (· ++ text "=?")) ++ text " WHERE " ++
      primaryKey ++ text " = ?"
  | .upsert table fields =>
    text "UPSERT INTO " ++ table ++ text " (" ++ commas (fields ++ [primaryKey]) ++ text ") VALUES(" ++
      List.intercalate (text ", ") ((fields ++ [primaryKey]).map fun _ => text "?") ++ text ")"
  | .select table => text "SELECT * FROM " ++ table ++ text " WHERE " ++ primaryKey ++ text " = ?"
  | .delete table => text "DELETE FROM " ++ table ++ text " WHERE " ++ primaryKey ++ text " = ?"
  | .scan top fetchFirst table =>
    (if top then text "SELECT TOP (?) * FROM " else text "SELECT * FROM ") ++ table ++ text " WHERE " ++ primaryKey ++ text " >= ?" ++
      text " ORDER BY " ++ primaryKey ++
      if top then [] else if fetchFirst then text " FETCH FIRST ? ROWS ONLY" else text " LIMIT ?"

/-- Whether its inserts are `UPSERT`s. -/
def DBFlavor.upserts : DBFlavor → Bool
  | default => false
  | phoenix => true

/-- The statement that a type says. -/
def Dialect.sql (d : Dialect) (type : StatementType) : Sql :=
  match type.type with
  | .insert => .insert d.dbFlavor.upserts type.tableName (primaryKey :: type.fieldString.splitOn 0x2C) (type.numFields + 1)
  | .update =>
    match d.dbFlavor with
    | .default => .update type.tableName (splitCommas type.fieldString)
    | .phoenix => .upsert type.tableName (splitCommas type.fieldString)
  | .read => .select type.tableName
  | .delete => .delete type.tableName
  | .scan => .scan d.sqlserverScans d.sqlansiScans type.tableName

/-- **The texts** are those of the statements. -/
theorem toText_sql (d : Dialect) (type : StatementType) : (d.sql type).toText = d.createStatement type := by
  obtain ⟨operation, table, numFields, fieldString, shardIndex⟩ := type
  cases operation with
  | insert =>
    have hne : fieldString.splitOn 0x2C ≠ [] := List.splitOn_ne_nil _ _
    have hcolumns : commas (primaryKey :: fieldString.splitOn 0x2C) = primaryKey ++ text "," ++ fieldString := by
      rw [commas_cons hne, commas, List.intercalate_splitOn]
    have hmarkers : List.intercalate (text ",") (List.replicate (numFields + 1) (text "?")) = text "?" ++ (List.replicate numFields (text ",?")).flatten := by
      have h := markers_cons (text ",") (List.replicate numFields [])
      rwa [List.map_replicate, List.map_replicate] at h
    rw [Dialect.createStatement, Dialect.sql]
    dsimp only
    rw [Sql.toText, hcolumns, hmarkers]
    cases d.dbFlavor with
    | default =>
      rw [DBFlavor.createInsertStatement, insertInto, DBFlavor.upserts, if_neg Bool.false_ne_true]
      simp only [List.append_assoc]
      rfl
    | phoenix =>
      rw [DBFlavor.createInsertStatement, insertInto, DBFlavor.upserts, if_pos rfl]
      simp only [List.append_assoc]
      rfl
  | update =>
    rw [Dialect.createStatement, Dialect.sql]
    dsimp only
    cases d.dbFlavor with
    | default =>
      dsimp only
      rw [DBFlavor.createUpdateStatement, Sql.toText, setClauses_eq]
    | phoenix =>
      dsimp only
      rw [DBFlavor.createUpdateStatement, Sql.toText, commas_append, List.map_append, List.map_singleton, markers_append]
      simp only [List.append_assoc]
      rfl
  | read =>
    rw [Dialect.createStatement, createReadStatement, List.append_assoc _ (text " = ") (text "?")]
    rfl
  | delete => rfl
  | scan => rfl

/-! ### Tables -/

/-- A row: the values of its columns, the primary key included, but for those that are null. -/
abbrev TableRow := Utf16 → Option Utf16

/-- A table. -/
structure Table where
  /-- The names of its columns other than the primary key. -/
  columns : List Utf16
  /-- Its rows, by their primary keys. -/
  rows : SortedMap Utf16 TableRow

/-- The tables of a database. -/
abbrev Tables := Utf16 → Option Table

namespace Table

variable (t : Table)

/-- The columns can be assigned to: there are all of them, and none twice. -/
def Takes (assigned : List (Utf16 × Utf16)) : Prop :=
  (assigned.map Prod.fst).Nodup ∧ ∀ a ∈ assigned, a.1 = primaryKey ∨ a.1 ∈ t.columns

instance decidableTakes (assigned : List (Utf16 × Utf16)) : Decidable (t.Takes assigned) := inferInstanceAs (Decidable (_ ∧ _))

/-- A row with these assigned. -/
def assign (row : TableRow) (assigned : List (Utf16 × Utf16)) : TableRow := fun column => (assigned.lookup column).or (row column)

/-- `INSERT`, or `UPSERT`: how many rows, and the table after it. -/
def insert (orUpdate : Bool) (assigned : List (Utf16 × Utf16)) : Option (ℤ × Table) :=
  if t.Takes assigned then
    match assigned.lookup primaryKey with
    | none => none
    | some key =>
      match t.rows.get key with
      | none => some (1, { t with rows := t.rows.put key (assign (fun _ => none) assigned) })
      | some row => if orUpdate then some (1, { t with rows := t.rows.put key (assign row assigned) }) else none
  else none

/-- `UPDATE` of the row with the key, which may change the key. -/
def update (key : Utf16) (assigned : List (Utf16 × Utf16)) : Option (ℤ × Table) :=
  if t.Takes assigned then
    match t.rows.get key with
    | none => some (0, t)
    | some row =>
      let key' := (assigned.lookup primaryKey).getD key
      if key' ≠ key ∧ (t.rows.get key').isSome then none
      else some (1, { t with rows := (t.rows.delete key).put key' (assign row assigned) })
  else none

/-- `DELETE` of the row with the key. -/
def delete (key : Utf16) : ℤ × Table := (if (t.rows.get key).isSome then 1 else 0, { t with rows := t.rows.delete key })

/-- `SELECT` of the row with the key. -/
def select (key : Utf16) : List TableRow := (t.rows.get key).toList

/-- `SELECT` of the first rows from a key on; no number of rows is negative. -/
def scan (startkey : Utf16) (n : ℤ) : Option (List TableRow) :=
  if n < 0 then none else some (((t.rows.seek startkey).take n.toNat).map Prod.snd)

/-- The part of a table that has the keys with `p`. -/
def part (p : Utf16 → Bool) : Table := { t with rows := t.rows.filter p }

end Table

/-! ### Execution -/

/-- A value for a parameter. -/
inductive Parameter where
  /-- `setString`. -/
  | string (value : Utf16)
  /-- `setInt`. -/
  | int (value : ℤ)

/-- The parameters that have been set. -/
abbrev Parameters := ℕ → Option Parameter

/-- The string for a parameter. -/
def stringAt (p : Parameters) (index : ℕ) : Option Utf16 :=
  match p index with
  | some (.string value) => some value
  | _ => none

/-- The strings for `n` parameters from `index` on. -/
def stringsFrom (p : Parameters) : ℕ → ℕ → Option (List Utf16)
  | _, 0 => some []
  | index, n + 1 => do
    let value ← stringAt p index
    let values ← stringsFrom p (index + 1) n
    some (value :: values)

/-- The number for a parameter. -/
def intAt (p : Parameters) (index : ℕ) : Option ℤ :=
  match p index with
  | some (.int value) => some value
  | _ => none

/-- What a statement gives that is executed. -/
inductive Executed where
  /-- `executeUpdate`: how many rows. -/
  | count (n : ℤ)
  /-- `executeQuery`: the rows of a table that has these columns. -/
  | rows (columns : List Utf16) (rows : List TableRow)

/-- `resultSet.getString(field)`, of a column that there is. -/
def getString (columns : List Utf16) (row : TableRow) (field : Utf16) : Option (Option Utf16) :=
  if (primaryKey :: columns).contains field then some (row field) else none

/-- `execute`; none if the statement is refused. -/
def Sql.execute (db : Tables) (p : Parameters) : Sql → Option (Executed × Tables)
  | .insert orUpdate table columns parameters => do
    let t ← db table
    let values ← stringsFrom p 1 parameters
    if columns.length = parameters then
      let (n, t) ← t.insert orUpdate (columns.zip values)
      some (.count n, Function.update db table (some t))
    else none
  | .update table fields => do
    let t ← db table
    let values ← stringsFrom p 1 fields.length
    let key ← stringAt p (fields.length + 1)
    let (n, t) ← t.update key (fields.zip values)
    some (.count n, Function.update db table (some t))
  | .upsert table fields => do
    let t ← db table
    let values ← stringsFrom p 1 (fields.length + 1)
    let (n, t) ← t.insert true ((fields ++ [primaryKey]).zip values)
    some (.count n, Function.update db table (some t))
  | .select table => do
    let t ← db table
    let key ← stringAt p 1
    some (.rows t.columns (t.select key), db)
  | .delete table => do
    let t ← db table
    let key ← stringAt p 1
    some (.count (t.delete key).1, Function.update db table (some (t.delete key).2))
  | .scan top _ table => do
    let t ← db table
    let startkey ← stringAt p (if top then 2 else 1)
    let n ← intAt p (if top then 1 else 2)
    let rows ← t.scan startkey n
    some (.rows t.columns rows, db)

/-! ### Parts -/

namespace Table

variable {t t' : Table} {p : Utf16 → Bool} {key : Utf16} {n : ℤ}

/-- All of a table. -/
theorem part_true (t : Table) : t.part (fun _ => true) = t := by
  have hrows : t.rows.filter (fun _ => true) = t.rows := SortedMap.ext_get fun key => by rw [SortedMap.get_filter, if_pos rfl]
  rw [part, hrows]

theorem get_part (t : Table) (h : p key = true) : (t.part p).rows.get key = t.rows.get key := by
  rw [part, SortedMap.get_filter, if_pos h]

/-- A row that is put is put in the part, if its key is of the part. -/
theorem part_put (t : Table) (h : p key = true) (row : TableRow) :
    ({ t with rows := t.rows.put key row } : Table).part p = { t.part p with rows := (t.part p).rows.put key row } := by
  rw [part, SortedMap.filter_put, if_pos h]
  rfl

theorem part_put_of_not (t : Table) (h : p key = false) (row : TableRow) : ({ t with rows := t.rows.put key row } : Table).part p = t.part p := by
  rw [part, SortedMap.filter_put, if_neg (by simp [h])]
  rfl

/-- **An insert** of a key of the part, into the part. -/
theorem insert_part (t : Table) (orUpdate : Bool) {assigned : List (Utf16 × Utf16)} (hkey : assigned.lookup primaryKey = some key) (h : p key = true) :
    (t.part p).insert orUpdate assigned = (t.insert orUpdate assigned).map fun r => (r.1, r.2.part p) := by
  have htakes : (t.part p).Takes assigned ↔ t.Takes assigned := Iff.rfl
  by_cases hassigned : t.Takes assigned
  · rw [insert, insert, if_pos (htakes.mpr hassigned), if_pos hassigned, hkey]
    dsimp only
    rw [get_part t h]
    cases t.rows.get key with
    | none =>
      dsimp only
      rw [Option.map_some, part_put t h]
    | some row =>
      cases orUpdate with
      | true =>
        dsimp only
        rw [if_pos rfl, if_pos rfl, Option.map_some, part_put t h]
      | false => rfl
  · rw [insert, insert, if_neg fun h => hassigned (htakes.mp h), if_neg hassigned, Option.map_none]

/-- An insert of another key leaves the part. -/
theorem insert_part_of_not {orUpdate : Bool} {assigned : List (Utf16 × Utf16)} (hkey : assigned.lookup primaryKey = some key) (h : p key = false)
    (hinsert : t.insert orUpdate assigned = some (n, t')) : t'.part p = t.part p := by
  by_cases hassigned : t.Takes assigned
  · rw [insert, if_pos hassigned, hkey] at hinsert
    dsimp only at hinsert
    cases hrow : t.rows.get key with
    | none =>
      rw [hrow] at hinsert
      cases hinsert
      exact part_put_of_not t h _
    | some row =>
      rw [hrow] at hinsert
      dsimp only at hinsert
      split_ifs at hinsert
      cases hinsert
      exact part_put_of_not t h _
  · rw [insert, if_neg hassigned] at hinsert
    cases hinsert

/-- An update that keeps the key changes the row. -/
theorem update_eq (t : Table) {assigned : List (Utf16 × Utf16)} (hkey : assigned.lookup primaryKey = none) :
    t.update key assigned = if t.Takes assigned then
      match t.rows.get key with
      | none => some ((0 : ℤ), t)
      | some row => some ((1 : ℤ), { t with rows := t.rows.put key (assign row assigned) })
    else none := by
  have hput : ∀ row : TableRow, (t.rows.delete key).put key row = t.rows.put key row := by
    intro row
    refine SortedMap.ext_get fun key' => ?_
    rw [SortedMap.get_put, SortedMap.get_put, SortedMap.get_delete]
    split_ifs <;> rfl
  simp only [update, hkey, Option.getD_none, ne_eq, not_true_eq_false, false_and, if_false, hput]

/-- **An update** of a key of the part, in the part. -/
theorem update_part (t : Table) {assigned : List (Utf16 × Utf16)} (hkey : assigned.lookup primaryKey = none) (h : p key = true) :
    (t.part p).update key assigned = (t.update key assigned).map fun r => (r.1, r.2.part p) := by
  have htakes : (t.part p).Takes assigned ↔ t.Takes assigned := Iff.rfl
  rw [update_eq _ hkey, update_eq _ hkey, get_part t h]
  by_cases hassigned : t.Takes assigned
  · rw [if_pos (htakes.mpr hassigned), if_pos hassigned]
    cases t.rows.get key with
    | none => rfl
    | some row =>
      dsimp only
      rw [Option.map_some, part_put t h]
  · rw [if_neg fun h => hassigned (htakes.mp h), if_neg hassigned, Option.map_none]

/-- An update of another key leaves the part. -/
theorem update_part_of_not {assigned : List (Utf16 × Utf16)} (hkey : assigned.lookup primaryKey = none) (h : p key = false)
    (hupdate : t.update key assigned = some (n, t')) : t'.part p = t.part p := by
  rw [update_eq _ hkey] at hupdate
  split_ifs at hupdate
  cases hrow : t.rows.get key with
  | none =>
    rw [hrow] at hupdate
    cases hupdate
    rfl
  | some row =>
    rw [hrow] at hupdate
    cases hupdate
    exact part_put_of_not t h _

/-- **A delete** of a key of the part, in the part. -/
theorem delete_part (t : Table) (h : p key = true) : (t.part p).delete key = ((t.delete key).1, (t.delete key).2.part p) := by
  rw [delete, delete, get_part t h, part, part, SortedMap.filter_delete]

/-- **A scan** of the part gives the first of those rows that are in the part. -/
theorem scan_part (t : Table) (p : Utf16 → Bool) (startkey : Utf16) (hn : 0 ≤ n) :
    (t.part p).scan startkey n = some ((((t.rows.seek startkey).filter fun e => p e.1).take n.toNat).map Prod.snd) := by
  rw [scan, if_neg (Int.not_lt.mpr hn), part, SortedMap.seek_filter]

/-- A delete of another key leaves the part. -/
theorem delete_part_of_not (t : Table) (h : p key = false) : (t.delete key).2.part p = t.part p := by
  have hrows : (t.rows.delete key).filter p = t.rows.filter p := by
    refine SortedMap.ext_get fun key' => ?_
    rw [SortedMap.get_filter, SortedMap.get_filter, SortedMap.get_delete]
    split_ifs with hp heq <;> first | rfl | (rw [heq, h] at hp; cases hp)
  rw [delete, part, part, hrows]

end Table

end YcsbIvs.Jdbc
