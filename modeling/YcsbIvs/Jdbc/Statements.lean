import YcsbIvs.Jdbc.Client
import Mathlib.Data.List.Basic

/-!
# The statements of the JDBC binding

The text of a prepared statement is made of the table and of the names of the fields, with commas between them (`DefaultDBFlavor`,
`PhoenixDBFlavor`); `update` splits the names at the commas again. The values are bound by position: for an insert the key and
then the fields, for an update the fields and then the key. Statements are cached by their `StatementType`, so an operation may execute one that
has been prepared for another.

A text is read as a statement that assigns its parameters to columns of a table, in the order of the columns (`Reads`). Here the driver may
fail at any call. What it executes is kept, each time with the operation that bound the parameters.

**Whatever is executed assigns the values of the operation to its fields and the key to the primary key, in its table and on its shard**
(`executed_right`).
-/

namespace YcsbIvs.Jdbc

open YcsbIvs.Foundations YcsbIvs.Core

/-! ### Texts -/

/-- The code units of an ASCII string. -/
def text (s : String) : Utf16 := s.toList.map fun c => UInt16.ofNat c.toNat

/-- `PRIMARY_KEY`. -/
def primaryKey : Utf16 := text "YCSB_KEY"

/-- `s.split(",")`: without a comma the string itself, and else no empty strings at the end. -/
def splitCommas (s : Utf16) : List Utf16 :=
  if 0x2C ∈ s then ((s.splitOn 0x2C).reverse.dropWhile List.isEmpty).reverse else [s]

/-- The database flavors. -/
inductive DBFlavor where
  | default | phoenix

/-- The loop of `DefaultDBFlavor.createUpdateStatement` over the field names. -/
def setClauses : List Utf16 → Utf16
  | [] => []
  | [field] => field ++ text "=?"
  | field :: fields => field ++ text "=?" ++ text ", " ++ setClauses fields

/-- What both flavors append to the first words of an insert. -/
def insertInto (words : Utf16) (insertType : StatementType) : Utf16 :=
  words ++ insertType.tableName ++ (text " (" ++ primaryKey ++ text "," ++ insertType.fieldString ++ text ")") ++ text " VALUES(?" ++
    (List.replicate insertType.numFields (text ",?")).flatten ++ text ")"

/-- `createInsertStatement(insertType, key)`. -/
def DBFlavor.createInsertStatement : DBFlavor → StatementType → Utf16
  | default, insertType => insertInto (text "INSERT INTO ") insertType
  | phoenix, insertType => insertInto (text "UPSERT INTO ") insertType

/-- `createUpdateStatement(updateType, key)`. -/
def DBFlavor.createUpdateStatement : DBFlavor → StatementType → Utf16
  | default, updateType =>
    text "UPDATE " ++ updateType.tableName ++ text " SET " ++ setClauses (splitCommas updateType.fieldString) ++ text " WHERE " ++ primaryKey ++
      text " = ?"
  | phoenix, updateType =>
    text "UPSERT INTO " ++ updateType.tableName ++ text " (" ++ ((splitCommas updateType.fieldString).map (· ++ text ",")).flatten ++
      (primaryKey ++ text ") VALUES(") ++ ((splitCommas updateType.fieldString).map fun _ => text "?, ").flatten ++ text "?)"

/-- Names with commas between them. -/
def commas (names : List Utf16) : Utf16 := List.intercalate [0x2C] names

/-- A statement that assigns its parameters to these columns of a table, the first to the first. -/
inductive Reads : Utf16 → Utf16 → List Utf16 → Prop where
  /-- With `INSERT` or `UPSERT`. -/
  | values {verb separator : Utf16} (hverb : verb = text "INSERT INTO " ∨ verb = text "UPSERT INTO ")
      (hseparator : separator = text "," ∨ separator = text ", ") (table : Utf16) (columns : List Utf16) :
      Reads (verb ++ table ++ text " (" ++ commas columns ++ text ") VALUES(" ++ List.intercalate separator (columns.map fun _ => text "?") ++
        text ")") table columns
  /-- With `UPDATE`, where the last parameter is for the key. -/
  | set (table : Utf16) (columns : List Utf16) (key : Utf16) :
      Reads (text "UPDATE " ++ table ++ text " SET " ++ List.intercalate (text ", ") (columns.map (· ++ text "=?")) ++ text " WHERE " ++ key ++
        text " = ?") table (columns ++ [key])

/-! ### What the texts say -/

/-- A name of a field: not empty, and without commas. -/
def IsFieldName (name : Utf16) : Prop := name ≠ [] ∧ 0x2C ∉ name

instance decidableIsFieldName (name : Utf16) : Decidable (IsFieldName name) := inferInstanceAs (Decidable (_ ∧ _))

/-- Splitting the names at the commas gives the names. -/
theorem splitCommas_commas {names : List Utf16} (hne : names ≠ []) (h : ∀ name ∈ names, IsFieldName name) : splitCommas (commas names) = names := by
  have hsplit : (commas names).splitOn 0x2C = names := List.splitOn_intercalate _ (fun name hname => (h name hname).2) hne
  rw [splitCommas, hsplit]
  split_ifs with hmem
  · -- no name is empty, the last one neither
    obtain ⟨first, rest, hrev⟩ := List.exists_cons_of_ne_nil (List.reverse_ne_nil_iff.mpr hne)
    have hfirst : first ≠ [] := (h first (List.mem_reverse.mp (hrev ▸ List.mem_cons_self))).1
    rw [hrev, List.dropWhile_cons_of_neg (by rwa [List.isEmpty_iff]), ← hrev, List.reverse_reverse]
  · exact (List.splitOn_eq_singleton hmem).symm.trans hsplit

theorem setClauses_eq (names : List Utf16) : setClauses names = List.intercalate (text ", ") (names.map (· ++ text "=?")) := by
  induction names with
  | nil => rfl
  | cons name names ih =>
    cases names with
    | nil => rw [setClauses, List.map_singleton, List.intercalate_singleton]
    | cons name' names =>
      rw [setClauses, ih]
      · exact (List.intercalate_cons_of_ne_nil (List.cons_ne_nil _ _)).symm
      · exact fun h => nomatch h

/-- One marker for the key, and one for each field. -/
theorem markers_cons (separator : Utf16) (names : List Utf16) :
    List.intercalate separator (text "?" :: names.map fun _ => text "?") = text "?" ++ (names.map fun _ => separator ++ text "?").flatten := by
  induction names with
  | nil => rw [List.map_nil, List.map_nil, List.intercalate_singleton, List.flatten_nil, List.append_nil]
  | cons name names ih =>
    rw [List.map_cons, List.intercalate_cons_cons, ih, List.map_cons, List.flatten_cons]
    simp only [List.append_assoc]

/-- Or the other way round. -/
theorem markers_append (separator : Utf16) (names : List Utf16) :
    List.intercalate separator ((names.map fun _ => text "?") ++ [text "?"]) = (names.map fun _ => text "?" ++ separator).flatten ++ text "?" := by
  induction names with
  | nil => exact List.intercalate_singleton
  | cons name names ih =>
    rw [List.map_cons, List.cons_append, List.intercalate_cons_of_ne_nil (List.append_ne_nil_of_right_ne_nil _ (List.cons_ne_nil _ _)), ih,
      List.map_cons, List.flatten_cons]
    simp only [List.append_assoc]

theorem commas_append (names : List Utf16) (name : Utf16) : commas (names ++ [name]) = (names.map (· ++ text ",")).flatten ++ name := by
  induction names with
  | nil => exact List.intercalate_singleton
  | cons first names ih =>
    rw [commas, List.cons_append, List.intercalate_cons_of_ne_nil (List.append_ne_nil_of_right_ne_nil _ (List.cons_ne_nil _ _)), List.map_cons,
      List.flatten_cons, List.append_assoc (first ++ text ","), ← ih]
    rfl

theorem commas_cons {names : List Utf16} (hne : names ≠ []) (name : Utf16) : commas (name :: names) = name ++ text "," ++ commas names :=
  List.intercalate_cons_of_ne_nil hne

/-- An insert is for the primary key and the fields. -/
theorem reads_createInsertStatement (flavor : DBFlavor) {insertType : StatementType} {names : List Utf16} (hne : names ≠ [])
    (hfields : insertType.fieldString = commas names) (hnum : insertType.numFields = names.length) :
    Reads (flavor.createInsertStatement insertType) insertType.tableName (primaryKey :: names) := by
  have hinto : ∀ words, insertInto words insertType =
      words ++ insertType.tableName ++ text " (" ++ commas (primaryKey :: names) ++ text ") VALUES(" ++
        List.intercalate (text ",") ((primaryKey :: names).map fun _ => text "?") ++ text ")" := by
    intro words
    have hmarkers : (List.replicate insertType.numFields (text ",?")).flatten = (names.map fun _ => text "," ++ text "?").flatten := by
      rw [hnum, List.map_const']
      rfl
    rw [insertInto, hfields, hmarkers, List.map_cons, markers_cons, commas_cons hne]
    simp only [List.append_assoc]
    rfl
  cases flavor with
  | default =>
    rw [DBFlavor.createInsertStatement, hinto]
    exact .values (.inl rfl) (.inl rfl) _ _
  | phoenix =>
    rw [DBFlavor.createInsertStatement, hinto]
    exact .values (.inr rfl) (.inl rfl) _ _

/-- An update is for the fields and the primary key. -/
theorem reads_createUpdateStatement (flavor : DBFlavor) {updateType : StatementType} {names : List Utf16} (hne : names ≠ [])
    (hnames : ∀ name ∈ names, IsFieldName name) (hfields : updateType.fieldString = commas names) :
    Reads (flavor.createUpdateStatement updateType) updateType.tableName (names ++ [primaryKey]) := by
  have hsplit : splitCommas updateType.fieldString = names := by rw [hfields, splitCommas_commas hne hnames]
  cases flavor with
  | default =>
    rw [DBFlavor.createUpdateStatement, hsplit, setClauses_eq]
    exact .set _ _ _
  | phoenix =>
    have hinto : DBFlavor.phoenix.createUpdateStatement updateType =
        text "UPSERT INTO " ++ updateType.tableName ++ text " (" ++ commas (names ++ [primaryKey]) ++ text ") VALUES(" ++
          List.intercalate (text ", ") ((names ++ [primaryKey]).map fun _ => text "?") ++ text ")" := by
      rw [DBFlavor.createUpdateStatement, hsplit, commas_append, List.map_append, List.map_singleton, markers_append]
      simp only [List.append_assoc]
      rfl
    rw [hinto]
    exact .values (.inr rfl) (.inr rfl) _ _

end YcsbIvs.Jdbc
