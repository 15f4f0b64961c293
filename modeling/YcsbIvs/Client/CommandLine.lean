import YcsbIvs.Core.DBWrapper
import YcsbIvs.Foundations.Split
import YcsbIvs.Workloads.FieldLengths

/-!
# The command line client

`CommandLine` reads lines, and has a database do what they say: a line is split at the blanks, its first word is the command. The loop ends with `quit`. An exception is not
caught, and ends it as well: it is thrown for the end of the input, for a line of blanks alone, for a pair without a value, or a number that is none
(`CommandLine.mainLoop`).

What is printed is a list of lines, the prompts left out; what a command has printed before an exception is left out too. The entries of a map are
printed in the order that its `entrySet` has. How many milliseconds each command takes is given with its line.
-/

namespace YcsbIvs.Client.CommandLine

open YcsbIvs.Foundations YcsbIvs.Core YcsbIvs.Generator
open YcsbIvs.Workloads (parseInt longToString)
open YcsbIvs.Core.Wrapping (constantName)

variable {σ : Type}

/-- A `DB`, as the shell calls it. -/
structure Database (σ : Type) where
  /-- `read(table, key, fields, result)`, from an empty `result`. -/
  read : σ → Utf16 → Utf16 → Option (List Utf16) → Except Throwable (Option Status × Values Utf16 × σ)
  /-- `scan(table, startkey, recordcount, fields, result)`, from an empty `result`. -/
  scan : σ → Utf16 → Utf16 → ℤ → Option (List Utf16) → Except Throwable (Option Status × List (Values Utf16) × σ)
  /-- `update(table, key, values)`. -/
  update : σ → Utf16 → Utf16 → Values Utf16 → Except Throwable (Option Status × Values Utf16 × σ)
  /-- `insert(table, key, values)`. -/
  insert : σ → Utf16 → Utf16 → Values Utf16 → Except Throwable (Option Status × Values Utf16 × σ)
  /-- `delete(table, key)`. -/
  delete : σ → Utf16 → Utf16 → Except Throwable (Option Status × σ)

/-- The order in which the entries of a map are handed out. -/
structure EntryOrder where
  /-- The entries as handed out. -/
  entrySet : List (Σ _ : Utf16, ByteIterator) → List (Σ _ : Utf16, ByteIterator)
  /-- They are the entries of the map. -/
  perm : ∀ entries, (entrySet entries).Perm entries

/-- The order of the list. -/
def EntryOrder.asStored : EntryOrder := ⟨id, fun entries => .refl entries⟩

/-- An exception that ends the loop. -/
inductive Uncaught where
  /-- Of the shell itself. -/
  | own (t : Thrown)
  /-- Of the database, or of what it has returned. -/
  | database (t : Throwable)
  deriving DecidableEq

/-- An exception of the shell. -/
def own {α : Type} : Except Thrown α → Except Uncaught α := Except.mapError .own

/-- An exception of the database. -/
def called {α : Type} : Except Throwable α → Except Uncaught α := Except.mapError .database

/-- `ret.getName()`. -/
def getName : Option Status → Except Uncaught Utf16
  | some st => .ok (ascii (constantName st))
  | none => .error (.database .nullPointer)

/-! ### Words -/

/-- The loop over the words `name=value`. -/
def readValues : List Utf16 → Values Utf16 → Except Thrown (Values Utf16)
  | [], values => .ok values
  | token :: tokens, values => do
    let nv := split [0x3D] token
    let name ← elementAt nv 0
    let value ← elementAt nv 1
    readValues tokens (values.insert name (.string (.ofString value)))

/-- The words from the `n`th on as a set of fields, if there are any. -/
def fieldsFrom (n : ℕ) (tokens : List Utf16) : Option (List Utf16) := if n < tokens.length then some (tokens.drop n).dedup else none

/-- The lines `name=value` of some entries. -/
def showEntries : List (Σ _ : Utf16, ByteIterator) → Except Throwable (List Utf16)
  | [] => .ok []
  | entry :: entries => do
    let (text, _) ← entry.2.toString
    let lines ← showEntries entries
    .ok ((entry.1 ++ ascii "=" ++ text) :: lines)

/-- The line between two records. -/
def rule : Utf16 := ascii "--------------------------------"

/-- The lines of the records from the `record`th on. -/
def showRecords (order : EntryOrder) : ℕ → List (Values Utf16) → Except Throwable (List Utf16)
  | _, [] => .ok []
  | record, result :: results => do
    let lines ← showEntries (order.entrySet result.entries)
    let rest ← showRecords order (record + 1) results
    .ok ((ascii "Record " ++ longToString record) :: lines ++ rule :: rest)

/-! ### Commands -/

section

variable (D : Database σ) (order : EntryOrder) (tokens : List Utf16) (table : Utf16) (s : σ)

/-- `handleDelete(tokens, table, db)`. -/
def handleDelete : Except Uncaught (List Utf16 × σ) :=
  if tokens.length ≠ 2 then .ok ([ascii "Error: syntax is \"delete keyname\""], s)
  else do
    let key ← own (elementAt tokens 1)
    let (ret, s) ← called (D.delete s table key)
    let name ← getName ret
    .ok ([ascii "Return result: " ++ name], s)

/-- `handleInsert(tokens, table, db)`. -/
def handleInsert : Except Uncaught (List Utf16 × σ) :=
  if tokens.length < 3 then .ok ([ascii "Error: syntax is \"insert keyname name1=value1 [name2=value2 ...]\""], s)
  else do
    let values ← own (readValues (tokens.drop 2) ∅)
    let key ← own (elementAt tokens 1)
    let (ret, _, s) ← called (D.insert s table key values)
    let name ← getName ret
    .ok ([ascii "Result: " ++ name], s)

/-- `handleUpdate(tokens, table, db)`. -/
def handleUpdate : Except Uncaught (List Utf16 × σ) :=
  if tokens.length < 3 then .ok ([ascii "Error: syntax is \"update keyname name1=value1 [name2=value2 ...]\""], s)
  else do
    let values ← own (readValues (tokens.drop 2) ∅)
    let key ← own (elementAt tokens 1)
    let (ret, _, s) ← called (D.update s table key values)
    let name ← getName ret
    .ok ([ascii "Result: " ++ name], s)

/-- `handleScan(tokens, table, db)`. -/
def handleScan : Except Uncaught (List Utf16 × σ) :=
  if tokens.length < 3 then .ok ([ascii "Error: syntax is \"scan keyname scanlength [field1 field2 ...]\""], s)
  else do
    let startkey ← own (elementAt tokens 1)
    let recordcount ← own (elementAt tokens 2 >>= parseInt)
    let (ret, results, s) ← called (D.scan s table startkey recordcount (fieldsFrom 3 tokens))
    let name ← getName ret
    let records ← called (showRecords order 0 results)
    .ok ((ascii "Result: " ++ name) :: (if results = [] then ascii "0 records" else rule) :: records, s)

/-- `handleRead(tokens, table, db)`. -/
def handleRead : Except Uncaught (List Utf16 × σ) :=
  if tokens.length = 1 then .ok ([ascii "Error: syntax is \"read keyname [field1 field2 ...]\""], s)
  else do
    let key ← own (elementAt tokens 1)
    let (ret, result, s) ← called (D.read s table key (fieldsFrom 2 tokens))
    let name ← getName ret
    let lines ← called (showEntries (order.entrySet result.entries))
    .ok ((ascii "Return code: " ++ name) :: lines, s)

/-- `handleTable(tokens, table)`. What it assigns is its own parameter. -/
def handleTable : List Utf16 :=
  match tokens with
  | [_] => [ascii "Using table \"" ++ table ++ ascii "\""]
  | [_, table] => [ascii "Using table \"" ++ table ++ ascii "\""]
  | _ => [ascii "Error: syntax is \"table tablename\""]

/-- What the loop does with the words of a line. -/
def command : Except Uncaught (List Utf16 × σ) := do
  let name ← own (elementAt tokens 0)
  if name = ascii "table" then .ok (handleTable tokens table, s)
  else if name = ascii "read" then handleRead D order tokens table s
  else if name = ascii "scan" then handleScan D order tokens table s
  else if name = ascii "update" then handleUpdate D tokens table s
  else if name = ascii "insert" then handleInsert D tokens table s
  else if name = ascii "delete" then handleDelete D tokens table s
  else .ok ([ascii "Error: unknown command \"" ++ name ++ ascii "\""], s)

end

/-- What `help()` prints. -/
def help : List Utf16 :=
  [ascii "Commands:", ascii "  read key [field1 field2 ...] - Read a record", ascii "  scan key recordcount [field1 field2 ...] - Scan starting at key",
    ascii "  insert key name1=value1 [name2=value2 ...] - Insert a new record", ascii "  update key name1=value1 [name2=value2 ...] - Update a record",
    ascii "  delete key - Delete a record", ascii "  table [tablename] - Get or [set] the name of the table", ascii "  quit - Quit"]

/-! ### The loop -/

/-- How the loop ends. -/
inductive Ended where
  /-- With `quit`. -/
  | quit
  /-- With an exception. -/
  | uncaught (u : Uncaught)
  deriving DecidableEq

/-- What the loop has done. -/
structure Session (σ : Type) where
  /-- What it has printed. -/
  output : List Utf16
  /-- The database after the last command that has returned. -/
  state : σ
  /-- The end. -/
  ended : Ended

/-- The session with some lines before. -/
def Session.after (session : Session σ) (lines : List Utf16) : Session σ := { session with output := lines ++ session.output }

/-- The main loop, over the lines of the input, each with the milliseconds that its command takes. `readLine()` gives `null` at the end. -/
def mainLoop (D : Database σ) (order : EntryOrder) (table : Utf16) : List (Utf16 × ℤ) → σ → Session σ
  | [], s => ⟨[], s, .uncaught (.own .nullPointer)⟩
  | (input, ms) :: lines, s =>
    if input = [] then mainLoop D order table lines s
    else if input = ascii "help" then (mainLoop D order table lines s).after help
    else if input = ascii "quit" then ⟨[], s, .quit⟩
    else
      match command D order (split [0x20] input) table s with
      | .error u => ⟨[], s, .uncaught u⟩
      | .ok (output, s) => (mainLoop D order table lines s).after (output ++ [longToString ms ++ ascii " ms"])

end YcsbIvs.Client.CommandLine
