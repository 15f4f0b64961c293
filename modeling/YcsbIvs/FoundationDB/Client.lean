import YcsbIvs.Core.Consumption
import YcsbIvs.Core.DB

/-!
# The FoundationDB binding

`FoundationDBClient` keeps a record as one row: its key is `dbName:table:key`, and its value a tuple of names and strings.
`insert` adds the row to a batch (`batchKeys`, `batchValues` and their number `batchCount`). When there are `batchSize` of them,
`batchInsert` sets all of them in one transaction, and empties the batch whatever comes of it. `cleanup` does so with what is
left, and closes the database.

`db.run` makes attempts at a transaction: when one fails with an error to retry on, it makes another. Each attempt calls
`toString` of the iterators again. One that fails may have been carried out all the same, if it is the commit that fails. Whether
`db.run` throws in the end makes no difference, as `batchInsert` catches it.

Rows are told apart by the number of the `insert` call that made them.
-/

namespace YcsbIvs.FoundationDB

open YcsbIvs.Foundations YcsbIvs.Core

/-- A row of the batch. -/
structure Pending where
  /-- The number of the call. -/
  call : ℕ
  /-- The key of the row. -/
  rowKey : Utf16
  /-- The values. -/
  values : Entries

/-- A row that has been set. -/
structure Row where
  /-- The number of the call. -/
  call : ℕ
  /-- The key of the row. -/
  rowKey : Utf16
  /-- The tuple: names and strings. -/
  fields : List (Utf16 × Utf16)
  deriving DecidableEq

/-- The settings. -/
structure Config where
  /-- `dbName`. -/
  dbName : Utf16
  /-- `batchSize`. -/
  batchSize : ℤ

/-- The client, and what it has set in the store. -/
structure FoundationDBClient where
  /-- The batch. -/
  batch : List Pending
  /-- The rows that have been set, in order. -/
  store : List Row
  /-- How many calls of `insert` there have been. -/
  calls : ℕ

/-- `getRowKey(db, table, key)`. -/
def getRowKey (db table key : Utf16) : Utf16 := db ++ 0x3A :: table ++ 0x3A :: key

/-- The loop of `batchInsert` in one attempt: the rows it sets, and the batch after it. -/
def setRows : List Pending → Except Throwable (List Row × List Pending)
  | [] => .ok ([], [])
  | p :: batch => do
    let (fields, values) ← getStringMap p.values
    let (rows, batch) ← setRows batch
    .ok (⟨p.call, p.rowKey, fields⟩ :: rows, { p with values := values } :: batch)

/-- `db.run`: the rows that are set, if these attempts are made, each carried out or not. What `toString` throws ends it. -/
def run : List Bool → List Pending → List Row
  | [], _ => []
  | applied :: attempts, batch =>
    match setRows batch with
    | .error _ => []
    | .ok (rows, batch) => (if applied then rows else []) ++ run attempts batch

namespace FoundationDBClient

/-- `batchInsert()`. -/
def batchInsert (attempts : List Bool) (c : FoundationDBClient) : FoundationDBClient :=
  { c with batch := [], store := c.store ++ run attempts c.batch }

/-- The row is put in the batch. -/
def addElement (p : Pending) (c : FoundationDBClient) : FoundationDBClient :=
  { c with batch := c.batch ++ [p], calls := c.calls + 1 }

/-- What `insert` puts in the batch. -/
def pending (config : Config) (c : FoundationDBClient) (table key : Utf16) (values : Values Utf16) : Pending :=
  ⟨c.calls, getRowKey config.dbName table key, values.entries⟩

/-- `insert(table, key, values)`. A `Vector` with `2³¹ – 1` elements can not take another: then `addElement` throws. -/
def insert (config : Config) (attempts : List Bool) (c : FoundationDBClient) (table key : Utf16) (values : Values Utf16) :
    Status × FoundationDBClient :=
  if c.batch.length + 1 < 2 ^ 31 then
    let c := c.addElement (c.pending config table key values)
    if config.batchSize = 0 ∨ config.batchSize = c.batch.length then (.ok, c.batchInsert attempts) else (.ok, c)
  else (.error, { c with calls := c.calls + 1 })

/-- `cleanup()`: false if `db.close()` throws. -/
def cleanup (attempts : List Bool) (closes : Bool) (c : FoundationDBClient) : Bool × FoundationDBClient :=
  (closes, if 0 < c.batch.length then c.batchInsert attempts else c)

end FoundationDBClient

end YcsbIvs.FoundationDB
