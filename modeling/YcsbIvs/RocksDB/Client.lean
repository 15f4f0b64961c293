import YcsbIvs.Foundations.SortedMap
import YcsbIvs.RocksDB.Codec
import Mathlib.Logic.Function.Basic

/-!
# The RocksDB binding

`RocksDBClient` keeps each table in a column family of one RocksDB database, a record
under the UTF-8 bytes of its key. The database is what its interface documents: each
column family is a map sorted by key bytes, the operations on it are atomic, and
`createColumnFamily` refuses a name that is taken. Any call of it that can throw
`RocksDBException` may do so (`fails`); the client turns that into `ERROR`.

A table is looked up in `COLUMN_FAMILIES`; one that is not there is created. The map
starts with the names of the file `CF_NAMES`, or empty when there are none: then the
column family `default`, which every database has, is not in it (`initRocksDB`).

The state of an operation that ends in an uncaught exception is not given.
-/

namespace YcsbIvs.RocksDB

open YcsbIvs.Foundations YcsbIvs.Core

/-- The open database, and what the client knows of it. -/
structure RocksDb where
  /-- The column families, by their names in bytes. -/
  families : Bytes → Option (SortedMap Bytes Bytes)
  /-- `COLUMN_FAMILIES`: the column family a table is kept in. -/
  columnFamilies : Utf16 → Option Bytes
  /-- Which of the calls to come throw `RocksDBException`. -/
  fails : ℕ → Bool

/-- The name `default`. -/
def defaultColumnFamily : Utf16 := [0x64, 0x65, 0x66, 0x61, 0x75, 0x6C, 0x74]

namespace RocksDb

/-! ### The library -/

/-- After one call that can throw. -/
def called (db : RocksDb) : RocksDb := { db with fails := fun i => db.fails (i + 1) }

/-- `rocksDb.createColumnFamily(name)`; `false` if it throws. -/
def createFamily (db : RocksDb) (name : Bytes) : Bool × RocksDb :=
  if db.fails 0 ∨ (db.families name).isSome then (false, db.called)
  else (true, { db.called with families := Function.update db.families name (some .empty) })

/-- `rocksDb.get(cf, key)`; `none` if it throws. -/
def get (db : RocksDb) (cf key : Bytes) : Option (Option Bytes) × RocksDb :=
  match db.families cf with
  | some m => (if db.fails 0 then none else some (m.get key), db.called)
  | none => (none, db.called)

/-- `rocksDb.put(cf, key, value)`; `false` if it throws. -/
def put (db : RocksDb) (cf key value : Bytes) : Bool × RocksDb :=
  match db.families cf with
  | some m =>
    if db.fails 0 then (false, db.called)
    else (true, { db.called with families := Function.update db.families cf (some (m.put key value)) })
  | none => (false, db.called)

/-- `rocksDb.delete(cf, key)`; `false` if it throws. -/
def delete (db : RocksDb) (cf key : Bytes) : Bool × RocksDb :=
  match db.families cf with
  | some m =>
    if db.fails 0 then (false, db.called)
    else (true, { db.called with families := Function.update db.families cf (some (m.delete key)) })
  | none => (false, db.called)

/-- What `rocksDb.newIterator(cf)` goes through after `seek(key)`. -/
def seek (db : RocksDb) (cf key : Bytes) : List (Bytes × Bytes) :=
  match db.families cf with
  | some m => m.seek key
  | none => []

/-! ### The client -/

/-- What `initRocksDB` opens of the column families in `stored` when `CF_NAMES` has the
names `cfNames`. Every column family there is has to be listed; one that is missing is
created. With no names, `default` is opened, and `COLUMN_FAMILIES` stays empty. -/
def initRocksDB (stored : Bytes → Option (SortedMap Bytes Bytes)) (cfNames : List Utf16) (fails : ℕ → Bool) :
    RocksDb where
  families cf :=
    if cf ∈ (if cfNames = [] then [defaultColumnFamily] else cfNames).map encode
    then some ((stored cf).getD .empty) else none
  columnFamilies table := if table ∈ cfNames then some (encode table) else none
  fails := fails

/-- `createColumnFamily(name)`; `false` if it throws. -/
def createColumnFamily (db : RocksDb) (name : Utf16) : Bool × RocksDb :=
  if (db.columnFamilies name).isSome then (true, db)
  else match db.createFamily (encode name) with
    | (true, db) => (true, { db with columnFamilies := Function.update db.columnFamilies name (some (encode name)) })
    | (false, db) => (false, db)

/-- The column family of a table, which is created if it is not in `COLUMN_FAMILIES`;
`none` if that throws. -/
def columnFamily (db : RocksDb) (table : Utf16) : Option Bytes × RocksDb :=
  if (db.columnFamilies table).isSome then (db.columnFamilies table, db)
  else match db.createColumnFamily table with
    | (true, db) => (db.columnFamilies table, db)
    | (false, db) => (none, db)

/-- `read(table, key, fields, result)`. -/
def read (db : RocksDb) (table : Utf16) (key : Name) (fields : Option (List Name)) (result : Values Name) :
    Except Throwable (Status × Values Name × RocksDb) :=
  match db.columnFamily table with
  | (none, db) => .ok (.error, result, db)
  | (some cf, db) =>
    match db.get cf key.getBytes with
    | (none, db) => .ok (.error, result, db)
    | (some none, db) => .ok (.notFound, result, db)
    | (some (some values), db) => do
      let result ← deserializeValues values fields result
      .ok (.ok, result, db)

/-- The loop of `scan` over the entries of the iterator. -/
def scanLoop (recordcount : ℤ) (fields : Option (List Name)) :
    List (Bytes × Bytes) → ℤ → List (Values Name) → Except Throwable (List (Values Name))
  | [], _, result => .ok result
  | entry :: entries, iterations, result =>
    if iterations < recordcount then do
      let values ← deserializeValues entry.2 fields ∅
      scanLoop recordcount fields entries (iterations + 1) (result ++ [values])
    else .ok result

/-- `scan(table, startkey, recordcount, fields, result)`, from an empty `result`. -/
def scan (db : RocksDb) (table : Utf16) (startkey : Name) (recordcount : ℤ) (fields : Option (List Name)) :
    Except Throwable (Status × List (Values Name) × RocksDb) :=
  match db.columnFamily table with
  | (none, db) => .ok (.error, [], db)
  | (some cf, db) => do
    let result ← scanLoop recordcount fields (db.seek cf startkey.getBytes) 0 []
    .ok (.ok, result, db)

/-- `update(table, key, values)`, and the iterators of `values` after it. -/
def update (order : IterationOrder) (db : RocksDb) (table : Utf16) (key : Name) (values : Values Name) :
    Except Throwable (Status × Values Name × RocksDb) :=
  match db.columnFamily table with
  | (none, db) => .ok (.error, values, db)
  | (some cf, db) =>
    match db.get cf key.getBytes with
    | (none, db) => .ok (.error, values, db)
    | (some none, db) => .ok (.notFound, values, db)
    | (some (some currentValues), db) => do
      let result ← deserializeValues currentValues none ∅
      -- `result.putAll(values)`
      let (bytes, _) ← serializeValues order (values ∪ result)
      match db.put cf key.getBytes bytes with
      | (false, db) => .ok (.error, drained values, db)
      | (true, db) => .ok (.ok, drained values, db)

/-- `insert(table, key, values)`, and the iterators of `values` after it. -/
def insert (order : IterationOrder) (db : RocksDb) (table : Utf16) (key : Name) (values : Values Name) :
    Except Throwable (Status × Values Name × RocksDb) :=
  match db.columnFamily table with
  | (none, db) => .ok (.error, values, db)
  | (some cf, db) => do
    let (bytes, values) ← serializeValues order values
    match db.put cf key.getBytes bytes with
    | (false, db) => .ok (.error, values, db)
    | (true, db) => .ok (.ok, values, db)

/-- `delete(table, key)`. -/
def deleteRecord (db : RocksDb) (table : Utf16) (key : Name) : Status × RocksDb :=
  match db.columnFamily table with
  | (none, db) => (.error, db)
  | (some cf, db) =>
    match db.delete cf key.getBytes with
    | (false, db) => (.error, db)
    | (true, db) => (.ok, db)

end RocksDb

end YcsbIvs.RocksDB
