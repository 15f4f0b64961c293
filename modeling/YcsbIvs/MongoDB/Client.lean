import YcsbIvs.Core.DB

/-!
# The MongoDB binding's inserts

`MongoDbClient.insert` makes a document of the record's key and fields. With a `batchsize` of
one it writes the document at once; otherwise it puts it in `bulkInserts`, and when that
list is as long as the batch size sends all of it to the collection of the table it was
called with last, and clears it. `cleanup` closes the connection when the last client
goes.

A call of the driver is acknowledged or throws (`Reply`). What it has delivered when it
throws is up to the driver: an unordered `insertMany` goes on after a document that
fails. Documents are told apart by the number of the `insert` call that made them, and
what the driver has delivered is kept in `sent`.
-/

namespace YcsbIvs.MongoDB

open YcsbIvs.Foundations YcsbIvs.Core

/-! ### Documents -/

/-- A value of a document. -/
inductive BsonValue where
  /-- A string. -/
  | string (s : Utf16)
  /-- A byte array. -/
  | binary (bs : Bytes)
  deriving DecidableEq, Repr

/-- `Document`: a map from names to values. -/
abbrev Document := AList fun _ : Utf16 => BsonValue

/-- The name `_id`. -/
def idField : Utf16 := [0x5F, 0x69, 0x64]

/-- `new Document("_id", value)`. -/
def ofId (value : BsonValue) : Document := AList.singleton idField value

/-- The entries of a map of values, in the order of `entrySet()`. -/
abbrev Entries := List (Sigma fun _ : Utf16 => ByteIterator)

/-- The loop of `insert` over the entries: `toInsert.put(entry.getKey(), entry.getValue().toArray())`.
The entries after it, and the document. -/
def putFields : Entries → Document → Entries × Except Throwable Document
  | [], toInsert => ([], .ok toInsert)
  | ⟨field, it⟩ :: entries, toInsert =>
    match it.toArray with
    | .error e => (⟨field, it⟩ :: entries, .error e)
    | .ok (bs, it) =>
      let (entries, r) := putFields entries (toInsert.insert field (.binary bs))
      (⟨field, it⟩ :: entries, r)

theorem keys_putFields (entries : Entries) (toInsert : Document) :
    (putFields entries toInsert).1.keys = entries.keys := by
  fun_induction putFields entries toInsert with
  | case1 => rfl
  | case2 => rfl
  | case3 toInsert field it entries bs it' hit entries' r hrec ih =>
    rw [hrec] at ih
    simp only [List.keys_cons, ih]

/-- The document of a record, and the map of its values after it has been made. -/
def toDocument (key : Utf16) (values : Values Utf16) : Values Utf16 × Except Throwable Document :=
  let r := putFields values.entries (ofId (.string key))
  (⟨r.1, (congrArg List.Nodup (keys_putFields _ _)).mpr values.nodupKeys⟩, r.2)

/-! ### The driver -/

/-- What a call of the driver that writes comes to. -/
inductive Reply where
  /-- It returns, and has delivered everything. -/
  | acknowledged
  /-- It throws, and has delivered some of the documents: those made by these calls. -/
  | throws (delivered : ℕ → Bool)

/-- Whether the document that call number `i` made is delivered. -/
def Reply.delivers : Reply → ℕ → Bool
  | acknowledged, _ => true
  | throws delivered, i => delivered i

/-- How a document is written. -/
inductive Write where
  /-- `insertOne` or `insertMany`. -/
  | insert (document : Document)
  /-- `replaceOne` with the option `upsert`. -/
  | replaceOne (filter document : Document)
  /-- `UpdateOneModel` with the option `upsert`. -/
  | updateOne (filter document : Document)

/-- A document the driver has delivered. -/
structure Sent where
  /-- The number of the `insert` call that made it. -/
  call : ℕ
  /-- The collection it went to. -/
  collection : Utf16
  /-- How it was written. -/
  write : Write

/-- The document that a call of `insert` made. -/
structure Pending where
  /-- The number of the call. -/
  call : ℕ
  /-- The document. -/
  document : Document

/-- The status of an insert that has made such a call. -/
def Reply.status : Reply → Status
  | acknowledged => .ok
  | throws _ => .error

/-- Write some documents to a collection: what is delivered, each written as `write` says. -/
def Reply.deliver (reply : Reply) (collection : Utf16) (write : Document → Write) (docs : List Pending) : List Sent :=
  (docs.filter fun d => reply.delivers d.call).map fun d => ⟨d.call, collection, write d.document⟩

/-! ### The client -/

/-- The settings, and what `database.getCollection` takes. -/
structure Config where
  /-- `batchsize`. -/
  batchSize : ℤ
  /-- `mongodb.upsert`. -/
  useUpsert : Bool
  /-- The names of collections that `getCollection` does not refuse. -/
  isCollection : Utf16 → Bool

/-- A client, with the connection it shares with the others. -/
structure MongoDbClient where
  /-- `INIT_COUNT`. -/
  initCount : ℤ
  /-- Whether `mongoClient` and `database` are there. -/
  connected : Bool
  /-- The documents of the batch. -/
  bulkInserts : List Pending
  /-- How many times `insert` has been called. -/
  inserts : ℕ
  /-- What has been delivered. -/
  sent : List Sent
  /-- What the calls of the driver to come will come to. -/
  driver : ℕ → Reply

/-- `catch (Exception e)`: an `Error` is not caught. -/
def caught : Throwable → Bool
  | .outOfMemory | .nonTermination => false
  | _ => true

namespace MongoDbClient

/-- One call of the driver that writes `docs`. -/
def called (c : MongoDbClient) (collection : Utf16) (write : Document → Write) (docs : List Pending) : MongoDbClient :=
  { c with
    sent := c.sent ++ (c.driver 0).deliver collection write docs
    driver := fun i => c.driver (i + 1) }

/-- `new Document("_id", doc.get("_id"))`. -/
def filterOf (doc : Document) : Document := ofId ((doc.lookup idField).getD (.string []))

/-- How `insert` writes a document at once. -/
def writeOne (cfg : Config) (doc : Document) : Write :=
  if cfg.useUpsert then .replaceOne (filterOf doc) doc else .insert doc

/-- How `insert` writes a document of a batch. -/
def writeMany (cfg : Config) (doc : Document) : Write :=
  if cfg.useUpsert then .updateOne (filterOf doc) doc else .insert doc

/-- What `insert` does with the document it has made. -/
def add (cfg : Config) (c : MongoDbClient) (table : Utf16) (toInsert : Pending) : Status × MongoDbClient :=
  if cfg.batchSize = 1 then
    ((c.driver 0).status, c.called table (writeOne cfg) [toInsert])
  else
    let c := { c with bulkInserts := c.bulkInserts ++ [toInsert] }
    if (c.bulkInserts.length : ℤ) = cfg.batchSize then
      let c' := c.called table (writeMany cfg) c.bulkInserts
      match c.driver 0 with
      | .acknowledged => (.ok, { c' with bulkInserts := [] })
      -- the list is not cleared
      | .throws _ => (.error, c')
    else (.batchedOk, c)

/-- `insert(table, key, values)`: its status or the `Error` it throws, the values and the
client after it. -/
def insert (cfg : Config) (c : MongoDbClient) (table key : Utf16) (values : Values Utf16) :
    Except Throwable Status × Values Utf16 × MongoDbClient :=
  let c' := { c with inserts := c.inserts + 1 }
  if ¬ c.connected ∨ ¬ cfg.isCollection table then (.ok .error, values, c')
  else match toDocument key values with
    | (values, .error e) => (if caught e then .ok .error else .error e, values, c')
    | (values, .ok doc) =>
      let (status, c') := c'.add cfg table ⟨c.inserts, doc⟩
      (.ok status, values, c')

/-- `cleanup()`: the last client closes the connection. What `mongoClient.close()` throws is
caught. -/
def cleanup (c : MongoDbClient) : MongoDbClient :=
  if c.initCount - 1 = 0 then { c with initCount := c.initCount - 1, connected := false }
  else { c with initCount := c.initCount - 1 }

/-- A call of `insert`. -/
structure Call where
  /-- The table. -/
  table : Utf16
  /-- The key. -/
  key : Utf16
  /-- The values. -/
  values : Values Utf16

/-- A client that has not been used. -/
def newClient (initCount : ℤ) (connected : Bool) (driver : ℕ → Reply) : MongoDbClient :=
  ⟨initCount, connected, [], 0, [], driver⟩

/-- A run of calls of `insert`: the answers, and the client after it. -/
def insertAll (cfg : Config) : MongoDbClient → List Call → List (Except Throwable Status) × MongoDbClient
  | c, [] => ([], c)
  | c, call :: calls =>
    let (answer, _, c) := c.insert cfg call.table call.key call.values
    let (answers, c) := insertAll cfg c calls
    (answer :: answers, c)

end MongoDbClient

end YcsbIvs.MongoDB
