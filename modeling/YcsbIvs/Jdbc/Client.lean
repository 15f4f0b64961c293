import YcsbIvs.Workloads.Values
import Mathlib.Logic.Function.Basic

/-!
# The JDBC binding's inserts

`JdbcDBClient` keeps a prepared statement for each kind of statement it has made: for each
operation, table, list of fields and shard (`StatementType`). With the batch API an insert binds its
parameters and adds them to the batch of its statement. One counter, `numRowsInBatch`, counts
the rows of all statements; when it comes to a multiple of the batch size, the statement of
that insert is executed. `cleanup` executes the statements there are, unless the counter
stands at a multiple of the batch size, and closes the connections.

The driver is as its interface documents and does not throw: `executeBatch` executes the
rows of the statement in order and empties its batch, and a connection is closed when `close` has
been called on it. What it has done is kept in a log, where a row is told from the others by the
number of the `insert` call that made it.

An insert throws when a value cannot be read, or when its shard has no connection; then it
leaves the client as it was.
-/

namespace YcsbIvs.Jdbc

open YcsbIvs.Foundations YcsbIvs.Core
open YcsbIvs.Workloads (hashCode)

/-! ### Statements -/

/-- The operation of a statement. -/
inductive OperationType where
  | insert | delete | read | update | scan
  deriving DecidableEq, Repr

/-- `StatementType`: what statements are told apart by. -/
structure StatementType where
  /-- The operation. -/
  type : OperationType
  /-- The table. -/
  tableName : Utf16
  /-- The number of fields. -/
  numFields : ℕ
  /-- The names of the fields, with commas between them. -/
  fieldString : Utf16
  /-- The index of the connection. -/
  shardIndex : ℤ
  deriving DecidableEq, Repr

/-- A set of parameters that has been added to a batch. -/
structure Row where
  /-- The number of the `insert` call that made it. -/
  call : ℕ
  /-- The parameters, by their indices. -/
  parameters : ℕ → Option Utf16

/-- A prepared statement. -/
structure PreparedStatement where
  /-- Its connection. -/
  connection : ℕ
  /-- The parameters that are set. -/
  parameters : ℕ → Option Utf16
  /-- Its batch. -/
  batch : List Row

/-- `setString(index, value)`. -/
def PreparedStatement.setString (st : PreparedStatement) (index : ℕ) (value : Utf16) : PreparedStatement :=
  { st with parameters := Function.update st.parameters index (some value) }

/-- The loop of `insert` over the values: `setString(index++, value)`. -/
def PreparedStatement.setStrings (st : PreparedStatement) : ℕ → List Utf16 → PreparedStatement
  | _, [] => st
  | index, value :: values => (st.setString index value).setStrings (index + 1) values

/-- What the driver has done. -/
inductive Event where
  /-- A row of a statement is executed. -/
  | execute (statement : StatementType) (row : Row)
  /-- A connection is committed. -/
  | commit (connection : ℕ)
  /-- A connection is closed. -/
  | close (connection : ℕ)

/-! ### Settings -/

/-- The settings, the connections, and the update counts of the driver. -/
structure Config where
  /-- `db.batchsize`, `-1` if it is not set. -/
  batchSize : ℤ
  /-- `jdbc.autocommit`. -/
  autoCommit : Bool
  /-- `jdbc.batchupdateapi`. -/
  batchUpdates : Bool
  /-- `conns.size()`: a connection for each shard. -/
  conns : ℕ
  /-- There is a shard. -/
  conns_pos : 0 < conns
  /-- The update count that the driver gives for the row of a call. -/
  updateCount : ℕ → ℤ

/-- `Math.abs(x)`: the least `int` stays negative. -/
def mathAbs (x : ℤ) : ℤ := if x < 0 then asInt (-x) else x

/-- `getShardIndexByKey(key)`. -/
def Config.getShardIndexByKey (cfg : Config) (key : Utf16) : ℤ := (mathAbs (hashCode key)).tmod cfg.conns

/-- `getShardConnectionByKey(key)`: `conns.get` throws for an index that is out of bounds. -/
def Config.getShardConnectionByKey (cfg : Config) (key : Utf16) : Except Throwable ℕ :=
  let i := cfg.getShardIndexByKey key
  if 0 ≤ i ∧ i < cfg.conns then .ok i.toNat else .error .arrayIndexOutOfBounds

/-- The entries of a map of values, in the order of `entrySet()`. -/
abbrev Entries := List (Sigma fun _ : Utf16 => ByteIterator)

/-- The loop of `getFieldInfo` over the entries: the values, and the entries after it. -/
def fieldValues : Entries → Except Throwable (List Utf16 × Entries)
  | [] => .ok ([], [])
  | ⟨field, it⟩ :: entries => do
    let (value, it) ← it.toString
    let (values, entries) ← fieldValues entries
    .ok (value :: values, ⟨field, it⟩ :: entries)

/-- The field names that `getFieldInfo` gives, with commas between them. -/
def fieldKeys (entries : Entries) : Utf16 := List.intercalate [0x2C] entries.keys

/-! ### The client -/

/-- A client, and what its driver has done. -/
structure JdbcDBClient where
  /-- `cachedStatements`. -/
  cachedStatements : AList fun _ : StatementType => PreparedStatement
  /-- `numRowsInBatch`. -/
  numRowsInBatch : ℤ
  /-- How many times `insert` has been called. -/
  inserts : ℕ
  /-- What the driver has done. -/
  log : List Event

namespace JdbcDBClient

/-- A client that has not been used. -/
def newClient : JdbcDBClient := ⟨∅, 0, 0, []⟩

/-- `statement.executeBatch()`. -/
def executeBatch (c : JdbcDBClient) (type : StatementType) (st : PreparedStatement) : JdbcDBClient :=
  { c with
    cachedStatements := c.cachedStatements.insert type { st with batch := [] }
    log := c.log ++ st.batch.map (Event.execute type) }

/-- `conns.get(connection).commit()`. -/
def commit (c : JdbcDBClient) (connection : ℕ) : JdbcDBClient := { c with log := c.log ++ [.commit connection] }

/-- The type of the statement of an insert. -/
def insertType (cfg : Config) (table key : Utf16) (entries : Entries) : StatementType :=
  ⟨.insert, table, entries.length, fieldKeys entries, cfg.getShardIndexByKey key⟩

/-- The statement that is cached for `type`, or a new one (`createAndCacheInsertStatement`). -/
def statement (cfg : Config) (c : JdbcDBClient) (type : StatementType) (key : Utf16) :
    Except Throwable PreparedStatement :=
  match c.cachedStatements.lookup type with
  | some st => .ok st
  | none => do
    let connection ← cfg.getShardConnectionByKey key
    .ok ⟨connection, fun _ => none, []⟩

/-- Commit the connection of a key, if `autocommit` is off. -/
def commitShard (cfg : Config) (c : JdbcDBClient) (key : Utf16) : Except Throwable JdbcDBClient :=
  if cfg.autoCommit then .ok c
  else do
    let connection ← cfg.getShardConnectionByKey key
    .ok (c.commit connection)

/-- What `insert` does with a row by the batch API. -/
def addBatch (cfg : Config) (c : JdbcDBClient) (type : StatementType) (st : PreparedStatement) (row : Row) (key : Utf16) :
    Except Throwable (Status × JdbcDBClient) :=
  let st := { st with batch := st.batch ++ [row] }
  let c := { c with cachedStatements := c.cachedStatements.insert type st }
  if cfg.batchSize > 0 then
    let c := { c with numRowsInBatch := asLong (c.numRowsInBatch + 1) }
    if c.numRowsInBatch.tmod cfg.batchSize = 0 then
      let c := c.executeBatch type st
      if st.batch.any fun r => cfg.updateCount r.call ≠ 1 ∧ cfg.updateCount r.call ≠ -2 then .ok (.error, c)
      else do
        let c ← c.commitShard cfg key
        .ok (.ok, c)
    else .ok (.batchedOk, c)
  else .ok (.batchedOk, c)

/-- What `insert` does with a row without the batch API. -/
def executeUpdate (cfg : Config) (c : JdbcDBClient) (type : StatementType) (st : PreparedStatement) (row : Row) (key : Utf16) :
    Except Throwable (Status × JdbcDBClient) :=
  let c := { c with
    cachedStatements := c.cachedStatements.insert type st
    log := c.log ++ [.execute type row] }
  let status := if cfg.updateCount row.call = 1 then Status.ok else .unexpectedState
  if cfg.autoCommit then .ok (status, c)
  else if cfg.batchSize > 0 then
    let c := { c with numRowsInBatch := asLong (c.numRowsInBatch + 1) }
    if c.numRowsInBatch.tmod cfg.batchSize = 0 then do
      let connection ← cfg.getShardConnectionByKey key
      .ok (.ok, c.commit connection)
    else .ok (.ok, c)
  else do
    let connection ← cfg.getShardConnectionByKey key
    .ok (status, c.commit connection)

/-- `insert(tableName, key, values)`: its status, the entries of `values` and the client after it. -/
def insert (cfg : Config) (c : JdbcDBClient) (table key : Utf16) (entries : Entries) :
    Except Throwable (Status × Entries × JdbcDBClient) := do
  let (values, entries') ← fieldValues entries
  let type := insertType cfg table key entries
  let st ← c.statement cfg type key
  let st := (st.setString 1 key).setStrings 2 values
  let row := ⟨c.inserts, st.parameters⟩
  let c := { c with inserts := c.inserts + 1 }
  let (status, c) ← if cfg.batchUpdates then c.addBatch cfg type st row key else c.executeUpdate cfg type st row key
  .ok (status, entries', c)

/-- Whether a connection has been closed. -/
def isClosed (c : JdbcDBClient) (connection : ℕ) : Bool :=
  c.log.any fun e => match e with
    | .close i => i = connection
    | _ => false

/-- The loop of `cleanup` over the statements. -/
def executeAll (cfg : Config) : List (Sigma fun _ : StatementType => PreparedStatement) → JdbcDBClient → JdbcDBClient
  | [], c => c
  | ⟨type, st⟩ :: statements, c =>
    if ¬ c.isClosed st.connection ∧ c.numRowsInBatch.tmod cfg.batchSize ≠ 0 then
      executeAll cfg statements (c.executeBatch type st)
    else executeAll cfg statements c

/-- `cleanupAllConnections()`: what it does to the connections. -/
def closeEvents (cfg : Config) : List Event :=
  (List.range cfg.conns).flatMap fun i => (if cfg.autoCommit then [] else [.commit i]) ++ [.close i]

/-- `cleanup()`. -/
def cleanup (cfg : Config) (c : JdbcDBClient) : JdbcDBClient :=
  let c := if cfg.batchSize > 0 then executeAll cfg c.cachedStatements.entries c else c
  { c with log := c.log ++ closeEvents cfg }

/-- A call of `insert`. -/
structure Call where
  /-- The table. -/
  table : Utf16
  /-- The key. -/
  key : Utf16
  /-- The values. -/
  values : Values Utf16

/-- A run of calls of `insert`: the answers, and the client after it. -/
def insertAll (cfg : Config) : JdbcDBClient → List Call → List (Except Throwable Status) × JdbcDBClient
  | c, [] => ([], c)
  | c, call :: calls =>
    match c.insert cfg call.table call.key call.values.entries with
    | .ok (status, _, c) =>
      let (answers, c) := insertAll cfg c calls
      (.ok status :: answers, c)
    | .error e =>
      let (answers, c) := insertAll cfg { c with inserts := c.inserts + 1 } calls
      (.error e :: answers, c)

/-- The calls whose rows have been executed. -/
def executed (c : JdbcDBClient) : List ℕ :=
  c.log.filterMap fun e => match e with
    | .execute _ row => some row.call
    | _ => none

end JdbcDBClient

end YcsbIvs.Jdbc
