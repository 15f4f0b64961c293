import YcsbIvs.Jdbc.Statements

/-!
# What the JDBC binding executes

`insert` and `update` look their statement up in `cachedStatements`, or prepare it, bind the values, and execute it or add it to its batch. The
driver may fail at any call: the call then returns `ERROR`, and what is cached stays as far as it has got. What a
failing `executeBatch` has executed, and what it leaves in the batch, is up to the driver (`Reply`).

What is cached for a type has been made for that type (`StatementOk`), and what is in a batch has been bound by an operation of that type
(`RowOk`).
-/

namespace YcsbIvs.Jdbc

open YcsbIvs.Foundations YcsbIvs.Core

/-! ### Operations -/

/-- What is called. -/
inductive Kind where
  | insert | update

/-- A call of `insert` or `update`. -/
structure Operation where
  /-- Which of them. -/
  kind : Kind
  /-- The table. -/
  table : Utf16
  /-- The key. -/
  key : Utf16
  /-- The values. -/
  values : Values Utf16

namespace Operation

/-- The names of the fields, in the order of `entrySet()`. -/
def fields (op : Operation) : List Utf16 := op.values.entries.keys

/-- The type of its statement. -/
def statementType (cfg : Config) (op : Operation) : StatementType :=
  ⟨match op.kind with
    | .insert => .insert
    | .update => .update,
   op.table, op.values.entries.length, fieldKeys op.values.entries, cfg.getShardIndexByKey op.key⟩

/-- The values it binds, from the first parameter on. -/
def bound (op : Operation) (fieldValues : List Utf16) : List Utf16 :=
  match op.kind with
  | .insert => op.key :: fieldValues
  | .update => fieldValues ++ [op.key]

/-- The columns it is for, in the order of its parameters. -/
def columns (op : Operation) : List Utf16 :=
  match op.kind with
  | .insert => primaryKey :: op.fields
  | .update => op.fields ++ [primaryKey]

/-- What it is to assign: the values to the fields, and the key to the primary key. -/
def assignments (op : Operation) (fieldValues : List Utf16) : List (Utf16 × Utf16) :=
  match op.kind with
  | .insert => (primaryKey, op.key) :: op.fields.zip fieldValues
  | .update => op.fields.zip fieldValues ++ [(primaryKey, op.key)]

/-- There are fields, and their names are names of fields. -/
def HasFields (op : Operation) : Prop := op.fields ≠ [] ∧ ∀ name ∈ op.fields, IsFieldName name

instance decidableHasFields (op : Operation) : Decidable op.HasFields := inferInstanceAs (Decidable (_ ∧ _))

end Operation

/-! ### The driver -/

/-- What has been added to a batch. -/
structure BoundRow where
  /-- The number of the call. -/
  call : ℕ
  /-- The operation that has bound it. -/
  op : Operation
  /-- The parameters. -/
  parameters : ℕ → Option Utf16

/-- A prepared statement, with its text. -/
structure SqlStatement where
  /-- The text. -/
  sql : Utf16
  /-- The connection. -/
  connection : ℕ
  /-- The parameters that are set. -/
  parameters : ℕ → Option Utf16
  /-- The batch. -/
  batch : List BoundRow

/-- A statement has been executed. -/
structure Execution where
  /-- The text. -/
  sql : Utf16
  /-- The connection. -/
  connection : ℕ
  /-- The operation that has bound the parameters. -/
  op : Operation
  /-- The parameters. -/
  parameters : ℕ → Option Utf16

/-- What the driver does in one call, or in `cleanup` to one statement. -/
structure Reply where
  /-- Whether `prepareStatement` throws. -/
  prepareStatement : Bool
  /-- Whether `setString` throws for an index. -/
  setString : ℕ → Bool
  /-- Whether `addBatch` throws. -/
  addBatch : Bool
  /-- Whether `executeUpdate` or `executeBatch` throws. -/
  execute : Bool
  /-- What it executes, by the numbers of the calls. -/
  executes : ℕ → Bool
  /-- What it leaves in the batch. -/
  leaves : ℕ → Bool
  /-- Whether `commit` throws. -/
  commit : Bool
  /-- Whether the connection or the statement has been closed. -/
  isClosed : Bool

namespace SqlStatement

/-- `setString(index++, value)` for each value, up to the first that throws; and whether none does. -/
def bind (throws : ℕ → Bool) : SqlStatement → ℕ → List Utf16 → SqlStatement × Bool
  | st, _, [] => (st, true)
  | st, index, value :: values =>
    if throws index then (st, false)
    else bind throws { st with parameters := Function.update st.parameters index (some value) } (index + 1) values

/-- It is executed with these parameters. -/
def execution (st : SqlStatement) (row : BoundRow) : Execution := ⟨st.sql, st.connection, row.op, row.parameters⟩

end SqlStatement

/-! ### The client -/

/-- The text of a statement of this type. -/
def DBFlavor.createStatement (flavor : DBFlavor) (type : StatementType) : Utf16 :=
  if type.type = .update then flavor.createUpdateStatement type else flavor.createInsertStatement type

/-- A client, and what has been executed. -/
structure SqlClient where
  /-- `cachedStatements`. -/
  cachedStatements : AList fun _ : StatementType => SqlStatement
  /-- `numRowsInBatch`. -/
  numRowsInBatch : ℤ
  /-- How many calls there have been. -/
  calls : ℕ
  /-- What has been executed. -/
  executions : List Execution

namespace SqlClient

/-- A client that has not been used. -/
def initial : SqlClient := ⟨∅, 0, 0, []⟩

/-- A statement of this type is now `st`. -/
def cache (c : SqlClient) (type : StatementType) (st : SqlStatement) : SqlClient :=
  { c with cachedStatements := c.cachedStatements.insert type st }

/-- The statement that is cached for `type`, or a new one; or what the call ends with. -/
def statement (flavor : DBFlavor) (cfg : Config) (c : SqlClient) (type : StatementType) (key : Utf16) (reply : Reply) :
    Except (Except Throwable Status) SqlStatement :=
  match c.cachedStatements.lookup type with
  | some st => .ok st
  | none =>
    match cfg.getShardConnectionByKey key with
    | .error e => .error (.error e)
    | .ok connection =>
      if reply.prepareStatement then .error (.ok .error) else .ok ⟨flavor.createStatement type, connection, fun _ => none, []⟩

/-- `getShardConnectionByKey(key).commit()`: what the call ends with if that throws. -/
def commitShard (cfg : Config) (key : Utf16) (reply : Reply) : Option (Except Throwable Status) :=
  match cfg.getShardConnectionByKey key with
  | .error e => some (.error e)
  | .ok _ => if reply.commit then some (.ok .error) else none

/-- `statement.executeBatch()`. -/
def executeBatch (c : SqlClient) (type : StatementType) (st : SqlStatement) (reply : Reply) : SqlClient :=
  { c with
    cachedStatements := c.cachedStatements.insert type { st with batch := st.batch.filter fun row => reply.leaves row.call }
    executions := c.executions ++ (st.batch.filter fun row => reply.executes row.call).map st.execution }

/-- `statement.executeUpdate()`. -/
def executeUpdate (c : SqlClient) (type : StatementType) (st : SqlStatement) (row : BoundRow) (reply : Reply) : SqlClient :=
  { c.cache type st with executions := c.executions ++ if reply.executes row.call then [st.execution row] else [] }

/-- What `insert` does with a row by the batch API. -/
def insertBatch (cfg : Config) (c : SqlClient) (type : StatementType) (st : SqlStatement) (row : BoundRow) (reply : Reply) :
    Except Throwable Status × SqlClient :=
  if reply.addBatch then (.ok .error, c.cache type st)
  else
    let st := { st with batch := st.batch ++ [row] }
    if cfg.batchSize > 0 then
      let c := { c with numRowsInBatch := asLong (c.numRowsInBatch + 1) }
      if c.numRowsInBatch.tmod cfg.batchSize = 0 then
        let c := c.executeBatch type st reply
        if reply.execute then (.ok .error, c)
        else if st.batch.any fun r => cfg.updateCount r.call ≠ 1 ∧ cfg.updateCount r.call ≠ -2 then (.ok .error, c)
        else if cfg.autoCommit then (.ok .ok, c)
        else ((commitShard cfg row.op.key reply).getD (.ok .ok), c)
      else (.ok .batchedOk, c.cache type st)
    else (.ok .batchedOk, c.cache type st)

/-- What `insert` does with a row without the batch API. -/
def insertNow (cfg : Config) (c : SqlClient) (type : StatementType) (st : SqlStatement) (row : BoundRow) (reply : Reply) :
    Except Throwable Status × SqlClient :=
  let c := c.executeUpdate type st row reply
  let status := if cfg.updateCount row.call = 1 then Status.ok else .unexpectedState
  if reply.execute then (.ok .error, c)
  else if cfg.autoCommit then (.ok status, c)
  else if cfg.batchSize > 0 then
    let c := { c with numRowsInBatch := asLong (c.numRowsInBatch + 1) }
    if c.numRowsInBatch.tmod cfg.batchSize = 0 then ((commitShard cfg row.op.key reply).getD (.ok .ok), c) else (.ok .ok, c)
  else ((commitShard cfg row.op.key reply).getD (.ok status), c)

/-- What `update` does with a row. -/
def updateNow (cfg : Config) (c : SqlClient) (type : StatementType) (st : SqlStatement) (row : BoundRow) (reply : Reply) :
    Except Throwable Status × SqlClient :=
  let c := c.executeUpdate type st row reply
  if reply.execute then (.ok .error, c) else (.ok (if cfg.updateCount row.call = 1 then .ok else .unexpectedState), c)

/-- `insert(tableName, key, values)` or `update(tableName, key, values)`. -/
def call (flavor : DBFlavor) (cfg : Config) (c : SqlClient) (op : Operation) (reply : Reply) : Except Throwable Status × SqlClient :=
  let number := c.calls
  let c := { c with calls := c.calls + 1 }
  match fieldValues op.values.entries with
  | .error e => (.error e, c)
  | .ok (values, _) =>
    let type := op.statementType cfg
    match c.statement flavor cfg type op.key reply with
    | .error r => (r, c)
    | .ok st =>
      match st.bind reply.setString 1 (op.bound values) with
      | (st, false) => (.ok .error, c.cache type st)
      | (st, true) =>
        let row := ⟨number, op, st.parameters⟩
        match op.kind with
        | .insert => if cfg.batchUpdates then c.insertBatch cfg type st row reply else c.insertNow cfg type st row reply
        | .update => c.updateNow cfg type st row reply

/-- The client after some calls. -/
def run (flavor : DBFlavor) (cfg : Config) : SqlClient → List (Operation × Reply) → SqlClient
  | c, [] => c
  | c, (op, reply) :: calls => run flavor cfg (c.call flavor cfg op reply).2 calls

/-- The loop of `cleanup` over the statements, up to the first `executeBatch` that throws. -/
def executeAll (cfg : Config) (replies : StatementType → Reply) : List (Sigma fun _ : StatementType => SqlStatement) → SqlClient → SqlClient
  | [], c => c
  | ⟨type, st⟩ :: statements, c =>
    if ¬ (replies type).isClosed ∧ c.numRowsInBatch.tmod cfg.batchSize ≠ 0 then
      let c := c.executeBatch type st (replies type)
      if (replies type).execute then c else executeAll cfg replies statements c
    else executeAll cfg replies statements c

/-- `cleanup()`: what it does before it closes the connections. -/
def cleanup (cfg : Config) (replies : StatementType → Reply) (c : SqlClient) : SqlClient :=
  if cfg.batchSize > 0 then executeAll cfg replies c.cachedStatements.entries c else c

end SqlClient

/-! ### What is bound -/

theorem length_fieldValues {entries : Entries} {r : List Utf16 × Entries} (h : fieldValues entries = .ok r) : r.1.length = entries.length := by
  induction entries generalizing r with
  | nil =>
    cases h
    rfl
  | cons entry entries ih =>
    obtain ⟨⟨value, it⟩, -, h⟩ := bind_inv h
    obtain ⟨⟨values, entries'⟩, hrest, h⟩ := bind_inv h
    cases h
    exact congrArg (· + 1) (ih hrest)

/-- Binding changes the parameters only. -/
theorem SqlStatement.bind_fst (throws : ℕ → Bool) (values : List Utf16) (st : SqlStatement) (index : ℕ) :
    ∃ parameters, (st.bind throws index values).1 = { st with parameters := parameters } := by
  induction values generalizing st index with
  | nil => exact ⟨st.parameters, rfl⟩
  | cons value values ih =>
    rw [bind]
    split_ifs
    · exact ⟨st.parameters, rfl⟩
    · exact ih { st with parameters := Function.update st.parameters index (some value) } (index + 1)

/-- If nothing throws, the values are bound from `index` on, and the parameters before it are as they were. -/
theorem SqlStatement.parameters_bind {throws : ℕ → Bool} {values : List Utf16} {st st' : SqlStatement} {index : ℕ}
    (h : st.bind throws index values = (st', true)) :
    (∀ k < index, st'.parameters k = st.parameters k) ∧ ∀ j v, values[j]? = some v → st'.parameters (index + j) = some v := by
  induction values generalizing st index with
  | nil =>
    cases h
    exact ⟨fun _ _ => rfl, fun j v hv => by cases hv⟩
  | cons value values ih =>
    rw [bind] at h
    split_ifs at h
    · cases h
    obtain ⟨hbefore, hrest⟩ := ih h
    refine ⟨fun k hk => ?_, fun j v hv => ?_⟩
    · rw [hbefore k (Nat.lt_succ_of_lt hk)]
      exact Function.update_of_ne (Nat.ne_of_lt hk) _ _
    · cases j with
      | zero =>
        cases hv
        rw [Nat.add_zero, hbefore index (Nat.lt_succ_self index)]
        exact Function.update_self index _ _
      | succ j =>
        rw [← Nat.succ_add_eq_add_succ]
        exact hrest j v hv

/-! ### What is executed -/

/-- What an execution assigns to the columns of its statement. -/
def Execution.assigned (e : Execution) (columns : List Utf16) : List (Utf16 × Option Utf16) :=
  columns.zipIdx.map fun c => (c.1, e.parameters (c.2 + 1))

/-- The statement is for the table of the operation, assigns the values to its fields and the key to the primary key, and goes to its shard. -/
def Execution.Right (cfg : Config) (e : Execution) : Prop :=
  ∃ columns values entries, Reads e.sql e.op.table columns ∧ fieldValues e.op.values.entries = .ok (values, entries) ∧
    e.assigned columns = (e.op.assignments values).map (fun a => (a.1, some a.2)) ∧ (e.connection : ℤ) = cfg.getShardIndexByKey e.op.key

/-- A row has been bound by an operation of this type. -/
structure RowOk (cfg : Config) (type : StatementType) (row : BoundRow) : Prop where
  /-- It is of this type. -/
  type : row.op.statementType cfg = type
  /-- Its names are names of fields. -/
  fields : row.op.HasFields
  /-- Its values have been bound. -/
  bound : ∃ values entries, fieldValues row.op.values.entries = .ok (values, entries) ∧
    ∀ j v, (row.op.bound values)[j]? = some v → row.parameters (j + 1) = some v

/-- A statement has been made for this type. -/
structure StatementOk (flavor : DBFlavor) (cfg : Config) (type : StatementType) (st : SqlStatement) : Prop where
  /-- Its text is of this type. -/
  sql : st.sql = flavor.createStatement type
  /-- Its connection is that of the shard. -/
  connection : (st.connection : ℤ) = type.shardIndex
  /-- So is what is in its batch. -/
  batch : ∀ row ∈ st.batch, RowOk cfg type row

/-- Binding by position is binding by name. -/
theorem zipIdx_map_eq {columns values : List Utf16} {parameters : ℕ → Option Utf16} (hlen : columns.length = values.length)
    (h : ∀ j v, values[j]? = some v → parameters (j + 1) = some v) :
    (columns.zipIdx.map fun c => (c.1, parameters (c.2 + 1))) = (columns.zip values).map fun a => (a.1, some a.2) := by
  refine List.ext_getElem (by simp [hlen]) fun j hj hj' => ?_
  have hv : j < values.length := by simpa [hlen] using hj
  simp [h j values[j] (List.getElem?_eq_getElem hv)]

theorem Operation.assignments_eq {op : Operation} {values : List Utf16} (hlen : values.length = op.fields.length) :
    op.assignments values = op.columns.zip (op.bound values) := by
  rw [assignments, columns, bound]
  cases op.kind with
  | insert => rfl
  | update =>
    show op.fields.zip values ++ [(primaryKey, op.key)] = (op.fields ++ [primaryKey]).zip (values ++ [op.key])
    rw [List.zip_append hlen.symm]
    rfl

/-- The text for the type of an operation is for its table and its columns. -/
theorem Operation.reads {op : Operation} (h : op.HasFields) (flavor : DBFlavor) (cfg : Config) :
    Reads (flavor.createStatement (op.statementType cfg)) op.table op.columns := by
  obtain ⟨hne, hnames⟩ := h
  have hlen : op.values.entries.length = op.fields.length := (List.length_map _).symm
  rw [DBFlavor.createStatement, columns]
  cases hkind : op.kind with
  | insert =>
    rw [if_neg (by simp [statementType, hkind])]
    exact reads_createInsertStatement flavor hne rfl hlen
  | update =>
    rw [if_pos (by simp [statementType, hkind])]
    exact reads_createUpdateStatement flavor hne hnames rfl

/-- **A row that is executed on a statement of its type is right.** -/
theorem StatementOk.right {flavor : DBFlavor} {cfg : Config} {type : StatementType} {st : SqlStatement} (h : StatementOk flavor cfg type st)
    {row : BoundRow} (hrow : RowOk cfg type row) : (st.execution row).Right cfg := by
  obtain ⟨htype, hfields, values, entries, hvalues, hbound⟩ := hrow
  have hlen : values.length = row.op.fields.length := (length_fieldValues hvalues).trans (List.length_map _).symm
  refine ⟨row.op.columns, values, entries, ?_, hvalues, ?_, ?_⟩
  · show Reads st.sql row.op.table row.op.columns
    rw [h.sql, ← htype]
    exact row.op.reads hfields flavor cfg
  · show (st.execution row).assigned row.op.columns = (row.op.assignments values).map fun a => (a.1, some a.2)
    rw [Operation.assignments_eq hlen]
    refine zipIdx_map_eq ?_ hbound
    rw [Operation.columns, Operation.bound]
    cases row.op.kind <;> simp [hlen]
  · show (st.connection : ℤ) = cfg.getShardIndexByKey row.op.key
    rw [h.connection, ← htype]
    rfl

/-! ### Runs -/

namespace SqlClient

variable {flavor : DBFlavor} {cfg : Config}

/-- **The invariant**: what is cached is in order, and what has been executed was right. -/
structure Ok (flavor : DBFlavor) (cfg : Config) (c : SqlClient) : Prop where
  /-- What is cached for a type has been made for it. -/
  cached : ∀ type st, c.cachedStatements.lookup type = some st → StatementOk flavor cfg type st
  /-- What has been executed was right. -/
  executed : ∀ e ∈ c.executions, e.Right cfg

theorem ok_initial : Ok flavor cfg initial :=
  ⟨fun type st h => (by cases h), fun _ he => absurd he List.not_mem_nil⟩

/-- Caching a statement. -/
theorem Ok.cache {c : SqlClient} (h : Ok flavor cfg c) {type : StatementType} {st : SqlStatement} (hst : StatementOk flavor cfg type st) :
    Ok flavor cfg (c.cache type st) := by
  refine ⟨fun type' st' hlookup => ?_, h.executed⟩
  rw [SqlClient.cache] at hlookup
  by_cases heq : type' = type
  · rw [heq, AList.lookup_insert] at hlookup
    rw [heq, ← Option.some.inj hlookup]
    exact hst
  · rw [AList.lookup_insert_ne heq] at hlookup
    exact h.cached type' st' hlookup

/-- The counters do not matter. -/
theorem Ok.count {c : SqlClient} (h : Ok flavor cfg c) (numRowsInBatch : ℤ) (calls : ℕ) :
    Ok flavor cfg { c with numRowsInBatch := numRowsInBatch, calls := calls } := ⟨h.cached, h.executed⟩

/-- Executing rows of a statement. -/
theorem Ok.execute {c : SqlClient} (h : Ok flavor cfg c) {type : StatementType} {st : SqlStatement} (hst : StatementOk flavor cfg type st)
    {rows : List BoundRow} (hrows : ∀ row ∈ rows, RowOk cfg type row) :
    Ok flavor cfg { c with executions := c.executions ++ rows.map st.execution } := by
  refine ⟨h.cached, fun e he => ?_⟩
  rcases List.mem_append.mp he with he | he
  · exact h.executed e he
  · obtain ⟨row, hrow, rfl⟩ := List.mem_map.mp he
    exact hst.right (hrows row hrow)

theorem Ok.executeBatch {c : SqlClient} (h : Ok flavor cfg c) {type : StatementType} {st : SqlStatement} (hst : StatementOk flavor cfg type st)
    (reply : Reply) : Ok flavor cfg (c.executeBatch type st reply) := by
  have hleft : StatementOk flavor cfg type { st with batch := st.batch.filter fun row => reply.leaves row.call } :=
    ⟨hst.sql, hst.connection, fun row hrow => hst.batch row (List.mem_of_mem_filter hrow)⟩
  exact (h.execute hst fun row hrow => hst.batch row (List.mem_of_mem_filter hrow)).cache hleft

theorem Ok.executeUpdate {c : SqlClient} (h : Ok flavor cfg c) {type : StatementType} {st : SqlStatement} (hst : StatementOk flavor cfg type st)
    {row : BoundRow} (hrow : RowOk cfg type row) (reply : Reply) : Ok flavor cfg (c.executeUpdate type st row reply) := by
  rw [SqlClient.executeUpdate]
  split_ifs
  · exact (h.cache hst).execute hst fun r hr => (List.mem_singleton.mp hr) ▸ hrow
  · have hnone : ∀ r ∈ ([] : List BoundRow), RowOk cfg type r := fun _ hr => absurd hr List.not_mem_nil
    exact (h.cache hst).execute hst hnone

theorem Ok.insertBatch {c : SqlClient} (h : Ok flavor cfg c) {type : StatementType} {st : SqlStatement} (hst : StatementOk flavor cfg type st)
    {row : BoundRow} (hrow : RowOk cfg type row) (reply : Reply) : Ok flavor cfg (c.insertBatch cfg type st row reply).2 := by
  have hadded : StatementOk flavor cfg type { st with batch := st.batch ++ [row] } := by
    refine ⟨hst.sql, hst.connection, fun r hr => ?_⟩
    rcases List.mem_append.mp hr with hr | hr
    · exact hst.batch r hr
    · exact (List.mem_singleton.mp hr) ▸ hrow
  have hcount := h.count (asLong (c.numRowsInBatch + 1)) c.calls
  unfold SqlClient.insertBatch
  dsimp only
  split_ifs
  · exact h.cache hst
  · exact hcount.executeBatch hadded reply
  · exact hcount.executeBatch hadded reply
  · exact hcount.executeBatch hadded reply
  · exact hcount.executeBatch hadded reply
  · exact hcount.cache hadded
  · exact h.cache hadded

theorem Ok.insertNow {c : SqlClient} (h : Ok flavor cfg c) {type : StatementType} {st : SqlStatement} (hst : StatementOk flavor cfg type st)
    {row : BoundRow} (hrow : RowOk cfg type row) (reply : Reply) : Ok flavor cfg (c.insertNow cfg type st row reply).2 := by
  have hexecuted := h.executeUpdate hst hrow reply
  have hcount := hexecuted.count (asLong ((c.executeUpdate type st row reply).numRowsInBatch + 1)) (c.executeUpdate type st row reply).calls
  unfold SqlClient.insertNow
  dsimp only
  split_ifs <;> first | exact hexecuted | exact hcount

theorem Ok.updateNow {c : SqlClient} (h : Ok flavor cfg c) {type : StatementType} {st : SqlStatement} (hst : StatementOk flavor cfg type st)
    {row : BoundRow} (hrow : RowOk cfg type row) (reply : Reply) : Ok flavor cfg (c.updateNow cfg type st row reply).2 := by
  have hexecuted := h.executeUpdate hst hrow reply
  unfold SqlClient.updateNow
  dsimp only
  split_ifs <;> exact hexecuted

theorem Ok.statement {c : SqlClient} (h : Ok flavor cfg c) {op : Operation} {st : SqlStatement} {reply : Reply}
    (hst : c.statement flavor cfg (op.statementType cfg) op.key reply = .ok st) : StatementOk flavor cfg (op.statementType cfg) st := by
  rw [SqlClient.statement] at hst
  cases hlookup : c.cachedStatements.lookup (op.statementType cfg) with
  | some st' =>
    rw [hlookup] at hst
    cases hst
    exact h.cached _ _ hlookup
  | none =>
    rw [hlookup, Config.getShardConnectionByKey] at hst
    dsimp only at hst
    by_cases hshard : 0 ≤ cfg.getShardIndexByKey op.key ∧ cfg.getShardIndexByKey op.key < cfg.conns
    · rw [if_pos hshard] at hst
      dsimp only at hst
      split_ifs at hst
      cases hst
      exact ⟨rfl, Int.toNat_of_nonneg hshard.1, fun _ hrow => absurd hrow List.not_mem_nil⟩
    · rw [if_neg hshard] at hst
      cases hst

/-- **A call keeps the invariant.** -/
theorem Ok.call {c : SqlClient} (h : Ok flavor cfg c) {op : Operation} (hop : op.HasFields) (reply : Reply) :
    Ok flavor cfg (c.call flavor cfg op reply).2 := by
  have hcount : Ok flavor cfg { c with calls := c.calls + 1 } := h.count c.numRowsInBatch (c.calls + 1)
  unfold SqlClient.call
  dsimp only
  cases hvalues : fieldValues op.values.entries with
  | error e => exact hcount
  | ok r =>
    dsimp only
    cases hstatement : SqlClient.statement flavor cfg { c with calls := c.calls + 1 } (op.statementType cfg) op.key reply with
    | error e => exact hcount
    | ok st =>
      have hst := hcount.statement hstatement
      obtain ⟨parameters, hfst⟩ := SqlStatement.bind_fst reply.setString (op.bound r.1) st 1
      dsimp only
      rcases hbind : st.bind reply.setString 1 (op.bound r.1) with ⟨st', all⟩
      rw [hbind] at hfst
      have hst' : StatementOk flavor cfg (op.statementType cfg) st' := by
        rw [show st' = { st with parameters := parameters } from hfst]
        exact ⟨hst.sql, hst.connection, hst.batch⟩
      cases all with
      | false => exact hcount.cache hst'
      | true =>
        have hrow : RowOk cfg (op.statementType cfg) ⟨c.calls, op, st'.parameters⟩ := by
          refine ⟨rfl, hop, r.1, r.2, hvalues, fun j v hv => ?_⟩
          rw [Nat.add_comm]
          exact (SqlStatement.parameters_bind hbind).2 j v hv
        dsimp only
        cases op.kind with
        | insert =>
          dsimp only
          split_ifs
          · exact hcount.insertBatch hst' hrow reply
          · exact hcount.insertNow hst' hrow reply
        | update => exact hcount.updateNow hst' hrow reply

theorem Ok.run {c : SqlClient} (h : Ok flavor cfg c) {calls : List (Operation × Reply)} (hcalls : ∀ call ∈ calls, call.1.HasFields) :
    Ok flavor cfg (c.run flavor cfg calls) := by
  induction calls generalizing c with
  | nil => exact h
  | cons call calls ih =>
    exact ih (h.call (hcalls call List.mem_cons_self) call.2) fun d hd => hcalls d (List.mem_cons_of_mem call hd)

theorem Ok.executeAll {c : SqlClient} (h : Ok flavor cfg c) (replies : StatementType → Reply) {statements : List (Sigma fun _ : StatementType => SqlStatement)}
    (hstatements : ∀ s ∈ statements, StatementOk flavor cfg s.1 s.2) : Ok flavor cfg (executeAll cfg replies statements c) := by
  induction statements generalizing c with
  | nil => exact h
  | cons s statements ih =>
    have hexecuted := h.executeBatch (hstatements s List.mem_cons_self) (replies s.1)
    have hrest : ∀ s ∈ statements, StatementOk flavor cfg s.1 s.2 := fun t ht => hstatements t (List.mem_cons_of_mem s ht)
    rw [SqlClient.executeAll]
    split_ifs
    · exact hexecuted
    · exact ih hexecuted hrest
    · exact ih h hrest

theorem Ok.cleanup {c : SqlClient} (h : Ok flavor cfg c) (replies : StatementType → Reply) : Ok flavor cfg (c.cleanup cfg replies) := by
  rw [SqlClient.cleanup]
  split_ifs
  · exact h.executeAll replies fun s hs => h.cached s.1 s.2 (AList.mem_lookup_iff.mpr hs)
  · exact h

/-- **Whatever is executed is right**: it is for the table of its operation, assigns the values to the fields and the key to the primary key, and goes to
the shard of the key. -/
theorem executed_right (flavor : DBFlavor) (cfg : Config) {calls : List (Operation × Reply)} (hcalls : ∀ call ∈ calls, call.1.HasFields)
    (replies : StatementType → Reply) : ∀ e ∈ ((initial.run flavor cfg calls).cleanup cfg replies).executions, e.Right cfg :=
  ((ok_initial.run hcalls).cleanup replies).executed

set_option maxRecDepth 4000 in
/-- An insert and an update of one field, by the Phoenix flavor. -/
theorem executed_right_two : ∃ (cfg : Config) (reply : Reply) (insert update : Operation), ∃ c, c =
    (initial.run .phoenix cfg [(insert, reply), (update, reply)]).cleanup cfg (fun _ => reply) ∧ c.executions.length = 2 ∧
      ∀ e ∈ c.executions, e.Right cfg := by
  obtain ⟨cfg, hcfg⟩ : ∃ cfg : Config, cfg = ⟨-1, true, false, 1, Nat.one_pos, fun _ => 1⟩ := ⟨_, rfl⟩
  obtain ⟨reply, hreply⟩ : ∃ reply : Reply, reply = ⟨false, fun _ => false, false, false, fun _ => true, fun _ => false, false, false⟩ := ⟨_, rfl⟩
  obtain ⟨insert, hinsert⟩ : ∃ op : Operation, op = ⟨.insert, [0x74], [0x6B], AList.singleton [0x66] (.string (.ofString [0x61]))⟩ := ⟨_, rfl⟩
  obtain ⟨update, hupdate⟩ : ∃ op : Operation, op = ⟨.update, [0x74], [0x6B], AList.singleton [0x66] (.string (.ofString [0x62]))⟩ := ⟨_, rfl⟩
  have hcalls : ∀ call ∈ [(insert, reply), (update, reply)], call.1.HasFields := by
    rw [hinsert, hupdate, hreply]
    exact List.forall_mem_cons.mpr ⟨by decide, List.forall_mem_singleton.mpr (by decide)⟩
  refine ⟨cfg, reply, insert, update, _, rfl, ?_, executed_right .phoenix cfg hcalls fun _ => reply⟩
  rw [hcfg, hreply, hinsert, hupdate]
  decide +kernel

end SqlClient

end YcsbIvs.Jdbc
