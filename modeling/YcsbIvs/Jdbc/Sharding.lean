import YcsbIvs.Jdbc.Parameters
import YcsbIvs.Jdbc.Shards
import YcsbIvs.Jdbc.Tables

/-!
# The JDBC binding refines one database

`JdbcDBClient` with autocommit and without the batch API, over any number of databases that have the same tables. Each operation goes to the
database of its key: it looks its statement up or prepares it on that connection, sets the parameters, which may have been set before, and
executes it (`ShardedClient.request`).

**Together the databases are one** (`sharded_refines`): whatever the operations on keys that have a connection, the client answers as if
there were one database (`oneRequest`) of which each connection has its part, except that a scan sees only the rows on the connection of its
start key. With one connection it sees them all (`single_refines`).

An `INSERT` or `UPDATE` has to be of some fields, with names that have no commas and are not empty; and no `UPDATE` may be of the primary
key, which would leave the row on the connection of the key that it had.
-/

namespace YcsbIvs.Jdbc

open YcsbIvs.Foundations YcsbIvs.Core

/-! ### Operations -/

/-- A call of `DB`. -/
inductive Request where
  /-- `read(tableName, key, fields, result)`. -/
  | read (table key : Utf16) (fields : Option (List Utf16))
  /-- `scan(tableName, startKey, recordcount, fields, result)`. -/
  | scan (table startKey : Utf16) (recordcount : ℤ) (fields : Option (List Utf16))
  /-- `update(tableName, key, values)`. -/
  | update (table key : Utf16) (values : Values Utf16)
  /-- `insert(tableName, key, values)`. -/
  | insert (table key : Utf16) (values : Values Utf16)
  /-- `delete(tableName, key)`. -/
  | delete (table key : Utf16)

/-- The key that it is for. -/
def Request.key : Request → Utf16
  | .read _ key _ | .scan _ key _ _ | .update _ key _ | .insert _ key _ | .delete _ key => key

/-- Its table. -/
def Request.table : Request → Utf16
  | .read table _ _ | .scan table _ _ _ | .update table _ _ | .insert table _ _ | .delete table _ => table

/-- The type of its statement. -/
def Request.statementType (cfg : Config) : Request → StatementType
  | .read table key _ => ⟨.read, table, 1, [], cfg.getShardIndexByKey key⟩
  | .scan table startKey _ _ => ⟨.scan, table, 1, [], cfg.getShardIndexByKey startKey⟩
  | .update table key values => ⟨.update, table, values.entries.length, fieldKeys values.entries, cfg.getShardIndexByKey key⟩
  | .insert table key values => ⟨.insert, table, values.entries.length, fieldKeys values.entries, cfg.getShardIndexByKey key⟩
  | .delete table key => ⟨.delete, table, 1, [], cfg.getShardIndexByKey key⟩

/-- What an operation returns, and what it has put into each map of `result`. -/
structure Answer where
  /-- The status. -/
  status : Status
  /-- The maps, with what has been put into them, in order. -/
  result : List (List (Utf16 × Option Utf16))

/-- The loop over the fields of a row, up to the first that throws; and whether none does. -/
def getStrings (columns : List Utf16) (row : TableRow) : List Utf16 → List (Utf16 × Option Utf16) × Bool
  | [] => ([], true)
  | field :: fields =>
    match getString columns row field with
    | none => ([], false)
    | some value => ((field, value) :: (getStrings columns row fields).1, (getStrings columns row fields).2)

/-- What `read` makes of the rows. -/
def readRows (columns : List Utf16) (rows : List TableRow) (fields : Option (List Utf16)) : Answer :=
  match rows with
  | [] => ⟨.notFound, [[]]⟩
  | row :: _ =>
    match fields with
    | none => ⟨.ok, [[]]⟩
    | some fields =>
      match getStrings columns row fields with
      | (result, true) => ⟨.ok, [result]⟩
      | (result, false) => ⟨.error, [result]⟩

/-- The loop of `scan` over the rows, for at most `n` of them. A map is added when all its fields have been put into it. -/
def scanRows (columns : List Utf16) (fields : List Utf16) : ℕ → List TableRow → Answer
  | 0, _ | _, [] => ⟨.ok, []⟩
  | n + 1, row :: rows =>
    match getStrings columns row fields with
    | (values, true) => ⟨(scanRows columns fields n rows).status, values :: (scanRows columns fields n rows).result⟩
    | (_, false) => ⟨.error, []⟩

/-- What `scan` makes of the rows. -/
def scanAnswer (columns : List Utf16) (rows : List TableRow) (recordcount : ℤ) : Option (List Utf16) → Answer
  | none => ⟨.ok, []⟩
  | some fields => scanRows columns fields recordcount.toNat rows

/-- What an operation makes of an update count. -/
def ofCount (n : ℤ) : Answer := ⟨if n = 1 then .ok else .unexpectedState, []⟩

/-- What it makes of an `SQLException`. -/
def sqlException : Answer := ⟨.error, []⟩

/-- What an operation makes of what its statement gives. -/
def Request.answer (r : Request) : Option Executed → Answer
  | none => match r with
    | .read .. => ⟨.error, [[]]⟩
    | _ => sqlException
  | some (.count n) => ofCount n
  | some (.rows columns rows) => match r with
    | .read _ _ fields => readRows columns rows fields
    | .scan _ _ recordcount fields => scanAnswer columns rows recordcount fields
    | _ => sqlException

/-! ### The client -/

/-- A statement that has been prepared. -/
structure Prepared where
  /-- What has been prepared. -/
  sql : Sql
  /-- Its connection. -/
  connection : ℕ
  /-- The parameters that have been set. -/
  parameters : Parameters

/-- The client, and the databases that it is connected to. -/
structure ShardedClient where
  /-- `cachedStatements`. -/
  cachedStatements : AList fun _ : StatementType => Prepared
  /-- The database of each connection. -/
  shards : ℕ → Tables

/-- `setString(index++, value)` for each value. -/
def setStrings : Parameters → ℕ → List Utf16 → Parameters
  | p, _, [] => p
  | p, index, value :: values => setStrings (Function.update p index (some (.string value))) (index + 1) values

/-- The strings of its values, if they can be read. -/
def Request.strings : Request → Except Throwable (List Utf16)
  | .update _ _ values | .insert _ _ values => (fieldValues values.entries).map Prod.fst
  | _ => .ok []

/-- The parameters after an operation has set its own. -/
def Request.bind (d : Dialect) (p : Parameters) (values : List Utf16) : Request → Parameters
  | .read _ key _ | .delete _ key => setStrings p 1 [key]
  | .scan _ startKey recordcount _ =>
    if d.sqlserverScans then Function.update (Function.update p 1 (some (.int recordcount))) 2 (some (.string startKey))
    else Function.update (Function.update p 1 (some (.string startKey))) 2 (some (.int recordcount))
  | .update _ key _ => setStrings p 1 (values ++ [key])
  | .insert _ key _ => setStrings p 1 (key :: values)

/-- The statement that is cached for the type of an operation, or one that is prepared. -/
def ShardedClient.prepared (cfg : Config) (d : Dialect) (c : ShardedClient) (r : Request) : Except Throwable Prepared :=
  match c.cachedStatements.lookup (r.statementType cfg) with
  | some st => .ok st
  | none => (cfg.getShardConnectionByKey r.key).map fun connection => ⟨d.sql (r.statementType cfg), connection, fun _ => none⟩

/-- Settings with `jdbc.autocommit`, and without `jdbc.batchupdateapi`. -/
structure DirectConfig extends Config where
  /-- `autoCommit`. -/
  autoCommit_eq : autoCommit = true
  /-- `batchUpdates`. -/
  batchUpdates_eq : batchUpdates = false

/-- An operation. One that throws leaves the client as it was. -/
def ShardedClient.request (cfg : DirectConfig) (d : Dialect) (c : ShardedClient) (r : Request) : Except Throwable (Answer × ShardedClient) := do
  let values ← r.strings
  let st ← c.prepared cfg.toConfig d r
  let parameters := r.bind d st.parameters values
  let c := { c with cachedStatements := c.cachedStatements.insert (r.statementType cfg.toConfig) { st with parameters } }
  match st.sql.execute (c.shards st.connection) parameters with
  | none => .ok (r.answer none, c)
  | some (executed, db) => .ok (r.answer (some executed), { c with shards := Function.update c.shards st.connection db })

/-- Operations one after another. -/
def ShardedClient.requests (cfg : DirectConfig) (d : Dialect) : ShardedClient → List Request → List (Except Throwable Answer) × ShardedClient
  | c, [] => ([], c)
  | c, r :: rs =>
    match c.request cfg d r with
    | .error e => (.error e :: (requests cfg d c rs).1, (requests cfg d c rs).2)
    | .ok (answer, c) => (.ok answer :: (requests cfg d c rs).1, (requests cfg d c rs).2)

/-! ### One database -/

/-- What the statement of an operation does in one database, of which a scan sees the keys with `sees`. -/
def Request.perform (sees : Utf16 → Bool) (d : Dialect) (db : Tables) (values : List Utf16) : Request → Option (Executed × Tables)
  | .read table key _ => do
    let t ← db table
    some (.rows t.columns (t.select key), db)
  | .scan table startKey recordcount _ => do
    let t ← db table
    let rows ← (t.part sees).scan startKey recordcount
    some (.rows t.columns rows, db)
  | .update table key fields => do
    let t ← db table
    let (n, t) ← match d.dbFlavor with
      | .default => t.update key (fields.entries.keys.zip values)
      | .phoenix => t.insert true (fields.entries.keys.zip values ++ [(primaryKey, key)])
    some (.count n, Function.update db table (some t))
  | .insert table key fields => do
    let t ← db table
    let (n, t) ← t.insert d.dbFlavor.upserts ((primaryKey, key) :: fields.entries.keys.zip values)
    some (.count n, Function.update db table (some t))
  | .delete table key => do
    let t ← db table
    some (.count (t.delete key).1, Function.update db table (some (t.delete key).2))

/-- The answer of one database, and the database after it. -/
def oneRequest (sees : Utf16 → Utf16 → Bool) (d : Dialect) (db : Tables) (r : Request) : Except Throwable (Answer × Tables) := do
  let values ← r.strings
  match r.perform (sees r.key) d db values with
  | none => .ok (r.answer none, db)
  | some (executed, db) => .ok (r.answer (some executed), db)

/-- The answers of one database to operations one after another. -/
def oneRequests (sees : Utf16 → Utf16 → Bool) (d : Dialect) : Tables → List Request → List (Except Throwable Answer) × Tables
  | db, [] => ([], db)
  | db, r :: rs =>
    match oneRequest sees d db r with
    | .error e => (.error e :: (oneRequests sees d db rs).1, (oneRequests sees d db rs).2)
    | .ok (answer, db) => (.ok answer :: (oneRequests sees d db rs).1, (oneRequests sees d db rs).2)

/-- The keys of a connection. -/
def Config.onShard (cfg : Config) (i : ℕ) (key : Utf16) : Bool := cfg.getShardIndexByKey key = i

/-- Two keys are on the same connection. -/
def Config.together (cfg : Config) (key key' : Utf16) : Bool := cfg.getShardIndexByKey key' = cfg.getShardIndexByKey key

/-- Each connection has its part of the tables. -/
def Parts (cfg : Config) (shards : ℕ → Tables) (db : Tables) : Prop :=
  ∀ i < cfg.conns, ∀ table, shards i table = (db table).map fun t => t.part (cfg.onShard i)

/-- The fields that it has can be assigned to. -/
def Request.CanAssign : Request → Prop
  | .update _ _ values => values.entries.keys ≠ [] ∧ (∀ name ∈ values.entries.keys, IsFieldName name) ∧ primaryKey ∉ values.entries.keys
  | .insert _ _ values => values.entries.keys ≠ [] ∧ ∀ name ∈ values.entries.keys, IsFieldName name
  | _ => True

/-- Its key has a connection, and its fields can be assigned to. -/
structure Request.Ok (cfg : Config) (r : Request) : Prop where
  /-- The key. -/
  key : 0 ≤ cfg.getShardIndexByKey r.key
  /-- The fields. -/
  fields : r.CanAssign

/-! ### What is executed -/

theorem setStrings_of_lt (p : Parameters) {index k : ℕ} (h : k < index) (values : List Utf16) : setStrings p index values k = p k := by
  induction values generalizing p index with
  | nil => rfl
  | cons value values ih =>
    rw [setStrings, ih _ (Nat.lt_succ_of_lt h)]
    exact Function.update_of_ne (Nat.ne_of_lt h) ..

/-- The parameters are the strings that have been set, whatever was set before. -/
theorem stringAt_setStrings {values : List Utf16} {j : ℕ} {value : Utf16} (h : values[j]? = some value) (p : Parameters) (index : ℕ) :
    stringAt (setStrings p index values) (index + j) = some value := by
  induction values generalizing p index j with
  | nil => cases h
  | cons first values ih =>
    cases j with
    | zero =>
      cases h
      have hset : setStrings p index (value :: values) index = some (.string value) :=
        (setStrings_of_lt _ (Nat.lt_succ_self index) values).trans (Function.update_self ..)
      rw [Nat.add_zero index, stringAt, hset]
    | succ j =>
      rw [setStrings, show index + (j + 1) = index + 1 + j by omega]
      exact ih h _ _

theorem stringsFrom_eq {p : Parameters} {index : ℕ} {values : List Utf16} (h : ∀ j value, values[j]? = some value → stringAt p (index + j) = some value) :
    stringsFrom p index values.length = some values := by
  induction values generalizing index with
  | nil => rfl
  | cons value values ih =>
    have hfirst := h 0 value rfl
    have hrest : stringsFrom p (index + 1) values.length = some values :=
      ih fun j v hv => by rw [Nat.succ_add_eq_add_succ]; exact h (j + 1) v hv
    rw [Nat.add_zero] at hfirst
    rw [List.length_cons, stringsFrom, hfirst, hrest]
    rfl

/-- The first of the strings that have been set. -/
theorem stringsFrom_setStrings (p : Parameters) (index : ℕ) (values rest : List Utf16) :
    stringsFrom (setStrings p index (values ++ rest)) index values.length = some values :=
  stringsFrom_eq fun j value hj => stringAt_setStrings (by
    rw [List.getElem?_append_left (List.getElem?_eq_some_iff.mp hj).1]
    exact hj) p index

/-- The names come out of the commas again. -/
theorem splitOn_fieldKeys {values : Values Utf16} (hne : values.entries.keys ≠ []) (h : ∀ name ∈ values.entries.keys, IsFieldName name) :
    (fieldKeys values.entries).splitOn 0x2C = values.entries.keys :=
  List.splitOn_intercalate _ (fun name hname => (h name hname).2) hne

section Execute

variable {cfg : Config} {d : Dialect} {r : Request} {values : List Utf16}

/-- There are as many values as fields. -/
theorem length_strings (h : r.strings = .ok values) : match r with
    | .update _ _ fields | .insert _ _ fields => values.length = fields.entries.keys.length
    | _ => True := by
  cases r with
  | update table key fields =>
    obtain ⟨r, hr, rfl⟩ := map_inv h
    dsimp only
    rw [length_fieldValues hr, List.keys, List.length_map]
  | insert table key fields =>
    obtain ⟨r, hr, rfl⟩ := map_inv h
    dsimp only
    rw [length_fieldValues hr, List.keys, List.length_map]
  | read | scan | delete => trivial

/-- **What is executed** is what the operation is to do, in the database of its connection. -/
theorem execute_eq (hok : r.Ok cfg) (hvalues : r.strings = .ok values) (db : Tables) (p : Parameters) :
    (d.sql (r.statementType cfg)).execute db (r.bind d p values) = r.perform (fun _ => true) d db values := by
  have hlength := length_strings hvalues
  have hfields := hok.fields
  cases r with
  | read table key fields =>
    have hkey : stringAt (setStrings p 1 [key]) 1 = some key := stringAt_setStrings (j := 0) rfl p 1
    simp only [Dialect.sql, Request.statementType, Request.bind, Sql.execute, Request.perform, hkey, Option.bind_eq_bind, Option.bind_some]
  | delete table key =>
    have hkey : stringAt (setStrings p 1 [key]) 1 = some key := stringAt_setStrings (j := 0) rfl p 1
    simp only [Dialect.sql, Request.statementType, Request.bind, Sql.execute, Request.perform, hkey, Option.bind_eq_bind, Option.bind_some]
  | scan table startKey recordcount fields =>
    have hbound : ∀ d : Dialect, stringAt (Request.bind d p values (.scan table startKey recordcount fields)) (if d.sqlserverScans then 2 else 1) = some startKey ∧
        intAt (Request.bind d p values (.scan table startKey recordcount fields)) (if d.sqlserverScans then 1 else 2) = some recordcount := by
      intro d
      rw [Request.bind]
      cases d.sqlserverScans <;> exact ⟨rfl, rfl⟩
    obtain ⟨hstart, hcount⟩ := hbound d
    simp only [Dialect.sql, Request.statementType, Sql.execute, Request.perform, hstart, hcount, Table.part_true, Option.bind_eq_bind, Option.bind_some]
  | update table key fields =>
    obtain ⟨hne, hnames, -⟩ := hfields
    have hsplit : splitCommas (fieldKeys fields.entries) = fields.entries.keys := splitCommas_commas hne hnames
    have hstrings : stringsFrom (setStrings p 1 (values ++ [key])) 1 fields.entries.keys.length = some values := by
      rw [← hlength]
      exact stringsFrom_setStrings p 1 values [key]
    have hkey : stringAt (setStrings p 1 (values ++ [key])) (fields.entries.keys.length + 1) = some key := by
      rw [← hlength, Nat.add_comm]
      exact stringAt_setStrings List.getElem?_concat_length p 1
    have hall : stringsFrom (setStrings p 1 (values ++ [key])) 1 (fields.entries.keys.length + 1) = some (values ++ [key]) := by
      have h := stringsFrom_setStrings p 1 (values ++ [key]) []
      rwa [List.append_nil, List.length_append, List.length_singleton, hlength] at h
    rw [Dialect.sql, Request.statementType, Request.bind, Request.perform]
    dsimp only
    rw [hsplit]
    cases d.dbFlavor with
    | default => simp only [Sql.execute, hstrings, hkey, Option.bind_eq_bind, Option.bind_some]
    | phoenix =>
      have hzip : (fields.entries.keys ++ [primaryKey]).zip (values ++ [key]) = fields.entries.keys.zip values ++ [(primaryKey, key)] :=
        List.zip_append hlength.symm
      simp only [Sql.execute, hall, hzip, Option.bind_eq_bind, Option.bind_some]
  | insert table key fields =>
    have hsplit := splitOn_fieldKeys hfields.1 hfields.2
    have hcount : fields.entries.length = fields.entries.keys.length := (List.length_map ..).symm
    have hall : stringsFrom (setStrings p 1 (key :: values)) 1 (fields.entries.keys.length + 1) = some (key :: values) := by
      have h := stringsFrom_setStrings p 1 (key :: values) []
      rwa [List.append_nil, List.length_cons, hlength] at h
    simp only [Dialect.sql, Request.statementType, Request.bind, Sql.execute, Request.perform, hsplit, hcount, hall, List.length_cons, List.zip_cons_cons,
      Option.bind_eq_bind, Option.bind_some, if_true]

end Execute

/-! ### Parts -/

section Parts

variable {cfg : Config} {d : Dialect} {shards : ℕ → Tables} {db : Tables} {table key : Utf16} {t t' : Table} {i : ℕ}

theorem onShard_self (hi : (i : ℤ) = cfg.getShardIndexByKey key) : cfg.onShard i key = true := decide_eq_true hi.symm

theorem onShard_of_ne {j : ℕ} (hi : (i : ℤ) = cfg.getShardIndexByKey key) (hj : j ≠ i) : cfg.onShard j key = false :=
  decide_eq_false fun h => hj (Int.ofNat_inj.mp (h.symm.trans hi.symm))

/-- The keys of the connection of a key. -/
theorem together_eq (hi : (i : ℤ) = cfg.getShardIndexByKey key) : cfg.together key = cfg.onShard i := by
  funext key'
  rw [Config.together, Config.onShard, hi]

/-- A change of the rows of one connection. -/
theorem Parts.update (h : Parts cfg shards db) (ht : db table = some t) (hothers : ∀ j ≠ i, t'.part (cfg.onShard j) = t.part (cfg.onShard j)) :
    Parts cfg (Function.update shards i (Function.update (shards i) table (some (t'.part (cfg.onShard i))))) (Function.update db table (some t')) := by
  intro j hj table'
  by_cases htable : table' = table
  · subst htable
    rw [Function.update_self, Option.map_some]
    by_cases hji : j = i
    · subst hji
      rw [Function.update_self, Function.update_self]
    · rw [Function.update_of_ne hji, h j hj, ht, Option.map_some, hothers j hji]
  · rw [Function.update_of_ne htable, ← h j hj]
    by_cases hji : j = i
    · subst hji
      rw [Function.update_self, Function.update_of_ne htable]
    · rw [Function.update_of_ne hji]

/-- What the database of a connection gives, and what all give together, when a row of this connection may change. -/
def Agree (cfg : Config) (shards : ℕ → Tables) (i : ℕ) : Option (Executed × Tables) → Option (Executed × Tables) → Prop
  | none, none => True
  | some (e, dbi), some (e', db') => e = e' ∧ Parts cfg (Function.update shards i dbi) db'
  | _, _ => False

/-- **A change of a row** of this connection. -/
theorem Parts.agree_change (h : Parts cfg shards db) (ht : db table = some t) {x : Option (ℤ × Table)}
    (hothers : ∀ n t', x = some (n, t') → ∀ j ≠ i, t'.part (cfg.onShard j) = t.part (cfg.onShard j)) :
    Agree cfg shards i ((x.map fun r => (r.1, r.2.part (cfg.onShard i))).bind fun r => some (.count r.1, Function.update (shards i) table (some r.2)))
      (x.bind fun r => some (.count r.1, Function.update db table (some r.2))) := by
  cases x with
  | none => trivial
  | some r => exact ⟨rfl, h.update ht (hothers r.1 r.2 rfl)⟩

/-- **A query** changes nothing. -/
theorem Parts.agree_query (h : Parts cfg shards db) (e : Executed) : Agree cfg shards i (some (e, shards i)) (some (e, db)) := by
  refine ⟨rfl, ?_⟩
  rwa [Function.update_eq_self]

/-- **An insert** of a key of this connection. -/
theorem Parts.agree_insert (h : Parts cfg shards db) (ht : db table = some t) (hi : (i : ℤ) = cfg.getShardIndexByKey key) (orUpdate : Bool)
    {assigned : List (Utf16 × Utf16)} (hkey : assigned.lookup primaryKey = some key) :
    Agree cfg shards i (((t.part (cfg.onShard i)).insert orUpdate assigned).bind fun r => some (.count r.1, Function.update (shards i) table (some r.2)))
      ((t.insert orUpdate assigned).bind fun r => some (.count r.1, Function.update db table (some r.2))) := by
  rw [Table.insert_part t orUpdate hkey (onShard_self hi)]
  exact h.agree_change ht fun n t' hinsert j hj => Table.insert_part_of_not hkey (onShard_of_ne hi hj) hinsert

/-- **An update** of one. -/
theorem Parts.agree_update (h : Parts cfg shards db) (ht : db table = some t) (hi : (i : ℤ) = cfg.getShardIndexByKey key)
    {assigned : List (Utf16 × Utf16)} (hkey : assigned.lookup primaryKey = none) :
    Agree cfg shards i (((t.part (cfg.onShard i)).update key assigned).bind fun r => some (.count r.1, Function.update (shards i) table (some r.2)))
      ((t.update key assigned).bind fun r => some (.count r.1, Function.update db table (some r.2))) := by
  rw [Table.update_part t hkey (onShard_self hi)]
  exact h.agree_change ht fun n t' hupdate j hj => Table.update_part_of_not hkey (onShard_of_ne hi hj) hupdate

theorem lookup_zip_of_notMem {names values : List Utf16} {name : Utf16} (h : name ∉ names) : (names.zip values).lookup name = none := by
  refine List.lookup_eq_none_iff.mpr fun a ha => ?_
  have hmem := (List.of_mem_zip (a := a.1) (b := a.2) ha).1
  exact bne_iff_ne.mpr fun heq => h (heq ▸ hmem)

/-- **What an operation does** on its connection, it does to all together. -/
theorem Parts.agree (h : Parts cfg shards db) {r : Request} (hok : r.Ok cfg) (hi : (i : ℤ) = cfg.getShardIndexByKey r.key) (values : List Utf16) :
    Agree cfg shards i (r.perform (fun _ => true) d (shards i) values) (r.perform (cfg.together r.key) d db values) := by
  have hlt : i < cfg.conns := by
    have h := getShardIndexByKey_lt cfg r.key
    omega
  have hfields := hok.fields
  have htable := h i hlt r.table
  cases hdb : db r.table with
  | none =>
    rw [hdb, Option.map_none] at htable
    cases r <;> rw [Request.perform, Request.perform] <;> rw [Request.table] at hdb htable <;> rw [hdb, htable] <;> trivial
  | some t =>
    rw [hdb, Option.map_some] at htable
    cases r with
    | read table key fields =>
      rw [Request.table] at hdb htable
      have hself : cfg.onShard i key = true := onShard_self hi
      have hselect : (t.part (cfg.onShard i)).select key = t.select key := by rw [Table.select, Table.select, Table.get_part t hself]
      simp only [Request.perform, hdb, htable, hselect, Option.bind_eq_bind, Option.bind_some]
      exact h.agree_query _
    | scan table startKey recordcount fields =>
      rw [Request.table] at hdb htable
      have htogether : cfg.together (Request.scan table startKey recordcount fields).key = cfg.onShard i := together_eq hi
      simp only [Request.perform, hdb, htable, htogether, Table.part_true, Option.bind_eq_bind, Option.bind_some]
      cases (t.part (cfg.onShard i)).scan startKey recordcount with
      | none => trivial
      | some rows => exact h.agree_query _
    | update table key fields =>
      rw [Request.table] at hdb htable
      simp only [Request.perform, hdb, htable, Option.bind_eq_bind, Option.bind_some]
      have hnone : (fields.entries.keys.zip values).lookup primaryKey = none := lookup_zip_of_notMem hfields.2.2
      cases d.dbFlavor with
      | default => exact h.agree_update hdb hi hnone
      | phoenix =>
        have hkey : (fields.entries.keys.zip values ++ [(primaryKey, key)]).lookup primaryKey = some key := by
          rw [List.lookup_append, hnone]
          rfl
        exact h.agree_insert hdb hi true hkey
    | insert table key fields =>
      rw [Request.table] at hdb htable
      simp only [Request.perform, hdb, htable, Option.bind_eq_bind, Option.bind_some]
      exact h.agree_insert hdb hi d.dbFlavor.upserts List.lookup_cons_self
    | delete table key =>
      rw [Request.table] at hdb htable
      simp only [Request.perform, hdb, htable, Option.bind_eq_bind, Option.bind_some]
      have hself : cfg.onShard i key = true := onShard_self hi
      rw [Table.delete_part t hself]
      exact ⟨rfl, h.update hdb fun j hj => Table.delete_part_of_not t (onShard_of_ne hi hj)⟩

end Parts

/-! ### The client -/

section Client

variable {cfg : Config} {d : Dialect} {c : ShardedClient} {db : Tables} {r : Request}

/-- What is cached for a type has been prepared for it, on its connection. -/
def ShardedClient.OnShards (d : Dialect) (c : ShardedClient) : Prop :=
  ∀ type st, c.cachedStatements.lookup type = some st → st.sql = d.sql type ∧ (st.connection : ℤ) = type.shardIndex

theorem ShardedClient.OnShards.prepared (h : c.OnShards d) (hkey : 0 ≤ cfg.getShardIndexByKey r.key) :
    ∃ st, c.prepared cfg d r = .ok st ∧ st.sql = d.sql (r.statementType cfg) ∧ (st.connection : ℤ) = cfg.getShardIndexByKey r.key := by
  rw [ShardedClient.prepared]
  cases hst : c.cachedStatements.lookup (r.statementType cfg) with
  | some st =>
    obtain ⟨hsql, hconnection⟩ := h _ st hst
    exact ⟨st, rfl, hsql, hconnection.trans (by cases r <;> rfl)⟩
  | none =>
    rcases getShardConnectionByKey_eq cfg r.key with ⟨-, -, hconn⟩ | ⟨hno, -⟩
    · exact ⟨⟨d.sql (r.statementType cfg), (cfg.getShardIndexByKey r.key).toNat, fun _ => none⟩, by rw [hconn]; rfl, rfl, Int.toNat_of_nonneg hkey⟩
    · exact absurd ⟨hkey, getShardIndexByKey_lt cfg r.key⟩ hno

/-- Setting the parameters of a statement leaves it where it is. -/
theorem ShardedClient.OnShards.insert (h : c.OnShards d) {type : StatementType} {st : Prepared} (hsql : st.sql = d.sql type)
    (hconnection : (st.connection : ℤ) = type.shardIndex) (shards : ℕ → Tables) :
    ShardedClient.OnShards d ⟨c.cachedStatements.insert type st, shards⟩ := by
  intro type' st' hst'
  by_cases htype : type' = type
  · subst htype
    rw [AList.lookup_insert, Option.some.injEq] at hst'
    exact hst' ▸ ⟨hsql, hconnection⟩
  · rw [AList.lookup_insert_ne htype] at hst'
    exact h type' st' hst'

/-- The client has its statements on their connections, and its databases are parts of one. -/
structure Refines (cfg : Config) (d : Dialect) (c : ShardedClient) (db : Tables) : Prop where
  /-- The statements. -/
  onShards : c.OnShards d
  /-- The databases. -/
  parts : Parts cfg c.shards db

variable {cfg : DirectConfig}

/-- **One operation.** -/
theorem Refines.request (h : Refines cfg.toConfig d c db) (hok : r.Ok cfg.toConfig) :
    (∃ e, c.request cfg d r = .error e ∧ oneRequest cfg.together d db r = .error e) ∨
      ∃ answer c' db', c.request cfg d r = .ok (answer, c') ∧ oneRequest cfg.together d db r = .ok (answer, db') ∧ Refines cfg.toConfig d c' db' := by
  rw [ShardedClient.request, oneRequest]
  cases hvalues : r.strings with
  | error e => exact .inl ⟨e, rfl, rfl⟩
  | ok values =>
    obtain ⟨⟨sql, connection, parameters⟩, hst, hsql, hconnection⟩ := h.onShards.prepared hok.key
    dsimp only at hsql hconnection
    subst hsql
    rw [bind_ok rfl, bind_ok rfl, bind_ok hst]
    dsimp only
    have hcached : ∀ shards, ShardedClient.OnShards d
        ⟨c.cachedStatements.insert (r.statementType cfg.toConfig) ⟨d.sql (r.statementType cfg.toConfig), connection, r.bind d parameters values⟩, shards⟩ :=
      h.onShards.insert rfl (hconnection.trans (by cases r <;> rfl))
    have hagree := h.parts.agree (d := d) hok hconnection values
    rw [execute_eq hok hvalues]
    generalize r.perform (fun _ => true) d (c.shards connection) values = x at hagree ⊢
    generalize r.perform (cfg.together r.key) d db values = y at hagree ⊢
    cases x with
    | none =>
      cases y with
      | none => exact .inr ⟨_, _, _, rfl, rfl, hcached _, h.parts⟩
      | some y => exact hagree.elim
    | some x =>
      cases y with
      | none => exact hagree.elim
      | some y =>
        obtain ⟨heq, hparts⟩ := hagree
        refine .inr ⟨_, _, _, rfl, ?_, hcached _, hparts⟩
        rw [heq]

/-- **Many operations.** -/
theorem Refines.requests (h : Refines cfg.toConfig d c db) {rs : List Request} (hok : ∀ r ∈ rs, r.Ok cfg.toConfig) :
    (c.requests cfg d rs).1 = (oneRequests cfg.together d db rs).1 ∧ Refines cfg.toConfig d (c.requests cfg d rs).2 (oneRequests cfg.together d db rs).2 := by
  induction rs generalizing c db with
  | nil => exact ⟨rfl, h⟩
  | cons r rs ih =>
    obtain ⟨hr, hrest⟩ := List.forall_mem_cons.mp hok
    rw [ShardedClient.requests, oneRequests]
    rcases h.request hr with ⟨e, hc, hone⟩ | ⟨answer, c', db', hc, hone, h'⟩
    · rw [hc, hone]
      obtain ⟨hanswers, hlast⟩ := ih h hrest
      exact ⟨congrArg (Except.error e :: ·) hanswers, hlast⟩
    · rw [hc, hone]
      obtain ⟨hanswers, hlast⟩ := ih h' hrest
      exact ⟨congrArg (Except.ok answer :: ·) hanswers, hlast⟩

/-- The client that has just been initialised. -/
theorem Refines.start {shards : ℕ → Tables} (h : Parts cfg.toConfig shards db) : Refines cfg.toConfig d ⟨∅, shards⟩ db := by
  refine ⟨fun type st hst => ?_, h⟩
  rw [AList.lookup_empty] at hst
  cases hst

/-- Two connections. -/
def twoConnections : DirectConfig := ⟨⟨-1, true, false, 2, Nat.two_pos, fun _ => 1⟩, rfl, rfl⟩

/-- A table with one column, without rows. -/
def oneTable : Tables := fun table => if table = text "t" then some ⟨[text "f"], .empty⟩ else none

/-- Values for its column. -/
def valueOf (value : String) : Values Utf16 := AList.singleton (text "f") (.string (.ofString (text value)))

/-- Two records are inserted, and those from the first on are looked for. -/
def insertTwoAndScan : List Request :=
  [.insert (text "t") (text "k") (valueOf "a"), .insert (text "t") (text "l") (valueOf "b"), .scan (text "t") (text "k") 10 (some [text "f"])]

/-- On one connection all keys are together. -/
theorem together_of_one {cfg : Config} (h : cfg.conns = 1) : cfg.together = fun _ _ => true := by
  have hindex : ∀ key, cfg.getShardIndexByKey key = 0 := fun key => by
    rw [Config.getShardIndexByKey, h]
    exact Int.tmod_one _
  funext key key'
  rw [Config.together, hindex, hindex, decide_eq_true rfl]

/-- **With one connection** a scan sees all rows. -/
theorem single_refines (hone : cfg.conns = 1) {shards : ℕ → Tables} (h : Parts cfg.toConfig shards db) {rs : List Request} (hok : ∀ r ∈ rs, r.Ok cfg.toConfig) :
    (ShardedClient.requests cfg d ⟨∅, shards⟩ rs).1 = (oneRequests (fun _ _ => true) d db rs).1 := by
  have hstart : Refines cfg.toConfig d ⟨∅, shards⟩ db := Refines.start h
  rw [← together_of_one hone]
  exact (hstart.requests hok).1

end Client

end YcsbIvs.Jdbc
