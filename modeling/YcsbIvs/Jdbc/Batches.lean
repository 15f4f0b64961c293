import YcsbIvs.Jdbc.Client
import Mathlib.Data.List.Count

/-!
# What JDBC batches execute

With the batch API every insert that is answered `OK` or `BATCHED_OK` should be executed,
once, by the end of `cleanup` (`ExecutesOnce`). The counter of rows is one for all
statements, but when it comes to a multiple of the batch size only the statement of that insert
is executed; and `cleanup` executes the others only if the counter does not stand at a
multiple. So rows are lost when it does and some statement has rows left.

`Flushed` says that a row's statement has been executed since, and `Inv` what the
client has executed and what it keeps: a row that is flushed has been executed once, and
any other is once in the batch of its statement. From it comes exactly when every row is
executed (`executesOnce_iff`).
-/

namespace YcsbIvs.Jdbc

open YcsbIvs.Foundations YcsbIvs.Core

open JdbcDBClient

/-- The statement a call adds a row to, if it adds one. -/
def rowType (cfg : Config) (call : Call) : Option StatementType :=
  match fieldValues call.values.entries, cfg.getShardConnectionByKey call.key with
  | .ok _, .ok _ => some (insertType cfg call.table call.key call.values.entries)
  | _, _ => none

/-- The rows that calls from number `n` on add, each with its call and its statement. -/
def rows (cfg : Config) : ℕ → List Call → List (ℕ × StatementType)
  | _, [] => []
  | n, call :: calls =>
    match rowType cfg call with
    | some type => (n, type) :: rows cfg (n + 1) calls
    | none => rows cfg (n + 1) calls

/-- Whether an answer is `OK` or `BATCHED_OK`. -/
def accepts : Except Throwable Status → Bool
  | .ok st => st.isOk
  | .error _ => false

/-- The calls that are answered `OK` or `BATCHED_OK`. -/
def accepted : ℕ → List (Except Throwable Status) → List ℕ
  | _, [] => []
  | n, answer :: answers => if accepts answer then n :: accepted (n + 1) answers else accepted (n + 1) answers

/-- Each call that is accepted has its row executed, once. -/
def ExecutesOnce (accepted executed : List ℕ) : Prop := ∀ n ∈ accepted, executed.count n = 1

/-- The counter stands at a multiple of the batch size after `n` rows. -/
def AtMultiple (cfg : Config) (n : ℕ) : Prop := (asLong n).tmod cfg.batchSize = 0

instance (cfg : Config) (n : ℕ) : Decidable (AtMultiple cfg n) := inferInstanceAs (Decidable (_ = _))

/-- **Row number `k` is flushed**: it, or a later row of its statement, brings the counter to a
multiple of the batch size. -/
def Flushed (cfg : Config) (rows : List (ℕ × StatementType)) (k : ℕ) : Prop :=
  ∃ j, k ≤ j ∧ AtMultiple cfg (j + 1) ∧ ∃ r ∈ rows[k]?, ∃ r' ∈ rows[j]?, r'.2 = r.2

/-! ### One call -/

/-- The calls whose rows are in the batch of a statement. -/
def batched (c : JdbcDBClient) (type : StatementType) : List ℕ :=
  match c.cachedStatements.lookup type with
  | some st => st.batch.map Row.call
  | none => []

/-- What an insert that adds a row comes to. -/
structure Adds (cfg : Config) (c c' : JdbcDBClient) (type : StatementType) (status : Status) : Prop where
  /-- The call is counted. -/
  inserts : c'.inserts = c.inserts + 1
  /-- So is the row. -/
  numRows : c'.numRowsInBatch = asLong (c.numRowsInBatch + 1)
  /-- At a multiple of the batch size the statement is executed. -/
  executes : c'.numRowsInBatch.tmod cfg.batchSize = 0 →
    c'.executed = c.executed ++ (batched c type ++ [c.inserts]) ∧ batched c' type = []
  /-- Else the row waits. -/
  waits : c'.numRowsInBatch.tmod cfg.batchSize ≠ 0 →
    c'.executed = c.executed ∧ batched c' type = batched c type ++ [c.inserts] ∧ status = .batchedOk
  /-- The other statements are left alone. -/
  other : ∀ type', type' ≠ type → batched c' type' = batched c type'
  /-- No connection is closed. -/
  isClosed : ∀ i, c'.isClosed i = c.isClosed i
  /-- Nothing is cached but the statement. -/
  cached : ∀ type', type' ∈ c'.cachedStatements → type' = type ∨ type' ∈ c.cachedStatements

/-- Statements are cached for shards there are. -/
def ShardsExist (cfg : Config) (c : JdbcDBClient) : Prop :=
  ∀ type ∈ c.cachedStatements, 0 ≤ type.shardIndex ∧ type.shardIndex < cfg.conns

theorem batched_insert_self (c : JdbcDBClient) (type : StatementType) (st : PreparedStatement) :
    batched { c with cachedStatements := c.cachedStatements.insert type st } type = st.batch.map Row.call := by
  rw [batched]
  simp only [AList.lookup_insert]

theorem batched_insert_ne (c : JdbcDBClient) {type type' : StatementType} (st : PreparedStatement) (h : type' ≠ type) :
    batched { c with cachedStatements := c.cachedStatements.insert type st } type' = batched c type' := by
  rw [batched, batched]
  simp only [AList.lookup_insert_ne h]

theorem getShardConnectionByKey_eq (cfg : Config) (key : Utf16) :
    (0 ≤ cfg.getShardIndexByKey key ∧ cfg.getShardIndexByKey key < cfg.conns ∧
      cfg.getShardConnectionByKey key = .ok (cfg.getShardIndexByKey key).toNat) ∨
    (¬ (0 ≤ cfg.getShardIndexByKey key ∧ cfg.getShardIndexByKey key < cfg.conns) ∧
      cfg.getShardConnectionByKey key = .error .arrayIndexOutOfBounds) := by
  rw [Config.getShardConnectionByKey]
  split_ifs with h
  · exact .inl ⟨h.1, h.2, rfl⟩
  · exact .inr ⟨h, rfl⟩

theorem batch_setStrings (values : List Utf16) (st : PreparedStatement) (index : ℕ) :
    (st.setStrings index values).batch = st.batch := by
  induction values generalizing st index with
  | nil => rfl
  | cons value values ih => exact ih (st.setString index value) (index + 1)

/-- The calls of the rows that an event executes. -/
theorem executed_append (log events : List Event) (c : JdbcDBClient) :
    ({ c with log := log ++ events } : JdbcDBClient).executed =
      ({ c with log := log } : JdbcDBClient).executed ++ ({ c with log := events } : JdbcDBClient).executed :=
  List.filterMap_append

theorem executed_execute (type : StatementType) (batch : List Row) (c : JdbcDBClient) :
    ({ c with log := batch.map (Event.execute type) } : JdbcDBClient).executed = batch.map Row.call := by
  rw [executed, List.filterMap_map, ← List.filterMap_eq_map]
  rfl

theorem isClosed_append (events : List Event) (c : JdbcDBClient) (i : ℕ) (h : Event.close i ∉ events) :
    ({ c with log := c.log ++ events } : JdbcDBClient).isClosed i = c.isClosed i := by
  rw [isClosed, isClosed, List.any_append, Bool.or_eq_left_iff_imp]
  intro hany
  obtain ⟨e, he, hclose⟩ := List.any_eq_true.mp hany
  cases e with
  | close j =>
    rw [decide_eq_true_eq] at hclose
    exact absurd (hclose ▸ he) h
  | execute => cases hclose
  | commit => cases hclose

theorem executed_executeBatch (c : JdbcDBClient) (type : StatementType) (st : PreparedStatement) :
    (c.executeBatch type st).executed = c.executed ++ st.batch.map Row.call := by
  rw [executeBatch]
  exact (executed_append c.log _ c).trans (congrArg (c.executed ++ ·) (executed_execute type st.batch c))

theorem isClosed_executeBatch (c : JdbcDBClient) (type : StatementType) (st : PreparedStatement) (i : ℕ) :
    (c.executeBatch type st).isClosed i = c.isClosed i := by
  refine isClosed_append (st.batch.map (Event.execute type)) c i fun hmem => ?_
  obtain ⟨row, -, hrow⟩ := List.mem_map.mp hmem
  cases hrow

/-- Committing a shard that has a connection. -/
theorem commitShard_ok {cfg : Config} {key : Utf16} {i : ℕ} (c : JdbcDBClient) (h : cfg.getShardConnectionByKey key = .ok i) :
    ∃ c', c.commitShard cfg key = .ok c' ∧ c'.executed = c.executed ∧ (∀ j, c'.isClosed j = c.isClosed j) ∧
      c'.cachedStatements = c.cachedStatements ∧ c'.numRowsInBatch = c.numRowsInBatch ∧ c'.inserts = c.inserts := by
  rw [commitShard]
  split_ifs
  · exact ⟨c, rfl, rfl, fun _ => rfl, rfl, rfl, rfl⟩
  · rw [h]
    refine ⟨c.commit i, rfl, ?_, fun j => ?_, rfl, rfl, rfl⟩
    · exact (executed_append c.log [.commit i] c).trans (List.append_nil _)
    · exact isClosed_append [.commit i] c j (by simp)

/-- A row that has its statement executed. -/
theorem executeBatch_adds {cfg : Config} {c : JdbcDBClient} {type : StatementType} {st : PreparedStatement}
    (hcalls : st.batch.map Row.call = batched c type ++ [c.inserts]) (status : Status)
    (hflush : (asLong (c.numRowsInBatch + 1)).tmod cfg.batchSize = 0) :
    Adds cfg c (({ c with
      inserts := c.inserts + 1
      cachedStatements := c.cachedStatements.insert type st
      numRowsInBatch := asLong (c.numRowsInBatch + 1) } : JdbcDBClient).executeBatch type st) type status where
  inserts := rfl
  numRows := rfl
  executes _ := ⟨(executed_executeBatch _ type st).trans (congrArg (c.executed ++ ·) hcalls),
    batched_insert_self _ type { st with batch := [] }⟩
  waits h := absurd hflush h
  other _ hne := (batched_insert_ne _ _ hne).trans (batched_insert_ne c st hne)
  isClosed := isClosed_executeBatch _ type st
  cached _ h := by
    rcases (AList.mem_insert _).mp h with h | h
    · exact .inl h
    · exact (AList.mem_insert _).mp h

/-- What is cached, counted and executed is all that matters. -/
theorem Adds.congr {cfg : Config} {c c₁ c₂ : JdbcDBClient} {type : StatementType} {status : Status} (h : Adds cfg c c₁ type status)
    (hexec : c₂.executed = c₁.executed) (hclosed : ∀ i, c₂.isClosed i = c₁.isClosed i)
    (hcached : c₂.cachedStatements = c₁.cachedStatements) (hnum : c₂.numRowsInBatch = c₁.numRowsInBatch)
    (hins : c₂.inserts = c₁.inserts) : Adds cfg c c₂ type status := by
  have hbatched : ∀ type', batched c₂ type' = batched c₁ type' := fun type' => by rw [batched, batched, hcached]
  constructor
  · exact hins.trans h.inserts
  · exact hnum.trans h.numRows
  · rw [hnum, hexec, hbatched]
    exact h.executes
  · rw [hnum, hexec, hbatched]
    exact h.waits
  · exact fun type' hne => (hbatched type').trans (h.other type' hne)
  · exact fun i => (hclosed i).trans (h.isClosed i)
  · rw [hcached]
    exact h.cached

/-- What a row comes to that is added to the batch of its statement. -/
theorem addBatch_adds {cfg : Config} (hb : 0 < cfg.batchSize) {c : JdbcDBClient} {type : StatementType} (st : PreparedStatement)
    (row : Row) {key : Utf16} {i : ℕ} (hconn : cfg.getShardConnectionByKey key = .ok i)
    (hst : st.batch.map Row.call = batched c type) (hrow : row.call = c.inserts) :
    ∃ status c', ({ c with inserts := c.inserts + 1 } : JdbcDBClient).addBatch cfg type st row key = .ok (status, c') ∧
      Adds cfg c c' type status := by
  have hcalls : ({ st with batch := st.batch ++ [row] } : PreparedStatement).batch.map Row.call = batched c type ++ [c.inserts] := by
    rw [List.map_append, hst, List.map_singleton, hrow]
  rw [addBatch]
  dsimp only
  rw [if_pos hb]
  split_ifs with hflush hbad
  · exact ⟨_, _, rfl, executeBatch_adds hcalls .error hflush⟩
  · obtain ⟨c', hc', hexec, hclosed, hcached, hnum, hins⟩ := commitShard_ok (({ c with
      inserts := c.inserts + 1
      cachedStatements := c.cachedStatements.insert type { st with batch := st.batch ++ [row] }
      numRowsInBatch := asLong (c.numRowsInBatch + 1) } : JdbcDBClient).executeBatch type
        { st with batch := st.batch ++ [row] }) hconn
    rw [hc']
    exact ⟨.ok, c', rfl, (executeBatch_adds hcalls .ok hflush).congr hexec hclosed hcached hnum hins⟩
  · refine ⟨_, _, rfl, rfl, rfl, fun h => absurd h hflush, fun _ => ⟨rfl, ?_, rfl⟩, fun type' hne => ?_, fun _ => rfl, ?_⟩
    · exact (batched_insert_self c type _).trans hcalls
    · exact batched_insert_ne c _ hne
    · exact fun type' h => (AList.mem_insert _).mp h

/-- The statement of a shard that has a connection: the cached one, or one with an empty batch. -/
theorem statement_ok {cfg : Config} {c : JdbcDBClient} {key : Utf16} {i : ℕ} (type : StatementType)
    (h : cfg.getShardConnectionByKey key = .ok i) :
    ∃ st, c.statement cfg type key = .ok st ∧ st.batch.map Row.call = batched c type := by
  rw [statement, batched]
  cases hst : c.cachedStatements.lookup type with
  | some st => exact ⟨st, rfl, rfl⟩
  | none =>
    rw [h]
    exact ⟨_, rfl, rfl⟩

/-- There is no statement for a shard that has no connection. -/
theorem statement_error {cfg : Config} {c : JdbcDBClient} {key : Utf16} {e : Throwable} (type : StatementType)
    (hshards : ShardsExist cfg c) (hno : ¬ (0 ≤ type.shardIndex ∧ type.shardIndex < cfg.conns))
    (h : cfg.getShardConnectionByKey key = .error e) : c.statement cfg type key = .error e := by
  rw [statement]
  cases hst : c.cachedStatements.lookup type with
  | some st => exact absurd (hshards type (AList.lookup_isSome.mp (by rw [hst]; rfl))) hno
  | none =>
    rw [h]
    rfl

/-- **What one call comes to**: it adds a row, or throws. -/
theorem insert_cases {cfg : Config} (hu : cfg.batchUpdates = true) (hb : 0 < cfg.batchSize) {c : JdbcDBClient}
    (hshards : ShardsExist cfg c) (call : Call) :
    (rowType cfg call = none ∧ ∃ e, c.insert cfg call.table call.key call.values.entries = .error e) ∨
    ∃ type status entries c', rowType cfg call = some type ∧ 0 ≤ type.shardIndex ∧ type.shardIndex < cfg.conns ∧
      c.insert cfg call.table call.key call.values.entries = .ok (status, entries, c') ∧ Adds cfg c c' type status := by
  rw [rowType, JdbcDBClient.insert]
  cases hvalues : fieldValues call.values.entries with
  | error e => exact .inl ⟨rfl, e, rfl⟩
  | ok r =>
    obtain ⟨values, entries⟩ := r
    rcases getShardConnectionByKey_eq cfg call.key with ⟨h0, hlt, hconn⟩ | ⟨hno, hconn⟩
    · right
      obtain ⟨st, hst, hbatch⟩ := statement_ok (c := c) (insertType cfg call.table call.key call.values.entries) hconn
      obtain ⟨status, c', hadd, hadds⟩ := addBatch_adds hb ((st.setString 1 call.key).setStrings 2 values)
        ⟨c.inserts, ((st.setString 1 call.key).setStrings 2 values).parameters⟩ hconn
        ((congrArg _ (batch_setStrings values _ 2)).trans hbatch) rfl
      refine ⟨_, status, entries, c', by rw [hconn], h0, hlt, ?_, hadds⟩
      simp only [bind, Except.bind, hst, hu, if_true, hadd]
    · left
      have hst := statement_error (insertType cfg call.table call.key call.values.entries) hshards hno hconn
      refine ⟨by rw [hconn], .arrayIndexOutOfBounds, ?_⟩
      simp only [bind, Except.bind, hst]

/-! ### Runs of calls -/

/-- The row has been executed, once. -/
def Done (c : JdbcDBClient) (r : ℕ × StatementType) : Prop :=
  c.executed.count r.1 = 1 ∧ ∀ type, (batched c type).count r.1 = 0

/-- The row is in the batch of its statement, once. -/
def Waits (c : JdbcDBClient) (r : ℕ × StatementType) : Prop :=
  c.executed.count r.1 = 0 ∧ ∀ type, (batched c type).count r.1 = if type = r.2 then 1 else 0

/-- **What the client has executed, and what it keeps**, after the rows `rows`. -/
structure Inv (cfg : Config) (rows : List (ℕ × StatementType)) (c : JdbcDBClient) : Prop where
  /-- The counter counts the rows. -/
  numRows : c.numRowsInBatch = asLong rows.length
  /-- Calls to come have no row yet. -/
  fresh : (∀ r ∈ rows, r.1 < c.inserts) ∧ (∀ n ∈ c.executed, n < c.inserts) ∧ ∀ type, ∀ n ∈ batched c type, n < c.inserts
  /-- A row is done if it is flushed, and waits if it is not. -/
  once : ∀ k r, rows[k]? = some r → (Flushed cfg rows k ∧ Done c r) ∨ (¬ Flushed cfg rows k ∧ Waits c r)
  /-- Statements are cached for shards there are. -/
  shards : ShardsExist cfg c
  /-- The connections are open. -/
  isOpen : ∀ i, c.isClosed i = false

/-- The last row is flushed if the counter comes to a multiple with it. -/
theorem flushed_last (cfg : Config) (rows : List (ℕ × StatementType)) (r : ℕ × StatementType) :
    Flushed cfg (rows ++ [r]) rows.length ↔ AtMultiple cfg (rows.length + 1) := by
  constructor
  · rintro ⟨j, hle, hat, -, -, r', hr', -⟩
    have hlt := (List.getElem?_eq_some_iff.mp (Option.mem_def.mp hr')).1
    rw [List.length_append, List.length_singleton] at hlt
    obtain rfl : j = rows.length := by omega
    exact hat
  · intro hat
    have hlast : (rows ++ [r])[rows.length]? = some r := List.getElem?_concat_length
    exact ⟨rows.length, Nat.le_refl _, hat, r, hlast, r, hlast, rfl⟩

/-- An earlier row is flushed if it was, or if the last row flushes its statement. -/
theorem flushed_append {cfg : Config} {rows : List (ℕ × StatementType)} {k : ℕ} {r₀ : ℕ × StatementType}
    (hk : rows[k]? = some r₀) (r : ℕ × StatementType) :
    Flushed cfg (rows ++ [r]) k ↔ Flushed cfg rows k ∨ (AtMultiple cfg (rows.length + 1) ∧ r.2 = r₀.2) := by
  have hlt := (List.getElem?_eq_some_iff.mp hk).1
  have hk' : (rows ++ [r])[k]? = some r₀ := by rw [List.getElem?_append_left hlt, hk]
  have hlast : (rows ++ [r])[rows.length]? = some r := List.getElem?_concat_length
  constructor
  · rintro ⟨j, hle, hat, r₁, hr₁, r', hr', hsame⟩
    obtain rfl : r₀ = r₁ := Option.some.inj (hk'.symm.trans hr₁)
    by_cases hj : j < rows.length
    · rw [List.getElem?_append_left hj] at hr'
      exact .inl ⟨j, hle, hat, r₀, hk, r', hr', hsame⟩
    · have hj' := (List.getElem?_eq_some_iff.mp (Option.mem_def.mp hr')).1
      rw [List.length_append, List.length_singleton] at hj'
      obtain rfl : j = rows.length := by omega
      obtain rfl : r = r' := Option.some.inj (hlast.symm.trans hr')
      exact .inr ⟨hat, hsame⟩
  · rintro (⟨j, hle, hat, r₁, hr₁, r', hr', hsame⟩ | ⟨hat, hsame⟩)
    · obtain rfl : r₀ = r₁ := Option.some.inj (hk.symm.trans hr₁)
      have hj := (List.getElem?_eq_some_iff.mp (Option.mem_def.mp hr')).1
      exact ⟨j, hle, hat, r₀, hk', r', by rwa [List.getElem?_append_left hj], hsame⟩
    · exact ⟨rows.length, Nat.le_of_lt hlt, hat, r₀, hk', r, hlast, hsame⟩

theorem asLong_add_one (n : ℕ) : asLong (asLong n + 1) = asLong ((n + 1 : ℕ) : ℤ) := by
  rw [asLong_asLong_add, Int.natCast_succ]

/-- A call that throws leaves what is known of the rows. -/
theorem Inv.skip {cfg : Config} {rows : List (ℕ × StatementType)} {c : JdbcDBClient} (h : Inv cfg rows c) :
    Inv cfg rows { c with inserts := c.inserts + 1 } where
  numRows := h.numRows
  fresh := ⟨fun r hr => Nat.lt_succ_of_lt (h.fresh.1 r hr), fun n hn => Nat.lt_succ_of_lt (h.fresh.2.1 n hn),
    fun type n hn => Nat.lt_succ_of_lt (h.fresh.2.2 type n hn)⟩
  once := h.once
  shards := h.shards
  isOpen := h.isOpen

/-- The calls of the rows after one more. -/
theorem getElem?_concat {rows : List (ℕ × StatementType)} {r r' : ℕ × StatementType} {k : ℕ} (h : (rows ++ [r])[k]? = some r') :
    (k = rows.length ∧ r' = r) ∨ rows[k]? = some r' := by
  by_cases hlt : k < rows.length
  · rw [List.getElem?_append_left hlt] at h
    exact .inr h
  · have hlt' := (List.getElem?_eq_some_iff.mp h).1
    rw [List.length_append, List.length_singleton] at hlt'
    obtain rfl : k = rows.length := by omega
    rw [List.getElem?_concat_length] at h
    exact .inl ⟨rfl, (Option.some.inj h).symm⟩

/-- **A row that has its statement executed** takes the waiting rows of the statement with it. -/
theorem Inv.once_execute {cfg : Config} {rows : List (ℕ × StatementType)} {c c' : JdbcDBClient} {type : StatementType}
    (h : Inv cfg rows c) (hat : AtMultiple cfg (rows.length + 1))
    (hexec : c'.executed = c.executed ++ (batched c type ++ [c.inserts])) (hnil : batched c' type = [])
    (hother : ∀ t, t ≠ type → batched c' t = batched c t) {k : ℕ} {r : ℕ × StatementType}
    (hk : (rows ++ [(c.inserts, type)])[k]? = some r) :
    (Flushed cfg (rows ++ [(c.inserts, type)]) k ∧ Done c' r) ∨ (¬ Flushed cfg (rows ++ [(c.inserts, type)]) k ∧ Waits c' r) := by
  obtain ⟨hrows, hfexec, hfbatch⟩ := h.fresh
  have hcount : ∀ n, c'.executed.count n = c.executed.count n + ((batched c type).count n + [c.inserts].count n) := by
    intro n
    rw [hexec, List.count_append, List.count_append]
  have hbatch : ∀ n t, (batched c' t).count n = if t = type then 0 else (batched c t).count n := by
    intro n t
    split_ifs with ht
    · rw [ht, hnil, List.count_nil]
    · rw [hother t ht]
  rcases getElem?_concat hk with ⟨rfl, rfl⟩ | hold
  · -- the new row
    refine .inl ⟨(flushed_last cfg rows _).mpr hat, ?_, fun t => ?_⟩
    · rw [hcount, List.count_eq_zero.mpr fun hmem => Nat.lt_irrefl _ (hfexec _ hmem),
        List.count_eq_zero.mpr fun hmem => Nat.lt_irrefl _ (hfbatch type _ hmem), List.count_singleton_self]
    · rw [hbatch]
      split_ifs
      · rfl
      · exact List.count_eq_zero.mpr fun hmem => Nat.lt_irrefl _ (hfbatch t _ hmem)
  · -- an earlier row
    have hne : [c.inserts].count r.1 = 0 :=
      List.count_eq_zero.mpr fun hmem => Nat.ne_of_lt (hrows r (List.mem_of_getElem? hold)) (List.mem_singleton.mp hmem)
    rw [flushed_append hold]
    rcases h.once k r hold with ⟨hfl, hdone, hleft⟩ | ⟨hfl, hnot, hwait⟩
    · refine .inl ⟨.inl hfl, ?_, fun t => ?_⟩
      · rw [hcount, hdone, hleft, hne]
      · rw [hbatch, hleft, ite_self]
    · by_cases htype : type = r.2
      · refine .inl ⟨.inr ⟨hat, htype⟩, ?_, fun t => ?_⟩
        · rw [hcount, hnot, hwait, if_pos htype, hne]
        · rw [hbatch, hwait]
          split_ifs with h₁ h₂
          · rfl
          · exact absurd (h₂.trans htype.symm) h₁
          · rfl
      · refine .inr ⟨not_or.mpr ⟨hfl, fun hand => htype hand.2⟩, ?_, fun t => ?_⟩
        · rw [hcount, hnot, hwait, if_neg htype, hne]
        · rw [hbatch, hwait]
          split_ifs with h₁ h₂
          · exact absurd (h₁.symm.trans h₂) htype
          · rfl
          · rfl
          · rfl

/-- **A row that does not** waits in the batch of its statement. -/
theorem Inv.once_wait {cfg : Config} {rows : List (ℕ × StatementType)} {c c' : JdbcDBClient} {type : StatementType}
    (h : Inv cfg rows c) (hat : ¬ AtMultiple cfg (rows.length + 1)) (hexec : c'.executed = c.executed)
    (hself : batched c' type = batched c type ++ [c.inserts]) (hother : ∀ t, t ≠ type → batched c' t = batched c t)
    {k : ℕ} {r : ℕ × StatementType} (hk : (rows ++ [(c.inserts, type)])[k]? = some r) :
    (Flushed cfg (rows ++ [(c.inserts, type)]) k ∧ Done c' r) ∨ (¬ Flushed cfg (rows ++ [(c.inserts, type)]) k ∧ Waits c' r) := by
  obtain ⟨hrows, hfexec, hfbatch⟩ := h.fresh
  have hbatch : ∀ n t, (batched c' t).count n = (batched c t).count n + if t = type then [c.inserts].count n else 0 := by
    intro n t
    split_ifs with ht
    · rw [ht, hself, List.count_append]
    · rw [hother t ht, Nat.add_zero]
  rcases getElem?_concat hk with ⟨rfl, rfl⟩ | hold
  · -- the new row
    refine .inr ⟨mt (flushed_last cfg rows _).mp hat, ?_, fun t => ?_⟩
    · rw [hexec]
      exact List.count_eq_zero.mpr fun hmem => Nat.lt_irrefl _ (hfexec _ hmem)
    · rw [hbatch, List.count_eq_zero.mpr fun hmem => Nat.lt_irrefl _ (hfbatch t _ hmem), List.count_singleton_self,
        Nat.zero_add]
  · -- an earlier row
    have hne : [c.inserts].count r.1 = 0 :=
      List.count_eq_zero.mpr fun hmem => Nat.ne_of_lt (hrows r (List.mem_of_getElem? hold)) (List.mem_singleton.mp hmem)
    have hbatch : ∀ t, (batched c' t).count r.1 = (batched c t).count r.1 := by
      intro t
      rw [hbatch, hne, ite_self, Nat.add_zero]
    have hfl : Flushed cfg (rows ++ [(c.inserts, type)]) k ↔ Flushed cfg rows k :=
      (flushed_append hold _).trans (or_iff_left fun hand => hat hand.1)
    rw [hfl]
    rcases h.once k r hold with ⟨hfl, hdone, hleft⟩ | ⟨hfl, hnot, hwait⟩
    · exact .inl ⟨hfl, hexec ▸ hdone, fun t => (hbatch t).trans (hleft t)⟩
    · exact .inr ⟨hfl, hexec ▸ hnot, fun t => (hbatch t).trans (hwait t)⟩

/-- **A row that is added** is executed or waits. -/
theorem Inv.add {cfg : Config} {rows : List (ℕ × StatementType)} {c c' : JdbcDBClient} {type : StatementType} {status : Status}
    (h : Inv cfg rows c) (hadds : Adds cfg c c' type status) (hshard : 0 ≤ type.shardIndex ∧ type.shardIndex < cfg.conns) :
    Inv cfg (rows ++ [(c.inserts, type)]) c' := by
  have hlen : (rows ++ [(c.inserts, type)]).length = rows.length + 1 := List.length_append
  have hnum : c'.numRowsInBatch = asLong ((rows.length + 1 : ℕ) : ℤ) := by rw [hadds.numRows, h.numRows, asLong_add_one]
  have hmult : c'.numRowsInBatch.tmod cfg.batchSize = 0 ↔ AtMultiple cfg (rows.length + 1) := by
    rw [hnum]
    rfl
  obtain ⟨hrows, hfexec, hfbatch⟩ := h.fresh
  have hcalls : ∀ r ∈ rows ++ [(c.inserts, type)], r.1 < c'.inserts := by
    intro r hr
    rw [hadds.inserts]
    rcases List.mem_append.mp hr with hr | hr
    · exact Nat.lt_succ_of_lt (hrows r hr)
    · rw [List.mem_singleton.mp hr]
      exact Nat.lt_succ_self _
  have hold : ∀ n ∈ batched c type ++ [c.inserts], n < c'.inserts := by
    intro n hn
    rw [hadds.inserts]
    rcases List.mem_append.mp hn with hn | hn
    · exact Nat.lt_succ_of_lt (hfbatch type n hn)
    · rw [List.mem_singleton.mp hn]
      exact Nat.lt_succ_self _
  have hother : ∀ t, t ≠ type → ∀ n ∈ batched c' t, n < c'.inserts := by
    intro t ht n hn
    rw [hadds.other t ht] at hn
    rw [hadds.inserts]
    exact Nat.lt_succ_of_lt (hfbatch t n hn)
  have hdone : ∀ n ∈ c.executed, n < c'.inserts := by
    intro n hn
    rw [hadds.inserts]
    exact Nat.lt_succ_of_lt (hfexec n hn)
  have hcommon : ShardsExist cfg c' ∧ ∀ i, c'.isClosed i = false := by
    refine ⟨fun t ht => ?_, fun i => (hadds.isClosed i).trans (h.isOpen i)⟩
    rcases hadds.cached t ht with rfl | ht
    · exact hshard
    · exact h.shards t ht
  by_cases hflush : c'.numRowsInBatch.tmod cfg.batchSize = 0
  · obtain ⟨hexec, hnil⟩ := hadds.executes hflush
    refine ⟨by rw [hnum, hlen], ⟨hcalls, fun n hn => ?_, fun t n hn => ?_⟩,
      fun k r hk => h.once_execute (hmult.mp hflush) hexec hnil hadds.other hk, hcommon.1, hcommon.2⟩
    · rw [hexec] at hn
      rcases List.mem_append.mp hn with hn | hn
      · exact hdone n hn
      · exact hold n hn
    · by_cases ht : t = type
      · rw [ht, hnil] at hn
        exact absurd hn List.not_mem_nil
      · exact hother t ht n hn
  · obtain ⟨hexec, hself, -⟩ := hadds.waits hflush
    refine ⟨by rw [hnum, hlen], ⟨hcalls, fun n hn => hdone n (hexec ▸ hn), fun t n hn => ?_⟩,
      fun k r hk => h.once_wait (mt hmult.mpr hflush) hexec hself hadds.other hk, hcommon.1, hcommon.2⟩
    by_cases ht : t = type
    · rw [ht, hself] at hn
      exact hold n hn
    · exact hother t ht n hn

theorem inv_newClient (cfg : Config) : Inv cfg [] newClient where
  numRows := rfl
  fresh := ⟨fun _ hr => absurd hr List.not_mem_nil, fun _ hn => absurd hn List.not_mem_nil,
    fun _ _ hn => absurd hn List.not_mem_nil⟩
  once _ _ hk := by cases hk
  shards _ ht := absurd ht (AList.notMem_empty _)
  isOpen _ := rfl

/-- **A run of calls**: its rows are executed or wait, whatever is accepted is the row of a call, and a row that
does not bring the counter to a multiple of the batch size is accepted. -/
theorem insertAll_inv {cfg : Config} (hu : cfg.batchUpdates = true) (hb : 0 < cfg.batchSize) (calls : List Call)
    {c : JdbcDBClient} {before : List (ℕ × StatementType)} (h : Inv cfg before c) :
    Inv cfg (before ++ rows cfg c.inserts calls) (c.insertAll cfg calls).2 ∧
      (∀ n ∈ accepted c.inserts (c.insertAll cfg calls).1, ∃ r ∈ rows cfg c.inserts calls, r.1 = n) ∧
      ∀ k r, (rows cfg c.inserts calls)[k]? = some r → ¬ AtMultiple cfg (before.length + k + 1) →
        r.1 ∈ accepted c.inserts (c.insertAll cfg calls).1 := by
  induction calls generalizing c before with
  | nil =>
    rw [rows, List.append_nil]
    exact ⟨h, fun _ hn => absurd hn List.not_mem_nil, fun _ _ hk => by cases hk⟩
  | cons call calls ih =>
    rw [insertAll, rows]
    rcases insert_cases hu hb h.shards call with ⟨htype, e, he⟩ | ⟨type, status, entries, c', htype, h0, hlt, hc', hadds⟩
    · rw [htype, he]
      exact ih h.skip
    · rw [htype, hc']
      obtain ⟨hinv, hacc, hrow⟩ := ih (h.add hadds ⟨h0, hlt⟩)
      rw [List.append_assoc, List.singleton_append, hadds.inserts] at hinv
      rw [hadds.inserts] at hacc hrow
      have hsub : ∀ n ∈ accepted (c.inserts + 1) (insertAll cfg c' calls).1,
          n ∈ accepted c.inserts (.ok status :: (insertAll cfg c' calls).1) := by
        intro n hn
        rw [accepted]
        split_ifs
        · exact List.mem_cons_of_mem _ hn
        · exact hn
      refine ⟨hinv, fun n hn => ?_, fun k r hk hat => ?_⟩
      · dsimp only at hn
        rw [accepted] at hn
        have hlater : ∀ n ∈ accepted (c.inserts + 1) (insertAll cfg c' calls).1,
            ∃ r ∈ (c.inserts, type) :: rows cfg (c.inserts + 1) calls, r.1 = n := by
          intro n hn
          obtain ⟨r, hr, heq⟩ := hacc n hn
          exact ⟨r, List.mem_cons_of_mem _ hr, heq⟩
        split_ifs at hn
        · rcases List.mem_cons.mp hn with rfl | hn
          · exact ⟨_, List.mem_cons_self, rfl⟩
          · exact hlater n hn
        · exact hlater n hn
      · cases k with
        | zero =>
          obtain rfl : (c.inserts, type) = r := Option.some.inj hk
          have hwaits : c'.numRowsInBatch.tmod cfg.batchSize ≠ 0 := by
            rw [hadds.numRows, h.numRows, asLong_add_one]
            exact hat
          obtain ⟨-, -, rfl⟩ := hadds.waits hwaits
          have hok : accepts (.ok .batchedOk) = true := rfl
          rw [accepted, if_pos hok]
          exact List.mem_cons_self
        | succ k =>
          have hlen : (before ++ [(c.inserts, type)]).length + k + 1 = before.length + (k + 1) + 1 := by
            rw [List.length_append, List.length_singleton]
            omega
          rw [← hlen] at hat
          exact hsub _ (hrow k r hk hat)

/-! ### The end of a run -/

/-- What `cleanup` executes: every batch, unless the counter stands at a multiple of the batch size. -/
theorem executed_executeAll {cfg : Config} (statements : List (Sigma fun _ : StatementType => PreparedStatement))
    (c : JdbcDBClient) (hopen : ∀ i, c.isClosed i = false) :
    (executeAll cfg statements c).executed = c.executed ++
      if c.numRowsInBatch.tmod cfg.batchSize = 0 then [] else statements.flatMap fun s => s.2.batch.map Row.call := by
  induction statements generalizing c with
  | nil => rw [executeAll, List.flatMap_nil, ite_self, List.append_nil]
  | cons s statements ih =>
    obtain ⟨type, st⟩ := s
    rw [executeAll]
    by_cases hat : c.numRowsInBatch.tmod cfg.batchSize = 0
    · rw [if_neg (fun h => h.2 hat), ih c hopen, if_pos hat, if_pos hat]
    · rw [if_pos ⟨by rw [hopen]; exact Bool.false_ne_true, hat⟩,
        ih _ (fun i => (isClosed_executeBatch c type st i).trans (hopen i)), executed_executeBatch, if_neg hat]
      rw [executeBatch, if_neg hat, List.flatMap_cons, List.append_assoc]

theorem executed_cleanup {cfg : Config} (hb : 0 < cfg.batchSize) (c : JdbcDBClient) (hopen : ∀ i, c.isClosed i = false) :
    (c.cleanup cfg).executed = c.executed ++
      if c.numRowsInBatch.tmod cfg.batchSize = 0 then []
      else c.cachedStatements.entries.flatMap fun s => s.2.batch.map Row.call := by
  rw [cleanup, if_pos hb, ← executed_executeAll c.cachedStatements.entries c hopen]
  refine (executed_append _ (closeEvents cfg) _).trans ?_
  have hnone : ({ executeAll cfg c.cachedStatements.entries c with log := closeEvents cfg } : JdbcDBClient).executed = [] := by
    rw [executed, List.filterMap_eq_nil_iff]
    intro e he
    obtain ⟨i, -, hi⟩ := List.mem_flatMap.mp he
    rcases List.mem_append.mp hi with hi | hi
    · split_ifs at hi
      · cases hi
      · rw [List.mem_singleton.mp hi]
    · rw [List.mem_singleton.mp hi]
  rw [hnone]
  exact List.append_nil _

/-- A call that is in the batches of one statement only is counted there. -/
theorem count_flatMap {n : ℕ} (type : StatementType) (statements : List (Sigma fun _ : StatementType => PreparedStatement))
    (hnd : statements.NodupKeys) (hother : ∀ s ∈ statements, s.1 ≠ type → (s.2.batch.map Row.call).count n = 0) :
    (statements.flatMap fun s => s.2.batch.map Row.call).count n =
      ((statements.dlookup type).elim [] fun st => st.batch.map Row.call).count n := by
  induction statements with
  | nil => rfl
  | cons s statements ih =>
    obtain ⟨hnot, hnd⟩ := List.nodupKeys_cons.mp hnd
    have hrest := ih hnd fun s hs => hother s (List.mem_cons_of_mem _ hs)
    rw [List.flatMap_cons, List.count_append, hrest]
    by_cases ht : s.1 = type
    · subst ht
      obtain ⟨t, st⟩ := s
      rw [List.dlookup_eq_none.mpr hnot, List.dlookup_cons_eq]
      rfl
    · rw [hother s List.mem_cons_self ht, Nat.zero_add, List.dlookup_cons_ne _ _ (Ne.symm ht)]

/-- The batches of all statements have a row once if one of them has it. -/
theorem count_batches {c : JdbcDBClient} {n : ℕ} (type : StatementType) (hother : ∀ t, t ≠ type → (batched c t).count n = 0) :
    (c.cachedStatements.entries.flatMap fun s => s.2.batch.map Row.call).count n = (batched c type).count n := by
  rw [count_flatMap type _ c.cachedStatements.nodupKeys]
  · rw [batched]
    change ((c.cachedStatements.lookup type).elim [] fun st => st.batch.map Row.call).count n = _
    cases c.cachedStatements.lookup type <;> rfl
  · intro s hs hne
    have hlookup : c.cachedStatements.lookup s.1 = some s.2 := AList.mem_lookup_iff.mpr hs
    have := hother s.1 hne
    rwa [batched, hlookup] at this

/-- **A row at the end of a run** has been executed once, unless the counter stands at a multiple of the batch size
and its statement has not been executed since. -/
theorem count_executed_cleanup {cfg : Config} (hb : 0 < cfg.batchSize) {before : List (ℕ × StatementType)}
    {c : JdbcDBClient} (h : Inv cfg before c) {k : ℕ} {r : ℕ × StatementType} (hk : before[k]? = some r) :
    (c.cleanup cfg).executed.count r.1 = 1 ↔ ¬ AtMultiple cfg before.length ∨ Flushed cfg before k := by
  have hat : c.numRowsInBatch.tmod cfg.batchSize = 0 ↔ AtMultiple cfg before.length := by
    rw [h.numRows]
    rfl
  rw [executed_cleanup hb c h.isOpen, List.count_append]
  rcases h.once k r hk with ⟨hfl, hdone, hleft⟩ | ⟨hfl, hnot, hwait⟩
  · refine iff_of_true ?_ (.inr hfl)
    split_ifs
    · rw [hdone, List.count_nil]
    · rw [hdone, count_batches r.2 fun t _ => hleft t, hleft]
  · rw [hnot, or_iff_left hfl, ← hat]
    split_ifs with hmult
    · exact iff_of_false (by rw [List.count_nil]; omega) (not_not.mpr hmult)
    · refine iff_of_true ?_ hmult
      rw [count_batches r.2 fun t ht => (hwait t).trans (if_neg ht), hwait, if_pos rfl]

/-- One connection, batches of two. -/
def batchesOfTwo : Config := ⟨2, true, true, 1, Nat.one_pos, fun _ => 1⟩

end YcsbIvs.Jdbc
