import YcsbIvs.Jdbc.Batches
import YcsbIvs.Jdbc.Statements
import YcsbIvs.Workloads.DeterministicValues

/-!
# The shards of the JDBC binding

Each operation of `JdbcDBClient` (read, scan, update, insert and delete) is for one key. It looks its statement up in `cachedStatements`, and
if there is none it prepares one on the connection that `getShardConnectionByKey` gives for the key. The index of that
connection is the absolute value of the hash of the key, modulo the number of connections.

`Math.abs` leaves the least `int` as it is. For a key with that hash the index is not negative only if the number of connections
divides `2 ^ 31`; for other keys it always is an index of a connection (`findsConnection_iff`).
-/

namespace YcsbIvs.Jdbc

open YcsbIvs.Foundations YcsbIvs.Core
open YcsbIvs.Workloads (hashCode fitsInt_hashCode)

/-! ### The index -/

theorem mathAbs_of_ne {x : ℤ} (hx : FitsInt x) (hne : x ≠ -2 ^ 31) : 0 ≤ mathAbs x := by
  obtain ⟨hlow, hhigh⟩ := hx
  rw [mathAbs]
  split_ifs with hneg
  · rw [asInt_of_fits ⟨by omega, by omega⟩]
    omega
  · omega

@[simp] theorem mathAbs_least : mathAbs (-2 ^ 31) = -2 ^ 31 := by decide

/-- The index is less than the number of connections, whatever the hash. -/
theorem getShardIndexByKey_lt (cfg : Config) (key : Utf16) : cfg.getShardIndexByKey key < cfg.conns := by
  rw [Config.getShardIndexByKey]
  exact Int.tmod_lt_of_pos _ (by exact_mod_cast cfg.conns_pos)

/-- **When the index is an index**: the hash is not the least `int`, or the number of connections divides it. -/
theorem getShardIndexByKey_nonneg_iff (cfg : Config) (key : Utf16) :
    0 ≤ cfg.getShardIndexByKey key ↔ hashCode key ≠ -2 ^ 31 ∨ (cfg.conns : ℤ) ∣ 2 ^ 31 := by
  rw [Config.getShardIndexByKey]
  by_cases hleast : hashCode key = -2 ^ 31
  · have hpos : (0 : ℤ) ≤ (2 ^ 31 : ℤ).tmod cfg.conns := Int.tmod_nonneg _ (by decide)
    rw [hleast, mathAbs_least, Int.neg_tmod, or_iff_right (not_not.mpr rfl), Int.dvd_iff_tmod_eq_zero]
    omega
  · have hnonneg := mathAbs_of_ne (fitsInt_hashCode key) hleast
    exact iff_of_true (Int.tmod_nonneg _ hnonneg) (.inl hleast)

/-! ### Statements of all operations -/

/-- What an operation looks its statement up by. -/
structure Lookup where
  /-- The operation. -/
  type : OperationType
  /-- The table. -/
  tableName : Utf16
  /-- The number of fields, `1` for a read, a scan and a delete. -/
  numFields : ℕ
  /-- The names of the fields. -/
  fieldString : Utf16
  /-- The key, the start key for a scan. -/
  key : Utf16

/-- The type of the statement. -/
def Lookup.statementType (cfg : Config) (l : Lookup) : StatementType :=
  ⟨l.type, l.tableName, l.numFields, l.fieldString, cfg.getShardIndexByKey l.key⟩

namespace JdbcDBClient

/-- The statement of an operation: the cached one, or one that is prepared on the connection of the key and cached. -/
def prepare (cfg : Config) (c : JdbcDBClient) (l : Lookup) : Except Throwable (PreparedStatement × JdbcDBClient) :=
  match c.cachedStatements.lookup (l.statementType cfg) with
  | some st => .ok (st, c)
  | none => do
    let connection ← cfg.getShardConnectionByKey l.key
    let st : PreparedStatement := ⟨connection, fun _ => none, []⟩
    .ok (st, { c with cachedStatements := c.cachedStatements.insert (l.statementType cfg) st })

/-- Operations one after another: one that finds no connection leaves the client as it was. -/
def prepareAll (cfg : Config) : JdbcDBClient → List Lookup → JdbcDBClient
  | c, [] => c
  | c, l :: ls =>
    match c.prepare cfg l with
    | .ok (_, c') => prepareAll cfg c' ls
    | .error _ => prepareAll cfg c ls

/-- What is cached is on the connection of its shard. -/
def OnShards (c : JdbcDBClient) : Prop :=
  ∀ type st, c.cachedStatements.lookup type = some st → (st.connection : ℤ) = type.shardIndex

/-- What an operation does to a client that has its statements on their shards: it fails if the index is negative, and else has a
statement of the shard. -/
theorem OnShards.prepare_cases {c : JdbcDBClient} (h : OnShards c) (cfg : Config) (l : Lookup) :
    (cfg.getShardIndexByKey l.key < 0 ∧ c.prepare cfg l = .error .arrayIndexOutOfBounds) ∨
      ∃ st c', c.prepare cfg l = .ok (st, c') ∧ (st.connection : ℤ) = cfg.getShardIndexByKey l.key ∧ OnShards c' := by
  rw [prepare]
  cases hst : c.cachedStatements.lookup (l.statementType cfg) with
  | some st => exact .inr ⟨st, c, rfl, h _ st hst, h⟩
  | none =>
    rcases getShardConnectionByKey_eq cfg l.key with ⟨hnonneg, -, hconn⟩ | ⟨hno, hconn⟩
    · refine .inr ⟨⟨(cfg.getShardIndexByKey l.key).toNat, fun _ => none, []⟩, _, by rw [hconn]; rfl, Int.toNat_of_nonneg hnonneg, ?_⟩
      intro type st htype
      by_cases heq : type = l.statementType cfg
      · subst heq
        rw [AList.lookup_insert, Option.some.injEq] at htype
        rw [← htype]
        exact Int.toNat_of_nonneg hnonneg
      · rw [AList.lookup_insert_ne heq] at htype
        exact h type st htype
    · refine .inl ⟨?_, by rw [hconn]; rfl⟩
      have hlt := getShardIndexByKey_lt cfg l.key
      omega

theorem OnShards.prepareAll {c : JdbcDBClient} (h : OnShards c) (cfg : Config) (ls : List Lookup) : OnShards (c.prepareAll cfg ls) := by
  induction ls generalizing c with
  | nil => exact h
  | cons l ls ih =>
    rw [JdbcDBClient.prepareAll]
    rcases h.prepare_cases cfg l with ⟨-, herror⟩ | ⟨st, c', hok, -, h'⟩
    · rw [herror]
      exact ih h
    · rw [hok]
      exact ih h'

theorem onShards_newClient : OnShards newClient := by
  intro type st hst
  rw [newClient, AList.lookup_empty] at hst
  cases hst

end JdbcDBClient

open JdbcDBClient

/-- A key finds its connection: its index is the index of a connection, and every operation on it, after any
operations, has a statement of that connection. -/
def FindsConnection (cfg : Config) (key : Utf16) : Prop :=
  (0 ≤ cfg.getShardIndexByKey key ∧ cfg.getShardIndexByKey key < cfg.conns) ∧
    ∀ (before : List Lookup) (l : Lookup), l.key = key →
      ∃ st c, (newClient.prepareAll cfg before).prepare cfg l = .ok (st, c) ∧ (st.connection : ℤ) = cfg.getShardIndexByKey key

/-- **Which keys find their connection**: those whose hash is not the least `int`, and all keys if the number of connections divides
`2 ^ 31`. -/
theorem findsConnection_iff (cfg : Config) (key : Utf16) :
    FindsConnection cfg key ↔ hashCode key ≠ -2 ^ 31 ∨ (cfg.conns : ℤ) ∣ 2 ^ 31 := by
  rw [← getShardIndexByKey_nonneg_iff]
  constructor
  · rintro ⟨⟨hnonneg, -⟩, -⟩
    exact hnonneg
  · intro hnonneg
    refine ⟨⟨hnonneg, getShardIndexByKey_lt cfg key⟩, ?_⟩
    rintro before l rfl
    have hon := onShards_newClient.prepareAll cfg before
    rcases hon.prepare_cases cfg l with ⟨hneg, -⟩ | ⟨st, c, hok, hconn, -⟩
    · omega
    · exact ⟨st, c, hok, hconn⟩

/-- Three connections. -/
def threeShards : Config := ⟨-1, true, false, 3, by decide, fun _ => 1⟩

/-- **A key without a connection**: the hash of `polygenelubricants` is the least `int`, and its index among three connections is `-2`. -/
theorem not_findsConnection : threeShards.getShardIndexByKey (text "polygenelubricants") = -2 ∧
    newClient.prepare threeShards ⟨.read, [], 1, [], text "polygenelubricants"⟩ = .error .arrayIndexOutOfBounds ∧
    ¬ FindsConnection threeShards (text "polygenelubricants") := by
  have hindex : threeShards.getShardIndexByKey (text "polygenelubricants") = -2 := by decide +kernel
  refine ⟨hindex, ?_, ?_⟩
  · rcases onShards_newClient.prepare_cases threeShards ⟨.read, [], 1, [], text "polygenelubricants"⟩ with
      ⟨-, herror⟩ | ⟨st, c, -, hconn, -⟩
    · exact herror
    · simp only [hindex] at hconn
      omega
  · rintro ⟨⟨hnonneg, -⟩, -⟩
    omega

end YcsbIvs.Jdbc
