import YcsbIvs.Core.DB
import YcsbIvs.Foundations.Runs
import Mathlib.Data.Finset.Dedup

/-!
# The statements that are kept by the Cassandra binding

`CassandraCQLClient` keeps its prepared statements in static caches: `readStmts`, `scanStmts`, `insertStmts` and `updateStmts` by the set of fields,
and `readAllStmt`, `scanAllStmt` and `deleteStmt` one statement each. A call looks its statement up and, if there is none, prepares it and puts it
there, with `putIfAbsent` in a map and `getAndSet` in a reference; if somebody else has been faster it takes theirs. Then it executes what it has
got.

The calls of all clients are cut up into these steps, which they interleave. A statement is what it is built from: the kind of the call, the fields
and the table. The table is not part of what statements are kept by. So **each call gets a statement of its own table just if it comes upon none
of another table**, when it looks it up and when it puts its own there (`ownStatement_iff`).
-/

namespace YcsbIvs.Cassandra

open YcsbIvs.Foundations YcsbIvs.Core

/-! ### Calls -/

/-- What is called. -/
inductive Kind where
  | read | scan | update | insert | delete
  deriving DecidableEq

/-- Where a statement is kept: with fields in the map of its kind, `readStmts`, `scanStmts`, `updateStmts` or `insertStmts`; without in the reference
`readAllStmt`, `scanAllStmt` or `deleteStmt`. -/
structure Entry where
  /-- The kind. -/
  kind : Kind
  /-- The set of fields. -/
  fields : Option (Finset Utf16)
  deriving DecidableEq

/-- A prepared statement, as it was built. -/
structure CqlStatement where
  /-- Its kind, and the fields it reads or writes, `none` if it reads all or deletes. -/
  entry : Entry
  /-- The table. -/
  table : Utf16
  deriving DecidableEq

/-- A call. -/
inductive CqlCall where
  | read (table key : Utf16) (fields : Option (Finset Utf16))
  | scan (table startkey : Utf16) (recordcount : ℤ) (fields : Option (Finset Utf16))
  | update (table key : Utf16) (values : Values Utf16)
  | insert (table key : Utf16) (values : Values Utf16)
  | delete (table key : Utf16)

namespace CqlCall

/-- The table it is for. -/
def table : CqlCall → Utf16
  | read table _ _ | scan table _ _ _ | update table _ _ | insert table _ _ | delete table _ => table

/-- Where it looks its statement up. -/
def entry : CqlCall → Entry
  | read _ _ fields => ⟨.read, fields⟩
  | scan _ _ _ fields => ⟨.scan, fields⟩
  | update _ _ values => ⟨.update, some values.keys.toFinset⟩
  | insert _ _ values => ⟨.insert, some values.keys.toFinset⟩
  | delete _ _ => ⟨.delete, none⟩

/-- The statement it prepares. -/
def statement (c : CqlCall) : CqlStatement := ⟨c.entry, c.table⟩

end CqlCall

/-! ### Clients -/

/-- Where a client is in a call. -/
inductive Position where
  /-- It is not in a call. -/
  | idle
  /-- It has found no statement. -/
  | preparing (c : CqlCall)
  /-- It has prepared one. -/
  | storing (c : CqlCall) (stmt : CqlStatement)
  /-- It has got this statement. -/
  | executing (c : CqlCall) (stmt : CqlStatement)

/-- The call whose statement is to be put where it is kept. -/
def Position.stores : Position → Option CqlCall
  | storing c _ => some c
  | _ => none

/-- The clients, and what they share. -/
structure CassandraClients (ι : Type) where
  /-- The statements that are kept. -/
  stmts : Entry → Option CqlStatement
  /-- Where each client is. -/
  clients : ι → Position
  /-- The calls that have got a statement, with it. -/
  got : List (CqlCall × CqlStatement)
  /-- The calls that have executed it. -/
  executed : List (CqlCall × CqlStatement)

/-- The steps. -/
inductive Label (ι : Type) where
  /-- A call that looks its statement up. -/
  | call (i : ι) (c : CqlCall)
  /-- `session.prepare`, and whether it returns. -/
  | prepare (i : ι) (returns : Bool)
  /-- `getAndSet` or `putIfAbsent`. -/
  | store (i : ι)
  /-- `session.execute`. -/
  | execute (i : ι)
  /-- The call fails before that. -/
  | fail (i : ι)

namespace CassandraClients

variable {ι : Type}

/-- No statement is kept. -/
def initial (ι : Type) : CassandraClients ι := ⟨fun _ => none, fun _ => .idle, [], []⟩

section Step

variable [DecidableEq ι]

/-- Client `i` gets to `p`. -/
def goto (s : CassandraClients ι) (i : ι) (p : Position) : CassandraClients ι := { s with clients := Function.update s.clients i p }

/-- Client `i` gets its statement. -/
def take (s : CassandraClients ι) (i : ι) (c : CqlCall) (stmt : CqlStatement) : CassandraClients ι :=
  { s.goto i (.executing c stmt) with got := s.got ++ [(c, stmt)] }

/-- `getAndSet(stmt)` on a reference, `putIfAbsent(fields, stmt)` on a map. -/
def put (s : CassandraClients ι) (e : Entry) (stmt : CqlStatement) : CassandraClients ι :=
  if e.fields = none ∨ s.stmts e = none then { s with stmts := Function.update s.stmts e (some stmt) } else s

/-- One step; `none` if the client is elsewhere. -/
def step (s : CassandraClients ι) : Label ι → Option (CassandraClients ι)
  | .call i c =>
    match s.clients i with
    | .idle =>
      match s.stmts c.entry with
      | some stmt => some (s.take i c stmt)
      | none => some (s.goto i (.preparing c))
    | _ => none
  | .prepare i returns =>
    match s.clients i with
    | .preparing c => some (s.goto i (if returns then .storing c c.statement else .idle))
    | _ => none
  | .store i =>
    match s.clients i with
    | .storing c stmt => some ((s.put c.entry stmt).take i c ((s.stmts c.entry).getD stmt))
    | _ => none
  | .execute i =>
    match s.clients i with
    | .executing c stmt => some { s.goto i .idle with executed := s.executed ++ [(c, stmt)] }
    | _ => none
  | .fail i =>
    match s.clients i with
    | .executing _ _ => some (s.goto i .idle)
    | _ => none

/-- Each call that has got a statement has got one that is built for its own table and fields. -/
def OwnStatement (s : CassandraClients ι) : Prop := ∀ p ∈ s.got, p.2 = p.1.statement

/-- A call comes upon no statement of another table. -/
def ComesUponOwn (s : CassandraClients ι) : Label ι → Prop
  | .call _ c => ∀ stmt ∈ s.stmts c.entry, stmt.table = c.table
  | .store i => ∀ c ∈ (s.clients i).stores, ∀ prevStmt ∈ s.stmts c.entry, prevStmt.table = c.table
  | _ => True

instance decidableComesUponOwn (s : CassandraClients ι) : (l : Label ι) → Decidable (ComesUponOwn s l)
  | .call _ c => inferInstanceAs (Decidable (∀ stmt ∈ s.stmts c.entry, stmt.table = c.table))
  | .store i => inferInstanceAs (Decidable (∀ c ∈ (s.clients i).stores, ∀ prevStmt ∈ s.stmts c.entry, prevStmt.table = c.table))
  | .prepare _ _ | .execute _ | .fail _ => .isTrue trivial

/-! ### What is kept -/

/-- A statement is kept where it belongs, and a client has prepared its own. -/
structure Kept (s : CassandraClients ι) : Prop where
  /-- A statement that is kept is for the kind and the fields. -/
  stmts : ∀ e stmt, s.stmts e = some stmt → stmt.entry = e
  /-- What a client has prepared is its own. -/
  prepared : ∀ i c stmt, s.clients i = .storing c stmt → stmt = c.statement
  /-- What a client is going to execute it has got. -/
  executing : ∀ i c stmt, s.clients i = .executing c stmt → (c, stmt) ∈ s.got
  /-- What has been executed had been got. -/
  executed : ∀ p ∈ s.executed, p ∈ s.got

theorem clients_goto (s : CassandraClients ι) (i j : ι) (p : Position) : (s.goto i p).clients j = if j = i then p else s.clients j :=
  Function.update_apply _ _ _ _

/-- A client that goes where it neither stores nor executes. -/
theorem Kept.goto {s : CassandraClients ι} (h : Kept s) (i : ι) {p : Position} (hstoring : ∀ c stmt, p = .storing c stmt → stmt = c.statement)
    (hexecuting : ∀ c stmt, p ≠ .executing c stmt) : Kept (s.goto i p) := by
  refine ⟨h.stmts, fun j c stmt hj => ?_, fun j c stmt hj => ?_, h.executed⟩
  · rw [clients_goto] at hj
    split_ifs at hj
    · exact hstoring c stmt hj
    · exact h.prepared j c stmt hj
  · rw [clients_goto] at hj
    split_ifs at hj
    · exact absurd hj (hexecuting c stmt)
    · exact h.executing j c stmt hj

theorem Kept.take {s : CassandraClients ι} (h : Kept s) (i : ι) (c : CqlCall) (stmt : CqlStatement) : Kept (s.take i c stmt) := by
  refine ⟨h.stmts, fun j c' stmt' hj => ?_, fun j c' stmt' hj => ?_, fun p hp => List.mem_append_left _ (h.executed p hp)⟩
  · rw [CassandraClients.take, clients_goto] at hj
    split_ifs at hj
    exact h.prepared j c' stmt' hj
  · rw [CassandraClients.take, clients_goto] at hj
    split_ifs at hj
    · cases hj
      exact List.mem_append_right _ (List.mem_singleton.mpr rfl)
    · exact List.mem_append_left _ (h.executing j c' stmt' hj)

omit [DecidableEq ι] in
theorem got_put (s : CassandraClients ι) (e : Entry) (stmt : CqlStatement) : (s.put e stmt).got = s.got := by
  rw [put]
  split_ifs <;> rfl

omit [DecidableEq ι] in
theorem Kept.put {s : CassandraClients ι} (h : Kept s) {e : Entry} {stmt : CqlStatement} (hstmt : stmt.entry = e) : Kept (s.put e stmt) := by
  rw [CassandraClients.put]
  split_ifs
  · refine ⟨fun e' stmt' he' => ?_, h.prepared, h.executing, h.executed⟩
    dsimp only at he'
    rw [Function.update_apply] at he'
    split_ifs at he' with heq
    · rw [heq, ← Option.some.inj he']
      exact hstmt
    · exact h.stmts e' stmt' he'
  · exact h

/-- Whoever takes a statement has its own just if it is the one it asks for. -/
theorem ownStatement_take_iff {s t : CassandraClients ι} (hgot : t.got = s.got) (hown : OwnStatement s) (i : ι) (c : CqlCall) (stmt : CqlStatement) :
    OwnStatement (t.take i c stmt) ↔ stmt = c.statement := by
  rw [OwnStatement, take, hgot]
  refine ⟨fun hall => hall (c, stmt) (List.mem_append_right _ (List.mem_singleton.mpr rfl)), fun heq p hp => ?_⟩
  rcases List.mem_append.mp hp with hp | hp
  · exact hown p hp
  · rw [List.mem_singleton.mp hp]
    exact heq

omit [DecidableEq ι] in
/-- The statement that is kept for a call is the one it asks for just if it is of its table. -/
theorem Kept.eq_statement_iff {s : CassandraClients ι} (h : Kept s) {c : CqlCall} {stmt : CqlStatement} (hstmt : s.stmts c.entry = some stmt) :
    stmt = c.statement ↔ stmt.table = c.table := by
  have hentry := h.stmts c.entry stmt hstmt
  refine ⟨fun heq => heq ▸ rfl, fun htable => ?_⟩
  cases stmt
  cases hentry
  cases htable
  rfl

/-- A call takes the statement that is kept, or goes on to prepare one. -/
theorem call_spec {s s' : CassandraClients ι} {i : ι} {c : CqlCall} (h : Kept s) (hs : step s (.call i c) = some s') :
    Kept s' ∧ (OwnStatement s → (OwnStatement s' ↔ ComesUponOwn s (.call i c))) := by
  rw [step] at hs
  cases hi : s.clients i <;> simp only [hi, reduceCtorEq] at hs
  rw [ComesUponOwn]
  cases hstmt : s.stmts c.entry with
  | some stmt =>
    rw [hstmt] at hs
    cases hs
    refine ⟨h.take i c stmt, fun hown => ?_⟩
    rw [ownStatement_take_iff rfl hown, h.eq_statement_iff hstmt]
    exact ⟨fun htable stmt' hstmt' => Option.some.inj hstmt' ▸ htable, fun hall => hall stmt rfl⟩
  | none =>
    rw [hstmt] at hs
    cases hs
    exact ⟨h.goto i (fun _ _ hp => nomatch hp) fun _ _ => Position.noConfusion, fun hown => iff_of_true hown fun stmt hstmt' => nomatch hstmt'⟩

/-- A client that stores its statement takes the one that has been stored before, if there is one. -/
theorem store_spec {s s' : CassandraClients ι} {i : ι} (h : Kept s) (hs : step s (.store i) = some s') :
    Kept s' ∧ (OwnStatement s → (OwnStatement s' ↔ ComesUponOwn s (.store i))) := by
  rw [step] at hs
  cases hi : s.clients i with
  | storing c stmt =>
    rw [hi] at hs
    cases hs
    have hstmt := h.prepared i c stmt hi
    have hown : stmt.entry = c.entry := hstmt ▸ rfl
    refine ⟨(h.put hown).take i c _, fun hall => ?_⟩
    have hcomes : ComesUponOwn s (.store i) ↔ ∀ prevStmt ∈ s.stmts c.entry, prevStmt.table = c.table := by
      rw [ComesUponOwn, hi]
      exact ⟨fun hall => hall c rfl, fun hall c' hc' => Option.some.inj hc' ▸ hall⟩
    rw [ownStatement_take_iff (got_put s c.entry stmt) hall, hcomes]
    cases hprev : s.stmts c.entry with
    | some prevStmt =>
      rw [Option.getD_some, h.eq_statement_iff hprev]
      exact ⟨fun htable stmt' hstmt' => Option.some.inj hstmt' ▸ htable, fun hall => hall prevStmt rfl⟩
    | none =>
      rw [Option.getD_none]
      exact iff_of_true hstmt fun _ hstmt' => nomatch hstmt'
  | _ =>
    rw [hi] at hs
    cases hs

/-- **A step keeps statements where they belong**, and whoever gets one gets its own just if it comes upon none of another table. -/
theorem step_spec {s s' : CassandraClients ι} {l : Label ι} (h : Kept s) (hs : step s l = some s') :
    Kept s' ∧ (OwnStatement s → (OwnStatement s' ↔ ComesUponOwn s l)) := by
  cases l with
  | call i c => exact call_spec h hs
  | prepare i returns =>
    rw [step] at hs
    cases hi : s.clients i <;> simp only [hi, reduceCtorEq] at hs
    cases hs
    refine ⟨h.goto i (fun c' stmt hp => ?_) fun c' stmt hp => ?_, fun hown => iff_of_true hown trivial⟩
    · split_ifs at hp
      cases hp
      rfl
    · split_ifs at hp
  | store i => exact store_spec h hs
  | execute i =>
    rw [step] at hs
    cases hi : s.clients i with
    | executing c stmt =>
      rw [hi] at hs
      cases hs
      have hgoto := h.goto i (p := .idle) (fun _ _ hp => nomatch hp) fun _ _ => Position.noConfusion
      refine ⟨⟨hgoto.stmts, hgoto.prepared, hgoto.executing, fun p hp => ?_⟩, fun hown => iff_of_true hown trivial⟩
      rcases List.mem_append.mp hp with hp | hp
      · exact h.executed p hp
      · rw [List.mem_singleton.mp hp]
        exact h.executing i c stmt hi
    | _ =>
      rw [hi] at hs
      cases hs
  | fail i =>
    rw [step] at hs
    cases hi : s.clients i <;> simp only [hi, reduceCtorEq] at hs
    cases hs
    exact ⟨h.goto i (fun _ _ hp => nomatch hp) fun _ _ => Position.noConfusion, fun hown => iff_of_true hown trivial⟩

omit [DecidableEq ι] in
theorem kept_initial : Kept (initial ι) :=
  ⟨fun _ _ h => (nomatch h), fun _ _ _ h => Position.noConfusion h, fun _ _ _ h => Position.noConfusion h, fun _ hp => absurd hp List.not_mem_nil⟩

/-- **Each call gets a statement that is built for its own table and fields** just if it comes upon none of another table; then it executes
no other. -/
theorem ownStatement_iff {ls : List (Label ι)} {s : CassandraClients ι} (h : exec step (initial ι) ls = some s) :
    (Always step OwnStatement (initial ι) ls ↔ Meets step ComesUponOwn (initial ι) ls) ∧
      (Meets step ComesUponOwn (initial ι) ls → ∀ p ∈ s.executed, p.2 = p.1.statement) := by
  have hkept : ∀ (s : CassandraClients ι) (l : Label ι) (s' : CassandraClients ι), Kept s → step s l = some s' → Kept s' :=
    fun _ _ _ hI hs => (step_spec hI hs).1
  have hiff := always_iff_meets hkept (fun _ _ _ hI hP hs => (step_spec hI hs).2 hP) kept_initial
    (fun _ hp => absurd hp List.not_mem_nil) h
  refine ⟨hiff, fun hmeets p hp => ?_⟩
  exact (hiff.mpr hmeets).last h p ((exec_invariant hkept kept_initial h).executed p hp)

/-- Two reads of one table, the second by the statement of the first. -/
theorem ownStatement_iff_two : ∃ s, exec step (initial Unit)
      [.call () (.read [1] [0] none), .prepare () true, .store (), .execute (), .call () (.read [1] [2] none), .execute ()] = some s ∧
      s.executed.length = 2 ∧ ∀ p ∈ s.executed, p.2 = p.1.statement := by
  have hmeets : Meets step ComesUponOwn (initial Unit)
      [.call () (.read [1] [0] none), .prepare () true, .store (), .execute (), .call () (.read [1] [2] none), .execute ()] := by decide
  obtain ⟨s, hs⟩ : ∃ s, exec step (initial Unit)
      [.call () (.read [1] [0] none), .prepare () true, .store (), .execute (), .call () (.read [1] [2] none), .execute ()] = some s := ⟨_, rfl⟩
  refine ⟨s, hs, ?_, (ownStatement_iff hs).2 hmeets⟩
  cases hs
  rfl

/-- **A read of one table executes the statement of another.** -/
theorem not_ownStatement : ∃ s, exec step (initial Unit)
      [.call () (.read [1] [0] none), .prepare () true, .store (), .execute (), .call () (.read [2] [0] none), .execute ()] = some s ∧
      ∃ p ∈ s.executed, p.2 ≠ p.1.statement := by
  exact ⟨_, rfl, (.read [2] [0] none, ⟨⟨.read, none⟩, [1]⟩), List.mem_append_right _ (List.mem_singleton.mpr rfl), by decide⟩

end Step

end CassandraClients

end YcsbIvs.Cassandra
