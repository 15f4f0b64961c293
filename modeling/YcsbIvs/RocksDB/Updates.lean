import YcsbIvs.RocksDB.Binding
import YcsbIvs.RocksDB.Sessions

/-!
# Two updates at once

`update` reads the whole record, puts its own values over it, and writes the whole record back. The database
carries out the `get` and the `put` each at once, but nothing keeps another thread from coming
between the two. Here two threads update one record, each with its own map of values, and a run is an
order of their halves (`step`).

A thread whose `put` comes when the record is not any more what it has read undoes what was written in between.
So of two updates that name different fields **both are kept just when neither writes over a record that has
changed since it read it** (`bothKept_iff`).
-/

namespace YcsbIvs.RocksDB

open YcsbIvs.Foundations YcsbIvs.Core

namespace RocksDb

/-! ### The two halves -/

/-- How far `update` has come. -/
inductive Phase where
  /-- It has read the record, in this column family. -/
  | read (cf : Bytes) (result : Values Name)
  /-- It has returned. -/
  | done (st : Status)

/-- `update` up to its `get`, and what that gives. -/
def updateGet (db : RocksDb) (table : Utf16) (key : Name) : Except Throwable (Phase × RocksDb) :=
  match db.columnFamily table with
  | (none, db) => .ok (.done .error, db)
  | (some cf, db) =>
    match db.get cf key.getBytes with
    | (none, db) => .ok (.done .error, db)
    | (some none, db) => .ok (.done .notFound, db)
    | (some (some currentValues), db) => do
      let result ← deserializeValues currentValues none ∅
      .ok (.read cf result, db)

/-- `update` from there on. -/
def updatePut (order : IterationOrder) (db : RocksDb) (cf : Bytes) (key : Name) (values result : Values Name) :
    Except Throwable (Status × RocksDb) := do
  let (bytes, _) ← serializeValues order (values ∪ result)
  match db.put cf key.getBytes bytes with
  | (false, db) => .ok (.error, db)
  | (true, db) => .ok (.ok, db)

/-- `update` is its two halves, one after the other. -/
theorem update_eq_halves (order : IterationOrder) (db : RocksDb) (table : Utf16) (key : Name) (values : Values Name) :
    (db.update order table key values).map (fun r => (r.1, r.2.2)) = (do
      let (phase, db) ← db.updateGet table key
      match phase with
      | .read cf result => updatePut order db cf key values result
      | .done st => .ok (st, db)) := by
  rw [update, updateGet]
  rcases db.columnFamily table with ⟨_ | cf, db₁⟩
  · rfl
  · dsimp only
    rcases db₁.get cf key.getBytes with ⟨_ | _ | currentValues, db₂⟩
    · rfl
    · rfl
    · dsimp only
      cases deserializeValues currentValues none ∅ with
      | error e => rfl
      | ok result =>
        simp only [bind, Except.bind, updatePut]
        cases serializeValues order (values ∪ result) with
        | error e => rfl
        | ok o =>
          dsimp only
          rcases db₂.put cf key.getBytes o.1 with ⟨_ | _, db₃⟩ <;> rfl

/-- A table that is in `COLUMN_FAMILIES` is only looked up. -/
theorem columnFamily_of_some {db : RocksDb} {table : Utf16} {cf : Bytes} (h : db.columnFamilies table = some cf) :
    db.columnFamily table = (some cf, db) := by
  rw [columnFamily, h]
  rfl

/-- The first half changes no record. If it goes on it holds the record. -/
theorem updateGet_spec {db db' : RocksDb} {table : Utf16} {key : Name} {phase : Phase} (h : Inv db)
    (hget : db.updateGet table key = .ok (phase, db')) :
    Unchanged db db' ∧ (∀ cf, db.columnFamilies table = some cf → db'.columnFamilies table = some cf) ∧
      ((∃ st, phase = .done st ∧ st ≠ .ok) ∨
        ∃ cf result r, phase = .read cf result ∧ db'.columnFamilies table = some cf ∧ db.records table key = some r ∧
          HoldsRecord result r) := by
  obtain ⟨cf, db₁, hcf, hun, hsome, -⟩ := columnFamily_spec h table
  have hkeep : ∀ c, db.columnFamilies table = some c → db₁.columnFamilies table = some c := by
    intro c hc
    rw [columnFamily_of_some hc] at hcf
    obtain ⟨-, rfl⟩ := Prod.mk.inj hcf
    exact hc
  rw [updateGet, hcf] at hget
  cases cf with
  | none =>
    cases hget
    exact ⟨hun, hkeep, .inl ⟨_, rfl, by decide⟩⟩
  | some cf =>
    have hcalled := hun.trans (.called hun.inv)
    rcases get_spec hun.inv (hsome cf rfl) key with ⟨hg, hvb⟩ | ⟨hg, -⟩
    · rw [hun.valueOf_eq] at hg hvb
      simp only [hg] at hget
      cases hv : db.valueOf table key with
      | none =>
        rw [hv] at hget
        cases hget
        exact ⟨hcalled, hkeep, .inl ⟨_, rfl, by decide⟩⟩
      | some vb =>
        obtain ⟨result, hok, hholds, -⟩ := deserializeValues_of_isRecord (hvb vb hv) none
        rw [hv] at hget
        simp only [hok, bind, Except.bind] at hget
        cases hget
        exact ⟨hcalled, hkeep, .inr ⟨cf, result, recordOf vb, rfl, hsome cf rfl, by rw [records, hv]; rfl, hholds⟩⟩
    · simp only [hg] at hget
      cases hget
      exact ⟨hcalled, hkeep, .inl ⟨_, rfl, by decide⟩⟩

/-- The second half writes what was read with the values over it, or fails and changes no record. -/
theorem updatePut_spec {order : IterationOrder} {db db' : RocksDb} {table : Utf16} {cf : Bytes} {key : Name}
    {values result : Values Name} {st : Status} (h : Inv db) (hcf : db.columnFamilies table = some cf)
    (hput : updatePut order db cf key values result = .ok (st, db')) :
    db'.columnFamilies = db.columnFamilies ∧
      ((st = .error ∧ Unchanged db db') ∨ (st = .ok ∧ Changed table key (some ((contentsOf result).merge values)) db db')) := by
  obtain ⟨⟨bytes, values'⟩, hser, hput⟩ := bind_inv hput
  dsimp only at hput
  obtain ⟨-, -, hrec, hcont⟩ := recordOf_serializeValues hser
  have hnames := (sameNames_put db cf key.getBytes bytes).columnFamilies
  rcases put_spec h hcf key hrec with ⟨db₂, hp, hch⟩ | ⟨hp, -⟩
  · rw [hp] at hput hnames
    cases hput
    rw [hcont, contentsOf_union] at hch
    exact ⟨hnames, .inr ⟨rfl, hch⟩⟩
  · rw [hp] at hput hnames
    cases hput
    exact ⟨hnames, .inl ⟨rfl, .called h⟩⟩

end RocksDb

/-! ### Runs of two updates -/

/-- One of two threads. -/
inductive Thread where
  /-- The one. -/
  | first
  /-- The other. -/
  | second
  deriving DecidableEq, Repr

/-- The other thread. -/
def Thread.other : Thread → Thread
  | first => second
  | second => first

/-- The database, and how far each thread has come; `none` before it has begun. -/
structure Updating where
  /-- The database. -/
  db : RocksDb
  /-- Each thread's `update`. -/
  phase : Thread → Option RocksDb.Phase

/-- A thread has come this far, and the database is now `db`. -/
def Updating.next (s : Updating) (t : Thread) (db : RocksDb) (phase : RocksDb.Phase) : Updating :=
  ⟨db, Function.update s.phase t (some phase)⟩

theorem Updating.phase_next (s : Updating) (t t' : Thread) (db : RocksDb) (phase : RocksDb.Phase) :
    (s.next t db phase).phase t' = if t' = t then some phase else s.phase t' := Function.update_apply _ _ _ _

/-- What the two threads do: each updates the record with its own values. -/
structure Updates where
  /-- The order in which each goes through the map it writes. -/
  order : Thread → IterationOrder
  /-- The table. -/
  table : Utf16
  /-- The key. -/
  key : Name
  /-- The values. -/
  values : Thread → Values Name

namespace Updates

variable (u : Updates)

/-- Nobody has begun. -/
def start (db : RocksDb) : Updating := ⟨db, fun _ => none⟩

/-- The next half of a thread's `update`, done at once, unless it throws. -/
def step (s : Updating) (t : Thread) : Option Updating :=
  match s.phase t with
  | none =>
    match s.db.updateGet u.table u.key with
    | .ok (phase, db) => some (s.next t db phase)
    | .error _ => none
  | some (.read cf result) =>
    match RocksDb.updatePut (u.order t) s.db cf u.key (u.values t) result with
    | .ok (st, db) => some (s.next t db (.done st))
    | .error _ => none
  | some (.done _) => none

/-- The record. -/
def stored (s : Updating) : Option (Record Name) := s.db.records u.table u.key

/-- A thread's `update` has returned `OK`. -/
def Succeeded (s : Updating) (t : Thread) : Prop := s.phase t = some (.done .ok)

/-- The fields the two name are not the same. -/
def Disjoint : Prop := ∀ f, f ∈ u.values .first → f ∉ u.values .second

/-- The record has the values of both, and else those of `r`. -/
def BothKept (r r' : Record Name) : Prop :=
  (∀ t f it, (u.values t).lookup f = some it → r' f = it.contents) ∧
    ∀ f, f ∉ u.values .first → f ∉ u.values .second → r' f = r f

/-- If it is a `put`, the record is still what the thread has read. -/
def Current (s : Updating) (t : Thread) : Prop :=
  match s.phase t with
  | some (.read _ result) => u.stored s = some (contentsOf result)
  | _ => True

/-! ### What a half does -/

/-- What a half of an `update` does. -/
inductive Moves (s : Updating) (t : Thread) : Updating → Prop where
  /-- It has read the record. -/
  | read {db cf result r} (hidle : s.phase t = none) (hun : RocksDb.Unchanged s.db db)
      (hkeep : ∀ c, s.db.columnFamilies u.table = some c → db.columnFamilies u.table = some c)
      (hcf : db.columnFamilies u.table = some cf) (hr : u.stored s = some r) (hresult : HoldsRecord result r) :
      Moves s t (s.next t db (.read cf result))
  /-- It has written the record. -/
  | put {db cf result} (hread : s.phase t = some (.read cf result))
      (hch : RocksDb.Changed u.table u.key (some ((contentsOf result).merge (u.values t))) s.db db)
      (hkeep : db.columnFamilies = s.db.columnFamilies) :
      Moves s t (s.next t db (.done .ok))
  /-- It has failed. -/
  | failed {db st} (hst : st ≠ .ok) (hinv : db.Inv) : Moves s t (s.next t db (.done st))

variable {u}

theorem step_moves {s s' : Updating} {t : Thread} (hinv : s.db.Inv)
    (hcf : ∀ cf result, s.phase t = some (.read cf result) → s.db.columnFamilies u.table = some cf)
    (h : u.step s t = some s') : u.Moves s t s' := by
  rw [step] at h
  cases hphase : s.phase t with
  | none =>
    simp only [hphase] at h
    cases hget : s.db.updateGet u.table u.key with
    | error e => simp [hget] at h
    | ok o =>
      obtain ⟨phase, db⟩ := o
      simp only [hget, Option.some.injEq] at h
      subst h
      obtain ⟨hun, hkeep, ⟨st, rfl, hst⟩ | ⟨cf, result, r, rfl, hcf', hr, hholds⟩⟩ := RocksDb.updateGet_spec hinv hget
      · exact .failed hst hun.inv
      · exact .read hphase hun hkeep hcf' hr hholds
  | some phase =>
    cases phase with
    | done st => simp [hphase] at h
    | read cf result =>
      simp only [hphase] at h
      cases hput : RocksDb.updatePut (u.order t) s.db cf u.key (u.values t) result with
      | error e => simp [hput] at h
      | ok o =>
        obtain ⟨st, db⟩ := o
        simp only [hput, Option.some.injEq] at h
        subst h
        obtain ⟨hkeep, ⟨rfl, hun⟩ | ⟨rfl, hch⟩⟩ := RocksDb.updatePut_spec hinv (hcf cf result hphase) hput
        · exact .failed (by decide) hun.inv
        · exact .put hphase hch hkeep

theorem Moves.inv {s s' : Updating} {t : Thread} (h : u.Moves s t s') : s'.db.Inv := by
  cases h with
  | read _ hun _ _ _ _ => exact hun.inv
  | put _ hch _ => exact hch.inv
  | failed _ hinv => exact hinv

/-- A step is of one thread. -/
theorem phase_step {s s' : Updating} {t t' : Thread} (h : u.step s t = some s') (ht : t' ≠ t) : s'.phase t' = s.phase t' := by
  rw [step] at h
  split at h
  · split at h
    · cases h
      rw [Updating.phase_next, if_neg ht]
    · cases h
  · split at h
    · cases h
      rw [Updating.phase_next, if_neg ht]
    · cases h
  · cases h

/-- What a thread has returned stays. -/
theorem phase_of_done {s s' : Updating} {ls : List Thread} {t : Thread} {st : Status} (h : exec u.step s ls = some s')
    (hdone : s.phase t = some (.done st)) : s'.phase t = some (.done st) := by
  refine exec_invariant (I := fun s => s.phase t = some (.done st)) (fun s t' s' hs hstep => ?_) hdone h
  by_cases ht : t = t'
  · subst ht
    rw [step, hs] at hstep
    cases hstep
  · rw [phase_step hstep ht, hs]

/-- When both have returned nothing more happens. -/
theorem eq_of_returned {s s' : Updating} {ls : List Thread} (h : exec u.step s ls = some s') (hall : ∀ t, Succeeded s t) : s' = s := by
  cases ls with
  | nil =>
    cases h
    rfl
  | cons t ls =>
    obtain ⟨s₁, hs₁, -⟩ := exec_cons h
    rw [step, show s.phase t = some (.done .ok) from hall t] at hs₁
    cases hs₁

/-! ### The record -/

/-- The record with the values of both. -/
def both (u : Updates) (r : Record Name) : Record Name := (r.merge (u.values .first)).merge (u.values .second)

theorem both_eq (hdisj : u.Disjoint) (r : Record Name) (t : Thread) : u.both r = (r.merge (u.values t.other)).merge (u.values t) := by
  cases t with
  | second => rfl
  | first =>
    funext f
    rw [both, Thread.other]
    by_cases hf : f ∈ u.values .first
    · obtain ⟨it, hit⟩ := Option.isSome_iff_exists.mp (AList.lookup_isSome.mpr hf)
      rw [Record.merge_of_notMem (hdisj f hf), Record.merge_of_lookup hit, Record.merge_of_lookup hit]
    · rw [Record.merge_of_notMem (r := r.merge _) hf]
      by_cases hf' : f ∈ u.values .second
      · obtain ⟨it, hit⟩ := Option.isSome_iff_exists.mp (AList.lookup_isSome.mpr hf')
        rw [Record.merge_of_lookup hit, Record.merge_of_lookup hit]
      · rw [Record.merge_of_notMem hf', Record.merge_of_notMem hf', Record.merge_of_notMem hf]

theorem bothKept_iff_eq (hdisj : u.Disjoint) {r r' : Record Name} : u.BothKept r r' ↔ r' = u.both r := by
  constructor
  · rintro ⟨hnew, hold⟩
    funext f
    rw [both]
    by_cases hf' : f ∈ u.values .second
    · obtain ⟨it, hit⟩ := Option.isSome_iff_exists.mp (AList.lookup_isSome.mpr hf')
      rw [Record.merge_of_lookup hit, hnew _ f it hit]
    · rw [Record.merge_of_notMem hf']
      by_cases hf : f ∈ u.values .first
      · obtain ⟨it, hit⟩ := Option.isSome_iff_exists.mp (AList.lookup_isSome.mpr hf)
        rw [Record.merge_of_lookup hit, hnew _ f it hit]
      · rw [Record.merge_of_notMem hf, hold f hf hf']
  · rintro rfl
    refine ⟨fun t f it hit => ?_, fun f hf hf' => ?_⟩
    · rw [both_eq hdisj r t, Record.merge_of_lookup hit]
    · rw [both, Record.merge_of_notMem hf', Record.merge_of_notMem hf]

/-- Two records that agree on some fields, and with values over those, agree. -/
theorem eq_of_merge {r r' : Record Name} {values : Values Name} (hin : ∀ f ∈ values, r f = r' f)
    (h : r.merge values = r'.merge values) : r = r' := by
  funext f
  by_cases hf : f ∈ values
  · exact hin f hf
  · have hfield := congrFun h f
    rwa [Record.merge_of_notMem hf, Record.merge_of_notMem hf] at hfield

/-! ### Runs -/

/-- What holds while no `update` has failed, if the record was `r`. -/
structure Upto (u : Updates) (r : Record Name) (s : Updating) : Prop where
  /-- The database is in order. -/
  inv : s.db.Inv
  /-- No `update` has failed. -/
  succeeded : ∀ t st, s.phase t = some (.done st) → st = .ok
  /-- There is a record. -/
  present : ∃ r', u.stored s = some r'
  /-- Before the first `put` the record is as it was. -/
  before : (∀ t, ¬ Succeeded s t) → u.stored s = some r
  /-- After it it has the values of that thread. -/
  after : ∀ t, Succeeded s t → ¬ Succeeded s t.other → u.stored s = some (r.merge (u.values t))
  /-- A thread that has read the record has read it as it was, or as the other has left it. -/
  reading : ∀ t cf result, s.phase t = some (.read cf result) → s.db.columnFamilies u.table = some cf ∧
    (contentsOf result = r ∨ Succeeded s t.other ∧ contentsOf result = r.merge (u.values t.other))

/-- When both have returned the record has the values of both. -/
def Kept (u : Updates) (r : Record Name) (s : Updating) : Prop := (∀ t, Succeeded s t) → u.stored s = some (u.both r)

theorem forall_thread {P : Thread → Prop} (t : Thread) : (∀ t, P t) ↔ P t ∧ P t.other := by
  constructor
  · exact fun h => ⟨h t, h t.other⟩
  · rintro ⟨h, h'⟩ t'
    cases t <;> cases t' <;> assumption

theorem ne_other (t : Thread) : t.other ≠ t := by cases t <;> decide

theorem eq_other {t t' : Thread} (h : ¬ t' = t) : t'.other = t := by
  cases t <;> cases t' <;> first | rfl | exact absurd rfl h

theorem other_other (t : Thread) : t.other.other = t := by cases t <;> rfl

section Step

variable {r : Record Name} {s : Updating} {t : Thread}

theorem succeeded_next {db : RocksDb} {phase : RocksDb.Phase} {t' : Thread} :
    Succeeded (s.next t db phase) t' ↔ if t' = t then phase = .done .ok else Succeeded s t' := by
  rw [Succeeded, Updating.phase_next]
  split_ifs with ht
  · rw [Option.some.injEq]
  · rfl

/-- After a `get` all is as before. -/
theorem Upto.read (h : u.Upto r s) {db : RocksDb} {cf : Bytes} {result : Values Name} {now : Record Name} (hidle : s.phase t = none)
    (hun : RocksDb.Unchanged s.db db) (hkeep : ∀ c, s.db.columnFamilies u.table = some c → db.columnFamilies u.table = some c)
    (hcf : db.columnFamilies u.table = some cf) (hnow : u.stored s = some now) (hresult : HoldsRecord result now) :
    u.Upto r (s.next t db (.read cf result)) := by
  have hstored : u.stored (s.next t db (.read cf result)) = u.stored s := congrFun (congrFun hun.records_eq u.table) u.key
  have hnot : ¬ Succeeded s t := by simp [Succeeded, hidle]
  have hsame : ∀ t', Succeeded (s.next t db (.read cf result)) t' ↔ Succeeded s t' := by
    intro t'
    rw [succeeded_next]
    split_ifs with ht
    · subst ht
      exact iff_of_false (by simp) hnot
    · exact Iff.rfl
  constructor
  · exact hun.inv
  · intro t' st hphase
    rw [Updating.phase_next] at hphase
    split_ifs at hphase with ht
    · cases hphase
    · exact h.succeeded t' st hphase
  · exact ⟨now, hstored.trans hnow⟩
  · simp only [hsame, hstored]
    exact h.before
  · simp only [hsame, hstored]
    exact h.after
  · simp only [hsame]
    intro t' cf' result' hphase
    rw [Updating.phase_next] at hphase
    split_ifs at hphase with ht
    · subst ht
      simp only [Option.some.injEq, RocksDb.Phase.read.injEq] at hphase
      obtain ⟨rfl, rfl⟩ := hphase
      refine ⟨hcf, ?_⟩
      rw [hresult.2]
      by_cases hother : Succeeded s t'.other
      · have hafter := h.after t'.other hother (by rwa [other_other])
        exact .inr ⟨hother, Option.some.inj (hnow.symm.trans hafter)⟩
      · have hbefore := h.before ((forall_thread t').mpr ⟨hnot, hother⟩)
        exact .inl (Option.some.inj (hnow.symm.trans hbefore))
    · obtain ⟨hcf', hreads⟩ := h.reading t' cf' result' hphase
      exact ⟨hkeep cf' hcf', hreads⟩

/-- After a `put` too. -/
theorem Upto.put (h : u.Upto r s) {db : RocksDb} {cf : Bytes} {result : Values Name} (hread : s.phase t = some (.read cf result))
    (hch : RocksDb.Changed u.table u.key (some ((contentsOf result).merge (u.values t))) s.db db)
    (hkeep : db.columnFamilies = s.db.columnFamilies) : u.Upto r (s.next t db (.done .ok)) := by
  have hstored : u.stored (s.next t db (.done .ok)) = some ((contentsOf result).merge (u.values t)) := by
    have hrecords : u.stored (s.next t db (.done .ok)) = db.records u.table u.key := rfl
    rw [hrecords, hch.records_eq, Records.set_self]
  have hself : Succeeded (s.next t db (.done .ok)) t := succeeded_next.mpr (by rw [if_pos rfl])
  have hother : Succeeded (s.next t db (.done .ok)) t.other ↔ Succeeded s t.other := by
    rw [succeeded_next, if_neg (ne_other t)]
  obtain ⟨hcf, hreads⟩ := h.reading t cf result hread
  constructor
  · exact hch.inv
  · intro t' st hphase
    rw [Updating.phase_next] at hphase
    split_ifs at hphase with ht
    · simpa using hphase.symm
    · exact h.succeeded t' st hphase
  · exact ⟨_, hstored⟩
  · exact fun hnone => absurd hself (hnone t)
  · rw [forall_thread t]
    refine ⟨fun _ hnot => ?_, fun _ hnot => absurd hself (by rwa [other_other] at hnot)⟩
    rw [hother] at hnot
    rcases hreads with hr | ⟨hyes, -⟩
    · rw [hstored, hr]
    · exact absurd hyes hnot
  · intro t' cf' result' hphase
    rw [Updating.phase_next] at hphase
    split_ifs at hphase with ht
    · cases hphase
    · obtain ⟨hcf', hreads'⟩ := h.reading t' cf' result' hphase
      have hfamilies : (s.next t db (.done .ok)).db.columnFamilies = s.db.columnFamilies := hkeep
      refine ⟨by rw [hfamilies, hcf'], ?_⟩
      rcases hreads' with hr | ⟨hyes, -⟩
      · exact .inl hr
      · rw [eq_other ht, Succeeded, hread] at hyes
        cases hyes

/-- A step keeps the record right just when it does not write over one that has changed. -/
theorem kept_step {s' : Updating} (hdisj : u.Disjoint) (h : u.Upto r s) (hmoves : u.Moves s t s')
    (hok : ∀ st, s'.phase t = some (.done st) → st = .ok) : u.Upto r s' ∧ (u.Kept r s' ↔ u.Current s t) := by
  cases hmoves with
  | @failed db st hst _ =>
    exact absurd (hok st (by rw [Updating.phase_next, if_pos rfl])) hst
  | read hidle hun hkeep hcf hnow hresult =>
    refine ⟨h.read hidle hun hkeep hcf hnow hresult, iff_of_true (fun hall => ?_) ?_⟩
    · have hself := hall t
      rw [succeeded_next, if_pos rfl] at hself
      cases hself
    · simp only [Current, hidle]
  | @put db cf result hread hch hkeep =>
    refine ⟨h.put hread hch hkeep, ?_⟩
    have hstored : u.stored (s.next t db (.done .ok)) = some ((contentsOf result).merge (u.values t)) := by
      have hrecords : u.stored (s.next t db (.done .ok)) = db.records u.table u.key := rfl
      rw [hrecords, hch.records_eq, Records.set_self]
    have hnot : ¬ Succeeded s t := by
      rw [Succeeded, hread]
      simp
    have hall : (∀ t', Succeeded (s.next t db (.done .ok)) t') ↔ Succeeded s t.other := by
      rw [forall_thread t, succeeded_next, if_pos rfl, succeeded_next, if_neg (ne_other t)]
      exact and_iff_right rfl
    obtain ⟨-, hreads⟩ := h.reading t cf result hread
    rw [Kept, hall, hstored, Option.some.injEq, both_eq hdisj r t]
    simp only [Current, hread]
    by_cases hother : Succeeded s t.other
    · rw [h.after t.other hother (by rwa [other_other]), Option.some.injEq]
      constructor
      · intro heq
        refine (eq_of_merge (fun f hf => ?_) (heq hother)).symm
        -- a field of its own is not one of the other's
        have hnotin : f ∉ u.values t.other := by
          cases t with
          | first => exact hdisj f hf
          | second => exact fun hf' => hdisj f hf' hf
        rcases hreads with hr | ⟨-, hr⟩
        · rw [hr, Record.merge_of_notMem hnotin]
        · rw [hr]
      · rintro heq -
        rw [← heq]
    · refine iff_of_true (fun hyes => absurd hyes hother) ?_
      rw [h.before ((forall_thread t).mpr ⟨hnot, hother⟩)]
      rcases hreads with hr | ⟨hyes, -⟩
      · rw [hr]
      · exact absurd hyes hother

end Step

/-- Of a run in which both succeed, the record is right at the end just when no step writes over one that has changed. -/
theorem kept_iff {r : Record Name} {s s' : Updating} {ls : List Thread} (hdisj : u.Disjoint) (h : u.Upto r s) (hkept : u.Kept r s)
    (hexec : exec u.step s ls = some s') (hboth : ∀ t, Succeeded s' t) :
    u.Upto r s' ∧ (u.Kept r s' ↔ Meets u.step u.Current s ls) := by
  induction ls generalizing s with
  | nil =>
    cases hexec
    exact ⟨h, iff_of_true hkept trivial⟩
  | cons t ls ih =>
    obtain ⟨s₁, hs₁, hrest⟩ := exec_cons hexec
    have hok : ∀ st, s₁.phase t = some (.done st) → st = .ok := by
      intro st hst
      have hlast := phase_of_done hrest hst
      rw [show s'.phase t = some (.done .ok) from hboth t] at hlast
      simpa using hlast.symm
    obtain ⟨hupto, hiff⟩ := kept_step hdisj h (step_moves h.inv (fun cf result hp => (h.reading t cf result hp).1) hs₁) hok
    have honly : ∀ s₂, u.step s t = some s₂ → s₂ = s₁ := fun s₂ h₂ => Option.some.inj (h₂.symm.trans hs₁)
    by_cases hcur : u.Current s t
    · obtain ⟨hend, hmeets⟩ := ih hupto (hiff.mpr hcur) hrest
      refine ⟨hend, hmeets.trans ⟨fun hrun => ⟨hcur, fun s₂ h₂ => honly s₂ h₂ ▸ hrun⟩, fun hrun => hrun.2 s₁ hs₁⟩⟩
    · -- Then it is the later of the two `put`s, and what the other has written is undone.
      have hundone := mt hiff.mp hcur
      have hreturned := (Classical.not_imp.mp hundone).1
      rw [eq_of_returned hrest hreturned]
      exact ⟨hupto, iff_of_false hundone fun hmeets => hcur hmeets.1⟩

end Updates

open Updates

/-- **Two updates of a record that name different fields are both kept just when neither writes over a record that has
changed since it read it**, in any order of their halves in which both return `OK`. -/
theorem bothKept_iff {u : Updates} (hdisj : u.Disjoint) {db : RocksDb} (hinv : db.Inv) {ls : List Thread} {s : Updating}
    (hexec : exec u.step (start db) ls = some s) (hboth : ∀ t, Succeeded s t) :
    ∃ r r', db.records u.table u.key = some r ∧ u.stored s = some r' ∧
      (u.BothKept r r' ↔ Meets u.step u.Current (start db) ls) := by
  have hrecord : ∃ r, db.records u.table u.key = some r := by
    cases ls with
    | nil =>
      cases hexec
      exact nomatch hboth .first
    | cons t ls =>
      obtain ⟨s₁, hs₁, hrest⟩ := exec_cons hexec
      have hmoves := step_moves (s := start db) hinv (fun cf result hp => nomatch hp) hs₁
      cases hmoves with
      | read _ _ _ _ hr _ => exact ⟨_, hr⟩
      | put hread _ _ => cases hread
      | @failed db' st hst _ =>
        have hfailed : ((start db).next t db' (.done st)).phase t = some (.done st) := by rw [Updating.phase_next, if_pos rfl]
        have hlast := phase_of_done hrest hfailed
        rw [show s.phase t = some (.done .ok) from hboth t] at hlast
        simp only [Option.some.injEq, RocksDb.Phase.done.injEq] at hlast
        exact absurd hlast.symm hst
  obtain ⟨r, hr⟩ := hrecord
  have hnone : ∀ t, ¬ Succeeded (start db) t := fun t ht => nomatch ht
  have hupto : u.Upto r (start db) := by
    refine ⟨hinv, ?_, ⟨r, hr⟩, fun _ => hr, fun t ht => absurd ht (hnone t), ?_⟩
    · exact fun t st hp => nomatch hp
    · exact fun t cf result hp => nomatch hp
  obtain ⟨hend, hiff⟩ := kept_iff hdisj hupto (fun hall => absurd (hall .first) (hnone _)) hexec hboth
  obtain ⟨r', hr'⟩ := hend.present
  refine ⟨r, r', hr, hr', ?_⟩
  rw [bothKept_iff_eq hdisj, ← hiff, Kept, hr', Option.some.injEq]
  exact ⟨fun heq _ => heq, fun hall => hall hboth⟩

/-- A thread that writes right after it has read writes over what it has read. -/
theorem current_of_get {u : Updates} {s s' : Updating} {t : Thread} (hidle : s.phase t = none) (hmoves : u.Moves s t s') :
    u.Current s' t := by
  cases hmoves with
  | read _ hun _ _ hr hresult =>
    simp only [Current, Updating.phase_next, if_true]
    rw [hresult.2, ← hr]
    exact congrFun (congrFun hun.records_eq u.table) u.key
  | put hread _ _ =>
    rw [hidle] at hread
    cases hread
  | failed _ _ => simp only [Current, Updating.phase_next, if_true]

/-- One `update` after the other. -/
theorem meets_serial {u : Updates} {db : RocksDb} (hinv : db.Inv) {s : Updating} {t : Thread}
    (hexec : exec u.step (start db) [t, t, t.other, t.other] = some s) :
    Meets u.step u.Current (start db) [t, t, t.other, t.other] := by
  obtain ⟨s₁, h₁, hrest⟩ := exec_cons hexec
  obtain ⟨s₂, h₂, hrest⟩ := exec_cons hrest
  obtain ⟨s₃, h₃, -⟩ := exec_cons hrest
  have hmoves₁ := step_moves (s := start db) hinv (fun cf result hp => nomatch hp) h₁
  have hmoves₂ : u.Moves s₁ t s₂ := by
    refine step_moves hmoves₁.inv (fun cf result hp => ?_) h₂
    cases hmoves₁ with
    | read _ _ _ hcf _ _ =>
      simp only [Updating.phase_next, if_true, Option.some.injEq, RocksDb.Phase.read.injEq] at hp
      exact hp.1 ▸ hcf
    | put hread _ _ => cases hread
    | failed _ _ =>
      rw [Updating.phase_next, if_pos rfl] at hp
      cases hp
  have hidle : s₂.phase t.other = none := by
    rw [phase_step h₂ (ne_other t), phase_step h₁ (ne_other t)]
    rfl
  have hmoves₃ := step_moves hmoves₂.inv (fun cf result hp => by rw [hidle] at hp; cases hp) h₃
  have honly : ∀ {a b : Updating} {t}, u.step a t = some b → ∀ c, u.step a t = some c → c = b :=
    fun hb c hc => Option.some.inj (hc.symm.trans hb)
  refine ⟨trivial, fun a ha => ?_⟩
  rw [honly h₁ a ha]
  refine ⟨current_of_get rfl hmoves₁, fun b hb => ?_⟩
  rw [honly h₂ b hb]
  refine ⟨by simp only [Current, hidle], fun c hc => ?_⟩
  rw [honly h₃ c hc]
  exact ⟨current_of_get hidle hmoves₃, fun _ _ => trivial⟩

/-- A map with the one field `g`. -/
def fieldG (it : ByteIterator) : Values Name := AList.singleton ⟨[0x67], rfl⟩ it

/-- One sets the field `f` to `c`, the other `g` to `d`. -/
def updateFG : Updates where
  order _ := keptOrder
  table := tableT
  key := keyK
  values
    | .first => oneField (.string (.ofString [0x63]))
    | .second => fieldG (.string (.ofString [0x64]))

theorem updateFG_disjoint : updateFG.Disjoint := by
  intro f hf hf'
  obtain ⟨it, hit⟩ := Option.isSome_iff_exists.mp (AList.lookup_isSome.mpr hf)
  obtain ⟨it', hit'⟩ := Option.isSome_iff_exists.mp (AList.lookup_isSome.mpr hf')
  obtain ⟨rfl, -⟩ := lookup_oneField hit
  exact absurd (eq_of_lookup_singleton hit').1 (by decide)

/-- The store of a record whose field `f` is `ab`. -/
def storeAb : Store := storeWith (oneField (.string (.ofString [0x61, 0x62])))

/-- The status each thread has returned. -/
def Updating.returned (s : Updating) (t : Thread) : Option Status :=
  match s.phase t with
  | some (.done st) => some st
  | _ => none

theorem succeeded_of_returned {s : Updating} {t : Thread} (h : s.returned t = some .ok) : Succeeded s t := by
  rw [Updating.returned] at h
  split at h
  · next hp => rw [Succeeded, hp, Option.some.inj h]
  · cases h

theorem exec_updateFG (ls : List Thread) (bs : Option Bytes)
    (h : (exec updateFG.step (start storeAb.1) ls).map (fun s => (s.returned .first, s.returned .second,
      (updateFG.stored s).bind fun r => r fieldF)) = some (some .ok, some .ok, bs)) :
    ∃ s, exec updateFG.step (start storeAb.1) ls = some s ∧ (∀ t, Succeeded s t) ∧ (updateFG.stored s).bind (fun r => r fieldF) = bs := by
  obtain ⟨s, hs, heq⟩ := Option.map_eq_some_iff.mp h
  simp only [Prod.mk.injEq] at heq
  exact ⟨s, hs, (forall_thread .first).mpr ⟨succeeded_of_returned heq.1, succeeded_of_returned heq.2.1⟩, heq.2.2⟩

theorem bothKept_iff_serial :
    ∃ s r r', exec updateFG.step (start storeAb.1) [.first, .first, .second, .second] = some s ∧
      storeAb.1.records tableT keyK = some r ∧ updateFG.stored s = some r' ∧ updateFG.BothKept r r' := by
  obtain ⟨s, hs, hboth, -⟩ := exec_updateFG [.first, .first, .second, .second] (some [0x63]) (by decide +kernel)
  obtain ⟨r, r', hr, hr', hiff⟩ := bothKept_iff updateFG_disjoint storeAb.2 hs hboth
  exact ⟨s, r, r', hs, hr, hr', hiff.mpr (meets_serial storeAb.2 hs)⟩

/-- If both read before either writes, one update is lost. -/
theorem not_bothKept :
    ¬ ∀ (u : Updates) (db : RocksDb) (ls : List Thread) (s : Updating) (r r' : Record Name), u.Disjoint → db.Inv →
      exec u.step (start db) ls = some s → (∀ t, Succeeded s t) → db.records u.table u.key = some r → u.stored s = some r' →
      u.BothKept r r' := by
  intro h
  obtain ⟨s, hs, hboth, hf⟩ := exec_updateFG [.first, .second, .first, .second] (some [0x61, 0x62]) (by decide +kernel)
  obtain ⟨r', hr', hf⟩ := Option.bind_eq_some_iff.mp hf
  have hr := records_storeWith (readable_oneField (ByteIterator.holds_ofString [0x61, 0x62])) (by decide)
  have hkept := (h updateFG storeAb.1 _ s _ r' updateFG_disjoint storeAb.2 hs hboth hr hr').1 .first fieldF _ rfl
  rw [hkept] at hf
  exact absurd hf (by decide)

end YcsbIvs.RocksDB
