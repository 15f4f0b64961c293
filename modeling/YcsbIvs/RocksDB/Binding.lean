import YcsbIvs.RocksDB.Refinement

/-!
# The RocksDB binding as a store

`RocksDBClient` is a binding that `extend` and `doInsert` can be run over: its states are the
databases in order (`Store`), and what `FaithfulStore` asks of it is what
`Operations` proves of `read`, `update` and `insert`.
-/

namespace YcsbIvs.RocksDB

open YcsbIvs.Foundations YcsbIvs.Core

/-- A database in order. -/
abbrev Store := {db : RocksDb // db.Inv}

/-- What an operation gives, its database known to be in order. -/
def inOrder (r : Except Throwable (Status × Values Name × RocksDb)) (h : ∀ o, r = .ok o → o.2.2.Inv) :
    Except Throwable (Option Status × Values Name × Store) :=
  match r, h with
  | .ok o, h => .ok (some o.1, o.2.1, ⟨o.2.2, h o rfl⟩)
  | .error e, _ => .error e

theorem inOrder_ok {r : Except Throwable (Status × Values Name × RocksDb)} {h : ∀ o, r = .ok o → o.2.2.Inv}
    {st : Option Status} {values : Values Name} {s : Store} (hr : inOrder r h = .ok (st, values, s)) :
    ∃ st', st = some st' ∧ r = .ok (st', values, s.1) := by
  cases r with
  | error e => cases hr
  | ok o =>
    cases hr
    exact ⟨o.1, rfl, rfl⟩

theorem inOrder_of_ok {r : Except Throwable (Status × Values Name × RocksDb)} {h : ∀ o, r = .ok o → o.2.2.Inv}
    {o : Status × Values Name × RocksDb} (hr : r = .ok o) :
    inOrder r h = .ok (some o.1, o.2.1, ⟨o.2.2, h o hr⟩) := by
  subst hr
  rfl

theorem read_inv {db : RocksDb} (h : db.Inv) (table : Utf16) (key : Name) (fields : Option (List Name)) :
    ∀ o, db.read table key fields ∅ = .ok o → o.2.2.Inv := by
  intro o ho
  obtain ⟨st, result, db', hread, hun, -⟩ := RocksDb.read_spec h table key fields
  rw [hread] at ho
  cases ho
  exact hun.inv

theorem update_inv {order : IterationOrder} {db : RocksDb} (h : db.Inv) {table : Utf16} {key : Name}
    {values : Values Name} : ∀ o, db.update order table key values = .ok o → o.2.2.Inv := by
  rintro ⟨st, values', db'⟩ ho
  rcases RocksDb.update_spec h ho with ⟨-, -, hun⟩ | ⟨-, -, hun⟩ | ⟨-, -, r, -, hch⟩
  · exact hun.inv
  · exact hun.inv
  · exact hch.inv

theorem insert_inv {order : IterationOrder} {db : RocksDb} (h : db.Inv) {table : Utf16} {key : Name}
    {values : Values Name} : ∀ o, db.insert order table key values = .ok o → o.2.2.Inv := by
  rintro ⟨st, values', db'⟩ ho
  rcases RocksDb.insert_spec h ho with ⟨-, -, hun⟩ | ⟨-, -, hch⟩
  · exact hun.inv
  · exact hch.inv

/-- `RocksDBClient` under `extend`. -/
def extendBinding (order : IterationOrder) : ExtendBinding Utf16 Name Store where
  read s table key fields := inOrder (s.1.read table key fields ∅) (read_inv s.2 table key fields)
  update s table key values := inOrder (s.1.update order table key values) (update_inv s.2)
  records s := s.1.records
  read_records := by
    intro s t k fields st result s' h
    obtain ⟨st', -, hr⟩ := inOrder_ok h
    obtain ⟨st₀, result₀, db', hread, hun, -⟩ := RocksDb.read_spec s.2 t k fields
    rw [hread] at hr
    cases hr
    exact hun.records_eq
  read_ok := by
    intro s t k fields result s' h
    obtain ⟨st', hst, hr⟩ := inOrder_ok h
    obtain ⟨st₀, result₀, db', hread, -, hspec⟩ := RocksDb.read_spec s.2 t k (some fields)
    rw [hread] at hr
    cases hr
    cases hst
    rcases hspec with ⟨hst, -⟩ | ⟨hst, -⟩ | ⟨-, r, hrec, ⟨-, hcont⟩, hits⟩
    · cases hst
    · cases hst
    · refine ⟨r, hrec, ⟨fun f hf bs hbs => ?_, hits⟩⟩
      have hsome : contentsOf result f = some bs := by
        rw [hcont]
        exact (if_pos hf).trans hbs
      rw [contentsOf] at hsome
      obtain ⟨it, hit, -⟩ := Option.bind_eq_some_iff.mp hsome
      exact AList.lookup_isSome.mp (by rw [hit]; rfl)
  update_records := by
    intro s t k values st values' s' h
    obtain ⟨st', rfl, hr⟩ := inOrder_ok h
    rcases RocksDb.update_spec s.2 hr with ⟨rfl, -, hun⟩ | ⟨rfl, -, hun⟩ | ⟨rfl, hread, r, hrec, hch⟩
    · exact .inr ⟨by decide, hun.records_eq⟩
    · exact .inr ⟨by decide, hun.records_eq⟩
    · exact .inl ⟨r, hrec, hread, hch.records_eq⟩

/-- `RocksDBClient` under `doInsert`. -/
def insertBinding (order : IterationOrder) : InsertBinding Utf16 Name Store where
  insert s table key values := inOrder (s.1.insert order table key values) (insert_inv s.2)
  records s := s.1.records
  drains s table _ _ _ := (s.1.columnFamily table).1.isSome
  insert_values := by
    intro s t k values st values' s' h f
    obtain ⟨st', -, hr⟩ := inOrder_ok h
    rw [RocksDb.insert_values hr]
    split_ifs with hcf
    · rw [lookup_drained]
    · cases values.lookup f <;> rfl
  insert_ok := by
    intro s t k values st values' s' h hok
    obtain ⟨st', hst, hr⟩ := inOrder_ok h
    obtain rfl : st' = st := (Option.some.inj hst).symm
    rcases RocksDb.insert_spec s.2 hr with ⟨rfl, -, -⟩ | ⟨-, hread, hch⟩
    · cases hok
    · refine ⟨hread, ?_⟩
      rw [hch.records_eq, Records.set_self]

/-- `RocksDBClient` reads back what was last written. -/
def faithfulStore (order : IterationOrder) : FaithfulStore Utf16 Name Store where
  toExtendBinding := extendBinding order
  insert := (insertBinding order).insert
  drains := (insertBinding order).drains
  insert_values := (insertBinding order).insert_values
  insert_ok := (insertBinding order).insert_ok
  read_holds := by
    intro s t k fields st result s' h f it hit
    obtain ⟨st', -, hr⟩ := inOrder_ok h
    obtain ⟨st₀, result₀, db', hread, -, hspec⟩ := RocksDb.read_spec s.2 t k fields
    rw [hread] at hr
    cases hr
    rcases hspec with ⟨-, rfl, -⟩ | ⟨-, rfl, -⟩ | ⟨-, r, hrec, -, hits⟩
    · cases hit
    · cases hit
    · obtain ⟨a, bs, ha, hholds, hbs⟩ := hits f it hit
      exact ⟨r, a, bs, hrec, ha, hholds, hbs⟩
  insert_records := by
    intro s t k values st values' s' h
    obtain ⟨st', rfl, hr⟩ := inOrder_ok h
    rcases RocksDb.insert_spec s.2 hr with ⟨rfl, -, hun⟩ | ⟨-, hread, hch⟩
    · exact .inr ⟨rfl, hun.records_eq⟩
    · exact .inl ⟨hread, hch.records_eq⟩
  update_fails := by
    intro s t k values st values' s' h hst
    obtain ⟨st', rfl, hr⟩ := inOrder_ok h
    rcases RocksDb.update_spec s.2 hr with ⟨-, -, hun⟩ | ⟨-, -, hun⟩ | ⟨rfl, -⟩
    · exact hun.records_eq
    · exact hun.records_eq
    · cases hst

/-! ### A store with one record -/

/-- The store of a new database. -/
def newStore (fails : ℕ → Bool) : Store := ⟨freshDb fails, freshDb_inv fails⟩

/-- A new store, with one record inserted. -/
def storeWith (values : Values Name) : Store :=
  match (insertBinding keptOrder).insert (newStore fun _ => false) tableT keyK values with
  | .ok (_, _, s) => s
  | .error _ => newStore fun _ => false

theorem records_storeWith {values : Values Name} (hread : Readable values) (hfits : encodedLength values < 2 ^ 31) :
    (storeWith values).1.records tableT keyK = some (contentsOf values) := by
  obtain ⟨st, values', db', hins⟩ := RocksDb.insert_fits keptOrder (freshDb fun _ => false) tableT keyK hread
    hfits
  rcases RocksDb.insert_spec (freshDb_inv _) hins with ⟨-, hnot, -⟩ | ⟨-, -, hch⟩
  · exact absurd ⟨fun _ => rfl, .inr rfl⟩ hnot
  · have hstore : (storeWith values).1 = db' := by
      have hok := inOrder_of_ok (h := insert_inv (freshDb_inv _)) hins
      simp only [storeWith, insertBinding, newStore, hok]
    rw [hstore, hch.records_eq, Records.set_self]

end YcsbIvs.RocksDB
