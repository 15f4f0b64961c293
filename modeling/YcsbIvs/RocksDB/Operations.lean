import YcsbIvs.RocksDB.Records

/-!
# What the operations of the RocksDB binding do

One lemma for each operation: on a database in order it ends, and either reports `ERROR`
and changes no record, which takes a call that fails or a table that is not available, or
does to the records what its contract says. `insert` and `update` can also end in an
`OutOfMemoryError`, when the record to be written does not fit in an array.

Both use up the iterators they are given as soon as the table has a column family,
whether or not the record is then written (`insert_values`).
-/

namespace YcsbIvs.RocksDB.RocksDb

open YcsbIvs.Foundations YcsbIvs.Core

variable {db : RocksDb} {table : Utf16} {key : Name}

/-- The operation can do its work: the table is available, and no call fails. -/
def Works (db : RocksDb) (table : Utf16) : Prop := NoFailures db ∧ Available db table

/-- `read` into an empty map. -/
theorem read_spec (h : Inv db) (table : Utf16) (key : Name) (fields : Option (List Name)) :
    ∃ st result db', db.read table key fields ∅ = .ok (st, result, db') ∧ Unchanged db db' ∧
      ((st = .error ∧ result = ∅ ∧ ¬ Works db table) ∨ (st = .notFound ∧ result = ∅ ∧ db.records table key = none) ∨
        (st = .ok ∧ ∃ r, db.records table key = some r ∧ HoldsRecord result (r.restrict fields) ∧
          ∀ f it, result.lookup f = some it → ∃ a bs, it = .byteArray a ∧ a.Holds bs ∧ r f = some bs)) := by
  obtain ⟨cf, db₁, hcf, hun, hsome, hav⟩ := columnFamily_spec h table
  rw [read, hcf]
  cases cf with
  | none => exact ⟨_, _, _, rfl, hun, .inl ⟨rfl, rfl, fun hw => absurd ((hav hw.1).mpr hw.2) (by simp)⟩⟩
  | some cf =>
    rcases get_spec hun.inv (hsome cf rfl) key with ⟨hget, hvb⟩ | ⟨hget, hfail⟩
    · rw [hun.valueOf_eq] at hget hvb
      simp only [hget, records]
      cases hv : db.valueOf table key with
      | none => exact ⟨_, _, _, rfl, hun.trans (.called hun.inv), .inr (.inl ⟨rfl, rfl, rfl⟩)⟩
      | some vb =>
        obtain ⟨result, hok, hholds, hits⟩ := deserializeValues_of_isRecord (hvb vb hv) fields
        exact ⟨.ok, result, _, by simp only [hok, bind, Except.bind], hun.trans (.called hun.inv),
          .inr (.inr ⟨rfl, recordOf vb, rfl, hholds, hits⟩)⟩
    · simp only [hget]
      exact ⟨_, _, _, rfl, hun.trans (.called hun.inv), .inl ⟨rfl, rfl, fun hw => hfail (hun.noFailures hw.1)⟩⟩

/-- `insert`: what it does once its iterators have been read. -/
theorem insert_spec {order : IterationOrder} {values values' : Values Name} {st : Status} {db' : RocksDb}
    (h : Inv db) (hins : db.insert order table key values = .ok (st, values', db')) :
    (st = .error ∧ ¬ Works db table ∧ Unchanged db db') ∨
      (st = .ok ∧ Readable values ∧ Changed table key (some (contentsOf values)) db db') := by
  obtain ⟨cf, db₁, hcf, hun, hsome, hav⟩ := columnFamily_spec h table
  rw [insert, hcf] at hins
  cases cf with
  | none =>
    simp only [Except.ok.injEq, Prod.mk.injEq] at hins
    obtain ⟨rfl, rfl, rfl⟩ := hins
    exact .inl ⟨rfl, fun hw => absurd ((hav hw.1).mpr hw.2) (by simp), hun⟩
  | some cf =>
    cases hser : serializeValues order values with
    | error e => simp [hser, bind, Except.bind] at hins
    | ok o =>
      obtain ⟨bytes, values₁⟩ := o
      obtain ⟨-, hread, hrec, hcont⟩ := recordOf_serializeValues hser
      simp only [hser, bind, Except.bind] at hins
      rcases put_spec hun.inv (hsome cf rfl) key hrec with ⟨db₂, hput, hch⟩ | ⟨hput, hfail⟩
      · simp only [hput, Except.ok.injEq, Prod.mk.injEq] at hins
        obtain ⟨rfl, rfl, rfl⟩ := hins
        rw [hcont] at hch
        exact .inr ⟨rfl, hread, .of_unchanged hun hch⟩
      · simp only [hput, Except.ok.injEq, Prod.mk.injEq] at hins
        obtain ⟨rfl, rfl, rfl⟩ := hins
        exact .inl ⟨rfl, fun hw => hfail (hun.noFailures hw.1), hun.trans (.called hun.inv)⟩

/-- `insert` uses up the iterators of the map if the table has a column family, and
leaves them as they are if not. -/
theorem insert_values {order : IterationOrder} {values values' : Values Name} {st : Status} {db' : RocksDb}
    (hins : db.insert order table key values = .ok (st, values', db')) :
    values' = if (db.columnFamily table).1.isSome then drained values else values := by
  rw [insert] at hins
  cases hcf : db.columnFamily table with
  | mk cf db₁ =>
    cases cf with
    | none =>
      simp only [hcf, Except.ok.injEq, Prod.mk.injEq] at hins
      exact hins.2.1.symm
    | some cf =>
      cases hser : serializeValues order values with
      | error e => simp [hcf, hser, bind, Except.bind] at hins
      | ok o =>
        obtain ⟨bytes, values₁⟩ := o
        obtain ⟨rfl, -⟩ := serializeValues_eq hser
        simp only [hcf, hser, bind, Except.bind] at hins
        split at hins <;> cases hins <;> rfl

/-- `insert` of a record that fits. -/
theorem insert_fits (order : IterationOrder) (db : RocksDb) (table : Utf16) (key : Name) {values : Values Name} (hread : Readable values)
    (hfits : encodedLength values < 2 ^ 31) :
    ∃ st values' db', db.insert order table key values = .ok (st, values', db') := by
  obtain ⟨bytes, hser⟩ := serializeValues_fits order hread hfits
  rw [insert]
  split
  · exact ⟨_, _, _, rfl⟩
  · simp only [hser, bind, Except.bind]
    split <;> exact ⟨_, _, _, rfl⟩

/-- The map `update` writes over a record: its own values, and for the other fields what
was read. -/
theorem contentsOf_union (values result : Values Name) :
    contentsOf (values ∪ result) = (contentsOf result).merge values := by
  funext f
  rw [contentsOf, Record.merge]
  by_cases hf : f ∈ values
  · rw [AList.lookup_union_left hf]
    obtain ⟨it, hit⟩ := Option.isSome_iff_exists.mp (AList.lookup_isSome.mpr hf)
    rw [hit]
    rfl
  · rw [AList.lookup_union_right hf, AList.lookup_eq_none.mpr hf]
    rfl

theorem readable_of_union {values result : Values Name} (h : Readable (values ∪ result)) : Readable values := by
  intro f it hit
  have hf : f ∈ values := AList.lookup_isSome.mp (by rw [hit]; rfl)
  exact h f it (by rw [AList.lookup_union_left hf, hit])

theorem readable_union {values result : Values Name} (hv : Readable values) (hr : Readable result) :
    Readable (values ∪ result) := by
  intro f it hit
  by_cases hf : f ∈ values
  · rw [AList.lookup_union_left hf] at hit
    exact hv f it hit
  · rw [AList.lookup_union_right hf] at hit
    exact hr f it hit

/-- `update`: what it does once its iterators have been read. -/
theorem update_spec {order : IterationOrder} {values values' : Values Name} {st : Status} {db' : RocksDb}
    (h : Inv db) (hup : db.update order table key values = .ok (st, values', db')) :
    (st = .error ∧ ¬ Works db table ∧ Unchanged db db') ∨
      (st = .notFound ∧ db.records table key = none ∧ Unchanged db db') ∨
      (st = .ok ∧ Readable values ∧
        ∃ r, db.records table key = some r ∧ Changed table key (some (r.merge values)) db db') := by
  obtain ⟨cf, db₁, hcf, hun, hsome, hav⟩ := columnFamily_spec h table
  rw [update, hcf] at hup
  cases cf with
  | none =>
    simp only [Except.ok.injEq, Prod.mk.injEq] at hup
    obtain ⟨rfl, rfl, rfl⟩ := hup
    exact .inl ⟨rfl, fun hw => absurd ((hav hw.1).mpr hw.2) (by simp), hun⟩
  | some cf =>
    have hun' := hun.trans (.called hun.inv)
    rcases get_spec hun.inv (hsome cf rfl) key with ⟨hget, hvb⟩ | ⟨hget, hfail⟩
    · rw [hun.valueOf_eq] at hget hvb
      simp only [hget] at hup
      cases hv : db.valueOf table key with
      | none =>
        simp only [hv, Except.ok.injEq, Prod.mk.injEq] at hup
        obtain ⟨rfl, rfl, rfl⟩ := hup
        exact .inr (.inl ⟨rfl, by rw [records, hv]; rfl, hun'⟩)
      | some vb =>
        obtain ⟨result, hok, hholds, -⟩ := deserializeValues_of_isRecord (hvb vb hv) none
        simp only [hv, hok, bind, Except.bind] at hup
        cases hser : serializeValues order (values ∪ result) with
        | error e => simp [hser] at hup
        | ok o =>
          obtain ⟨bytes, values₁⟩ := o
          obtain ⟨-, hread, hisrec, hcont⟩ := recordOf_serializeValues hser
          rw [contentsOf_union, hholds.2] at hcont
          simp only [hser] at hup
          rcases put_spec hun'.inv (hsome cf rfl) key hisrec with ⟨db₂, hput, hch⟩ | ⟨hput, hfail⟩
          · simp only [hput, Except.ok.injEq, Prod.mk.injEq] at hup
            obtain ⟨rfl, rfl, rfl⟩ := hup
            rw [hcont] at hch
            exact .inr (.inr ⟨rfl, readable_of_union hread, recordOf vb, by rw [records, hv]; rfl,
              .of_unchanged hun' hch⟩)
          · simp only [hput, Except.ok.injEq, Prod.mk.injEq] at hup
            obtain ⟨rfl, rfl, rfl⟩ := hup
            exact .inl ⟨rfl, fun hw => hfail (hun'.noFailures hw.1), hun'.trans (.called hun'.inv)⟩
    · simp only [hget, Except.ok.injEq, Prod.mk.injEq] at hup
      obtain ⟨rfl, rfl, rfl⟩ := hup
      exact .inl ⟨rfl, fun hw => hfail (hun.noFailures hw.1), hun'⟩

/-- `update` that writes a record that fits, if it writes one. -/
theorem update_fits (order : IterationOrder) (h : Inv db) (table : Utf16) (key : Name) {values : Values Name} (hread : Readable values)
    (hfits : ∀ vb result, db.valueOf table key = some vb → deserializeValues vb none ∅ = .ok result →
      encodedLength (values ∪ result) < 2 ^ 31) :
    ∃ st values' db', db.update order table key values = .ok (st, values', db') := by
  obtain ⟨cf, db₁, hcf, hun, hsome, -⟩ := columnFamily_spec h table
  rw [update, hcf]
  cases cf with
  | none => exact ⟨_, _, _, rfl⟩
  | some cf =>
    rcases get_spec hun.inv (hsome cf rfl) key with ⟨hget, hvb⟩ | ⟨hget, -⟩
    · rw [hun.valueOf_eq] at hget hvb
      simp only [hget]
      cases hv : db.valueOf table key with
      | none => exact ⟨_, _, _, rfl⟩
      | some vb =>
        obtain ⟨result, hok, hholds, -⟩ := deserializeValues_of_isRecord (hvb vb hv) none
        obtain ⟨bytes, hser⟩ := serializeValues_fits order (readable_union hread hholds.1) (hfits vb result hv hok)
        simp only [hok, hser, bind, Except.bind]
        split <;> exact ⟨_, _, _, rfl⟩
    · simp only [hget]
      exact ⟨_, _, _, rfl⟩

/-- `delete`. -/
theorem deleteRecord_spec (h : Inv db) (table : Utf16) (key : Name) :
    ∃ st db', db.deleteRecord table key = (st, db') ∧
      ((st = .error ∧ ¬ Works db table ∧ Unchanged db db') ∨ (st = .ok ∧ Changed table key none db db')) := by
  obtain ⟨cf, db₁, hcf, hun, hsome, hav⟩ := columnFamily_spec h table
  rw [deleteRecord, hcf]
  cases cf with
  | none => exact ⟨_, _, rfl, .inl ⟨rfl, fun hw => absurd ((hav hw.1).mpr hw.2) (by simp), hun⟩⟩
  | some cf =>
    rcases delete_spec hun.inv (hsome cf rfl) key with ⟨db₂, hdel, hch⟩ | ⟨hdel, hfail⟩
    · simp only [hdel]
      exact ⟨_, _, rfl, .inr ⟨rfl, .of_unchanged hun hch⟩⟩
    · simp only [hdel]
      exact ⟨_, _, rfl, .inl ⟨rfl, fun hw => hfail (hun.noFailures hw.1), hun.trans (.called hun.inv)⟩⟩

/-- The loop of `scan` reads the entries in order, until it has read `recordcount`. -/
theorem scanLoop_eq (fields : Option (List Name)) (recordcount : ℤ) {entries : List (Bytes × Bytes)}
    (hrec : ∀ e ∈ entries, IsRecord e.2) (iterations : ℤ) (result : List (Values Name)) :
    ∃ results, scanLoop recordcount fields entries iterations result = .ok (result ++ results) ∧
      List.Forall₂ (fun e values => HoldsRecord values ((recordOf e.2).restrict fields))
        (entries.take (recordcount - iterations).toNat) results := by
  induction entries generalizing iterations result with
  | nil =>
    refine ⟨[], by rw [scanLoop, List.append_nil], ?_⟩
    rw [List.take_nil]
    exact .nil
  | cons e entries ih =>
    rw [scanLoop]
    split_ifs with hlt
    · obtain ⟨values, hok, hholds, -⟩ := deserializeValues_of_isRecord (hrec e List.mem_cons_self) fields
      obtain ⟨results, hloop, hall⟩ := ih (fun e' he' => hrec e' (List.mem_cons_of_mem e he'))
        (iterations + 1) (result ++ [values])
      refine ⟨values :: results, ?_, ?_⟩
      · simp only [hok, bind, Except.bind]
        rw [hloop, List.append_assoc, List.singleton_append]
      · have htake : (recordcount - iterations).toNat = (recordcount - (iterations + 1)).toNat + 1 := by omega
        rw [htake, List.take_succ_cons]
        exact .cons hholds hall
    · refine ⟨[], by rw [List.append_nil], ?_⟩
      have htake : (recordcount - iterations).toNat = 0 := by omega
      rw [htake, List.take_zero]
      exact .nil

/-- `scan`: the entries it reads are the first `recordcount` of the table from the start key
on. -/
theorem scan_spec (h : Inv db) (table : Utf16) (startkey : Name) (recordcount : ℤ) (fields : Option (List Name)) :
    ∃ st results db', db.scan table startkey recordcount fields = .ok (st, results, db') ∧ Unchanged db db' ∧
      ((st = .error ∧ ¬ Works db table) ∨
        (st = .ok ∧ ∃ cf m, db'.columnFamilies table = some cf ∧ db'.families cf = some m ∧
          List.Forall₂ (fun e values => HoldsRecord values ((recordOf e.2).restrict fields))
            ((m.seek startkey.getBytes).take recordcount.toNat) results)) := by
  obtain ⟨cf, db₁, hcf, hun, hsome, hav⟩ := columnFamily_spec h table
  rw [scan, hcf]
  cases cf with
  | none => exact ⟨_, _, _, rfl, hun, .inl ⟨rfl, fun hw => absurd ((hav hw.1).mpr hw.2) (by simp)⟩⟩
  | some cf =>
    obtain ⟨m, hm⟩ := hun.inv.exist (hsome cf rfl)
    have hrec : ∀ e ∈ m.seek startkey.getBytes, IsRecord e.2 := fun e he =>
      (hun.inv.stored (hsome cf rfl) hm (SortedMap.mem_seek.mp he).2).2
    obtain ⟨results, hloop, hall⟩ := scanLoop_eq fields recordcount hrec 0 []
    rw [Int.sub_zero] at hall
    refine ⟨.ok, results, db₁, ?_, hun, .inr ⟨rfl, cf, m, hsome cf rfl, hm, hall⟩⟩
    simp only [seek, hm, hloop, bind, Except.bind, List.nil_append]

end YcsbIvs.RocksDB.RocksDb
