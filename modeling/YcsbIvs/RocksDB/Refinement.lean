import YcsbIvs.Foundations.Runs
import YcsbIvs.RocksDB.Operations

/-!
# The RocksDB binding refines a store of records

The abstract store is a map from tables and keys to records, and `Answers` what each
operation of `DB` does to it and may reply: `insert` replaces the record, `update` merges
the given fields into a record that is there, `delete` removes it, `read` gives the record
restricted to the fields asked for, and `scan` gives the records of the first keys not
below the start key, in the order of their bytes (`FirstKeys`).

One operation on a database in order, on a table that is available, replies and acts as
the abstract store does on its records (`perform_answers`); so does any sequence of them
(`rocksDBClient_refines`), in particular on a database that has just been opened
(`initRocksDB_inv`).

What the table of an operation has to be is seen in `columnFamily`: one that is not in
`COLUMN_FAMILIES` is created, so a column family that the database has and the map lacks
can not be used. `initRocksDB` with no names leaves out `default`.
-/

namespace YcsbIvs.RocksDB

open YcsbIvs.Foundations YcsbIvs.Core

/-- An operation of `DB`, its map of results empty. -/
inductive Operation where
  /-- `insert(table, key, values)`. -/
  | insert (table : Utf16) (key : Name) (values : Values Name)
  /-- `update(table, key, values)`. -/
  | update (table : Utf16) (key : Name) (values : Values Name)
  /-- `delete(table, key)`. -/
  | delete (table : Utf16) (key : Name)
  /-- `read(table, key, fields, result)`. -/
  | read (table : Utf16) (key : Name) (fields : Option (List Name))
  /-- `scan(table, startkey, recordcount, fields, result)`. -/
  | scan (table : Utf16) (startkey : Name) (recordcount : ℤ) (fields : Option (List Name))

/-- What an operation gives. -/
inductive Reply where
  /-- A status. -/
  | status (st : Status)
  /-- A status, and the map of results. -/
  | read (st : Status) (result : Values Name)
  /-- A status, and the maps of results. -/
  | scan (st : Status) (result : List (Values Name))

/-- The table of an operation. -/
def Operation.table : Operation → Utf16
  | insert table _ _ => table
  | update table _ _ => table
  | delete table _ => table
  | read table _ _ => table
  | scan table _ _ _ => table

/-- An operation of the client, with the order in which the map it writes is gone through. -/
def perform (db : RocksDb) : IterationOrder × Operation → Except Throwable (Reply × RocksDb)
  | (order, .insert table key values) => (db.insert order table key values).map fun r => (.status r.1, r.2.2)
  | (order, .update table key values) => (db.update order table key values).map fun r => (.status r.1, r.2.2)
  | (_, .delete table key) => .ok (.status (db.deleteRecord table key).1, (db.deleteRecord table key).2)
  | (_, .read table key fields) => (db.read table key fields ∅).map fun r => (.read r.1 r.2.1, r.2.2)
  | (_, .scan table startkey recordcount fields) =>
    (db.scan table startkey recordcount fields).map fun r => (.scan r.1 r.2.1, r.2.2)

/-- One operation as a step of a run. -/
def performStep (db : RocksDb) (l : IterationOrder × Operation) : Option RocksDb :=
  (perform db l).toOption.map Prod.snd

/-! ### The abstract store -/

/-- The first `n` keys not below `startkey`, in the order of their bytes. -/
structure FirstKeys (present : Name → Prop) (startkey : Name) (n : ℕ) (keys : List Name) : Prop where
  /-- They are in order. -/
  sorted : keys.Pairwise fun a b => a.getBytes < b.getBytes
  /-- They are there, and not below the start key. -/
  mem : ∀ k ∈ keys, present k ∧ startkey.getBytes ≤ k.getBytes
  /-- There are no more than `n`. -/
  length_le : keys.length ≤ n
  /-- A key left out is above them, and there are `n`. -/
  first : ∀ k, present k → startkey.getBytes ≤ k.getBytes →
    k ∈ keys ∨ (keys.length = n ∧ ∀ a ∈ keys, a.getBytes < k.getBytes)

/-- What an operation replies on a store `m`, and the store after it. -/
def Answers (m : Records Utf16 Name) : Operation → Reply → Records Utf16 Name → Prop
  | .insert table key values, reply, m' => reply = .status .ok ∧ m' = m.set table key (some (contentsOf values))
  | .update table key values, reply, m' =>
    match m table key with
    | none => reply = .status .notFound ∧ m' = m
    | some r => reply = .status .ok ∧ m' = m.set table key (some (r.merge values))
  | .delete table key, reply, m' => reply = .status .ok ∧ m' = m.set table key none
  | .read table key fields, reply, m' =>
    m' = m ∧ match m table key with
      | none => reply = .read .notFound ∅
      | some r => ∃ result, reply = .read .ok result ∧ HoldsRecord result (r.restrict fields)
  | .scan table startkey recordcount fields, reply, m' =>
    m' = m ∧ ∃ results keys, reply = .scan .ok results ∧
      FirstKeys (fun k => (m table k).isSome) startkey recordcount.toNat keys ∧
      List.Forall₂ (fun k values => ∃ r, m table k = some r ∧ HoldsRecord values (r.restrict fields)) keys results

/-- A sequence of operations replies, one by one, as the store does. -/
def Refines : RocksDb → Records Utf16 Name → List (IterationOrder × Operation) → Prop
  | _, _, [] => True
  | db, m, l :: ls => ∃ reply db' m', perform db l = .ok (reply, db') ∧ Answers m l.2 reply m' ∧ Refines db' m' ls

/-! ### The simulation -/

/-- The iterators an operation is given can be read. -/
def Fresh : Operation → Prop
  | .insert _ _ values => Readable values
  | .update _ _ values => Readable values
  | _ => True

/-- The record an operation writes fits in an array. -/
def Fits (db : RocksDb) : Operation → Prop
  | .insert _ _ values => encodedLength values < 2 ^ 31
  | .update table key values => ∀ vb result, db.valueOf table key = some vb →
      deserializeValues vb none ∅ = .ok result → encodedLength (values ∪ result) < 2 ^ 31
  | _ => True

/-- The iterators are fresh, the record fits, and the table is in `COLUMN_FAMILIES` or is
the name of no column family. -/
structure Admissible (db : RocksDb) (l : IterationOrder × Operation) : Prop where
  /-- The iterators can be read. -/
  fresh : Fresh l.2
  /-- The record fits. -/
  fits : Fits db l.2
  /-- The table is available. -/
  available : db.Available l.2.table

/-- The records of the first entries of a table are those of its first keys. -/
theorem firstKeys_take {db : RocksDb} (h : db.Inv) {table : Utf16} {cf : Bytes} {m : SortedMap Bytes Bytes}
    (hcf : db.columnFamilies table = some cf) (hm : db.families cf = some m) (startkey : Name) (n : ℕ) :
    FirstKeys (fun k => (db.records table k).isSome) startkey n
      (((m.seek startkey.getBytes).take n).map fun e => Name.ofBytes e.1) := by
  have hval : ∀ k : Name, db.valueOf table k = m.get k.getBytes := fun k => by
    rw [RocksDb.valueOf, hcf, Option.bind_some, hm, Option.bind_some]
  have hpresent : ∀ k : Name, (db.records table k).isSome ↔ (m.get k.getBytes).isSome := fun k => by
    rw [RocksDb.records, hval, Option.isSome_map]
  -- the keys in the column family are bytes of names
  have hname : ∀ e ∈ m.seek startkey.getBytes, (Name.ofBytes e.1).getBytes = e.1 := by
    intro e he
    obtain ⟨⟨k, hk⟩, -⟩ := h.stored hcf hm (SortedMap.mem_seek.mp he).2
    rw [← hk, Name.ofBytes_getBytes]
  have htake : ∀ e ∈ (m.seek startkey.getBytes).take n, e ∈ m.seek startkey.getBytes :=
    fun e he => List.mem_of_mem_take he
  refine ⟨?_, ?_, ?_, ?_⟩
  · rw [List.pairwise_map]
    refine ((m.sorted_seek startkey.getBytes).take).imp_of_mem fun {a b} ha hb hab => ?_
    rwa [hname a (htake a ha), hname b (htake b hb)]
  · intro k hk
    obtain ⟨e, he, rfl⟩ := List.mem_map.mp hk
    obtain ⟨hle, hget⟩ := SortedMap.mem_seek.mp (htake e he)
    rw [hpresent, hname e (htake e he), hget]
    exact ⟨rfl, hle⟩
  · rw [List.length_map]
    exact List.length_take_le n _
  · intro k hk hle
    rw [hpresent] at hk
    obtain ⟨vb, hvb⟩ := Option.isSome_iff_exists.mp hk
    have hmem : (k.getBytes, vb) ∈ m.seek startkey.getBytes := SortedMap.mem_seek.mpr ⟨hle, hvb⟩
    rcases take_sorted_first (m.sorted_seek startkey.getBytes) n hmem with hin | ⟨hlen, habove⟩
    · exact .inl (List.mem_map.mpr ⟨_, hin, Name.ofBytes_getBytes k⟩)
    · refine .inr ⟨by rw [List.length_map, hlen], ?_⟩
      intro a ha
      obtain ⟨e, he, rfl⟩ := List.mem_map.mp ha
      rw [hname e (htake e he)]
      exact habove e he

/-- **One operation** replies and acts as the store of the records does. -/
theorem perform_answers {db : RocksDb} {l : IterationOrder × Operation} (h : db.Inv) (hf : db.NoFailures)
    (hadm : Admissible db l) :
    ∃ reply db', perform db l = .ok (reply, db') ∧ Answers db.records l.2 reply db'.records ∧ db'.Inv ∧
      db'.NoFailures := by
  obtain ⟨order, op⟩ := l
  obtain ⟨hfresh, hfits, hav⟩ := hadm
  have hworks : db.Works op.table := ⟨hf, hav⟩
  cases op with
  | insert table key values =>
    obtain ⟨st, values', db', hins⟩ := RocksDb.insert_fits order db table key hfresh hfits
    rcases RocksDb.insert_spec h hins with ⟨-, hnot, -⟩ | ⟨rfl, -, hch⟩
    · exact absurd hworks hnot
    · exact ⟨_, db', by rw [perform, hins]; rfl, ⟨rfl, hch.records_eq⟩, hch.inv, hch.noFailures hf⟩
  | update table key values =>
    obtain ⟨st, values', db', hup⟩ := RocksDb.update_fits order h table key hfresh hfits
    have hperf : perform db (order, .update table key values) = .ok (.status st, db') := by
      rw [perform, hup]
      rfl
    rcases RocksDb.update_spec h hup with ⟨-, hnot, -⟩ | ⟨rfl, hrec, hun⟩ | ⟨rfl, -, r, hrec, hch⟩
    · exact absurd hworks hnot
    · refine ⟨_, db', hperf, ?_, hun.inv, hun.noFailures hf⟩
      rw [Answers, hrec]
      exact ⟨rfl, hun.records_eq⟩
    · refine ⟨_, db', hperf, ?_, hch.inv, hch.noFailures hf⟩
      rw [Answers, hrec]
      exact ⟨rfl, hch.records_eq⟩
  | delete table key =>
    obtain ⟨st, db', hdel, hspec⟩ := RocksDb.deleteRecord_spec h table key
    rcases hspec with ⟨-, hnot, -⟩ | ⟨rfl, hch⟩
    · exact absurd hworks hnot
    · exact ⟨_, db', by rw [perform, hdel], ⟨rfl, hch.records_eq⟩, hch.inv, hch.noFailures hf⟩
  | read table key fields =>
    obtain ⟨st, result, db', hread, hun, hspec⟩ := RocksDb.read_spec h table key fields
    have hperf : perform db (order, .read table key fields) = .ok (.read st result, db') := by
      rw [perform, hread]
      rfl
    refine ⟨_, db', hperf, ⟨hun.records_eq, ?_⟩, hun.inv, hun.noFailures hf⟩
    rcases hspec with ⟨-, -, hnot⟩ | ⟨rfl, rfl, hrec⟩ | ⟨rfl, r, hrec, hholds, -⟩
    · exact absurd hworks hnot
    · rw [hrec]
    · rw [hrec]
      exact ⟨result, rfl, hholds⟩
  | scan table startkey recordcount fields =>
    obtain ⟨st, results, db', hscan, hun, hspec⟩ := RocksDb.scan_spec h table startkey recordcount fields
    have hperf : perform db (order, .scan table startkey recordcount fields) = .ok (.scan st results, db') := by
      rw [perform, hscan]
      rfl
    refine ⟨_, db', hperf, ⟨hun.records_eq, ?_⟩, hun.inv, hun.noFailures hf⟩
    rcases hspec with ⟨-, hnot⟩ | ⟨rfl, cf, m, hcf, hm, hall⟩
    · exact absurd hworks hnot
    · rw [← hun.records_eq]
      refine ⟨results, _, rfl, firstKeys_take hun.inv hcf hm startkey recordcount.toNat, ?_⟩
      rw [List.forall₂_map_left_iff]
      refine (List.forall₂_iff_get.mp hall).elim fun hlen hget => List.forall₂_iff_get.mpr ⟨hlen, fun i hi hi' => ?_⟩
      obtain ⟨⟨k, hk⟩, -⟩ := hun.inv.stored hcf hm (SortedMap.mem_seek.mp
        (List.mem_of_mem_take (List.get_mem _ ⟨i, hi⟩))).2
      refine ⟨_, ?_, hget i hi hi'⟩
      rw [RocksDb.records, RocksDb.valueOf, hcf, Option.bind_some, hm, Option.bind_some, ← hk, Name.ofBytes_getBytes,
        hk, (SortedMap.mem_seek.mp (List.mem_of_mem_take (List.get_mem _ ⟨i, hi⟩))).2]
      rfl

/-- What `initRocksDB` opens is in order, if the column families on file hold records and
no two names have the same bytes. -/
theorem initRocksDB_inv {stored : Bytes → Option (SortedMap Bytes Bytes)} {cfNames : List Utf16} {fails : ℕ → Bool}
    (hnames : ∀ t ∈ cfNames, ∀ t' ∈ cfNames, encode t = encode t' → t = t')
    (hstored : ∀ cf m, stored cf = some m →
      ∀ kb vb, m.get kb = some vb → (∃ key : Name, key.getBytes = kb) ∧ IsRecord vb) :
    (RocksDb.initRocksDB stored cfNames fails).Inv := by
  have htable : ∀ {table cf}, (RocksDb.initRocksDB stored cfNames fails).columnFamilies table = some cf →
      table ∈ cfNames ∧ encode table = cf := by
    intro table cf ht
    simp only [RocksDb.initRocksDB] at ht
    split_ifs at ht with hmem
    exact ⟨hmem, Option.some.inj ht⟩
  have hfam : ∀ {table cf}, (RocksDb.initRocksDB stored cfNames fails).columnFamilies table = some cf →
      (RocksDb.initRocksDB stored cfNames fails).families cf = some ((stored cf).getD .empty) := by
    intro table cf ht
    obtain ⟨hmem, rfl⟩ := htable ht
    have hne : cfNames ≠ [] := List.ne_nil_of_mem hmem
    simp only [RocksDb.initRocksDB]
    rw [if_neg hne, if_pos (List.mem_map_of_mem hmem)]
  constructor
  · intro table cf ht
    exact ⟨_, hfam ht⟩
  · intro table table' cf ht ht'
    obtain ⟨hmem, hcf⟩ := htable ht
    obtain ⟨hmem', hcf'⟩ := htable ht'
    exact hnames table hmem table' hmem' (hcf.trans hcf'.symm)
  · intro table cf m ht hm kb vb hkv
    rw [hfam ht, Option.some.injEq] at hm
    cases hs : stored cf with
    | none =>
      rw [hs, Option.getD_none] at hm
      rw [← hm, SortedMap.get_empty] at hkv
      cases hkv
    | some m₀ =>
      rw [hs, Option.getD_some] at hm
      exact hstored cf m₀ hs kb vb (hm ▸ hkv)

/-- **`RocksDBClient` refines the store of records**: any sequence of operations, each on a
table that is in `COLUMN_FAMILIES` or names no column family and each writing a record
that fits, replies as the store does; and `deserializeValues` undoes `serializeValues`. -/
theorem rocksDBClient_refines {db : RocksDb} (h : db.Inv) (hf : db.NoFailures)
    {ls : List (IterationOrder × Operation)} (hadm : Meets performStep Admissible db ls) :
    Refines db db.records ls ∧
      ∀ (order : IterationOrder) (values : Values Name), Readable values → encodedLength values < 2 ^ 31 →
        ∃ bytes result, serializeValues order values = .ok (bytes, drained values) ∧
          deserializeValues bytes none ∅ = .ok result ∧ HoldsRecord result (contentsOf values) := by
  constructor
  · induction ls generalizing db with
    | nil => trivial
    | cons l ls ih =>
      obtain ⟨reply, db', hperf, hans, hinv, hnf⟩ := perform_answers h hf hadm.1
      have hstep : performStep db l = some db' := by
        rw [performStep, hperf]
        rfl
      exact ⟨reply, db', db'.records, hperf, hans, ih hinv hnf (hadm.2 db' hstep)⟩
  · intro order values hread hfits
    obtain ⟨bytes, hser⟩ := serializeValues_fits order hread hfits
    obtain ⟨-, -, hrec, hcont⟩ := recordOf_serializeValues hser
    obtain ⟨result, hok, hholds, -⟩ := deserializeValues_of_isRecord hrec none
    exact ⟨bytes, result, hser, hok, hcont ▸ hholds⟩

/-- A database that has just been created. -/
def freshDb (fails : ℕ → Bool) : RocksDb := RocksDb.initRocksDB (fun _ => none) [] fails

theorem freshDb_inv (fails : ℕ → Bool) : (freshDb fails).Inv :=
  initRocksDB_inv (fun _ ht => absurd ht List.not_mem_nil) fun _ _ hs => by cases hs

/-- The order in which the entries are kept. -/
def keptOrder : IterationOrder := ⟨id, fun _ => List.Perm.refl _⟩

/-- A table, a key and a field, named `t`, `k` and `f`. -/
def tableT : Utf16 := [0x74]

@[inherit_doc tableT] def keyK : Name := ⟨[0x6B], rfl⟩

@[inherit_doc tableT] def fieldF : Name := ⟨[0x66], rfl⟩

/-- A map with the one field `f`. -/
def oneField (it : ByteIterator) : Values Name := AList.singleton fieldF it

theorem lookup_oneField {it it' : ByteIterator} {f : Name} (h : (oneField it).lookup f = some it') :
    f = fieldF ∧ it' = it := eq_of_lookup_singleton h

theorem readable_oneField {it : ByteIterator} {bs : Bytes} (h : it.Holds bs) : Readable (oneField it) := by
  intro f it' hit
  obtain ⟨-, rfl⟩ := lookup_oneField hit
  exact ⟨bs, ByteIterator.contents_of_holds h⟩

/-- An insert into a table of a new database. -/
theorem rocksDBClient_refines_freshDb :
    Refines (freshDb fun _ => false) (freshDb fun _ => false).records
      [(keptOrder, .insert tableT keyK (oneField (.string (.ofString [0x61, 0x62]))))] := by
  have hfits : encodedLength (oneField (.string (.ofString [0x61, 0x62]))) < 2 ^ 31 := by decide
  have hadm : Meets performStep Admissible (freshDb fun _ => false)
      [(keptOrder, .insert tableT keyK (oneField (.string (.ofString [0x61, 0x62]))))] :=
    ⟨⟨readable_oneField (ByteIterator.holds_ofString _), hfits, .inr rfl⟩, fun _ _ => trivial⟩
  exact (rocksDBClient_refines (freshDb_inv _) (fun _ => rfl) hadm).1

/-- The table `default` of a new database can not be read: the column family is there,
and `createColumnFamily` is refused. -/
theorem not_refines_freshDb :
    (freshDb fun _ => false).Inv ∧ (freshDb fun _ => false).NoFailures ∧
      ¬ Refines (freshDb fun _ => false) (freshDb fun _ => false).records
        [(keptOrder, .read defaultColumnFamily keyK none)] := by
  refine ⟨freshDb_inv _, fun _ => rfl, ?_⟩
  rintro ⟨reply, db', m', hperf, ⟨-, hans⟩, -⟩
  have hreply : reply = .read .error ∅ := by
    have := congrArg (fun r => r.toOption.map Prod.fst) hperf
    exact (Option.some.inj this).symm
  have hans' : reply = .read .notFound ∅ := hans
  rw [hreply] at hans'
  cases hans'

end YcsbIvs.RocksDB
