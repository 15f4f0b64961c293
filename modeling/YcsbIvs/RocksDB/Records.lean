import YcsbIvs.RocksDB.Client

/-!
# The records of a RocksDB database

`RocksDb.records` reads a database as records by table and key. A database is in order
(`RocksDb.Inv`) when every table in `COLUMN_FAMILIES` has a column family of its own, and
every entry of it is a record under the bytes of a key.

What an operation does to the database is one of two things: it changes no record
(`Unchanged`), or it sets one (`Changed`). Each operation of the library has one lemma
that says which, and what it gives, whether or not the call fails: `columnFamily_spec`,
`get_spec`, `put_spec`, `delete_spec`.
-/

namespace YcsbIvs.RocksDB

open YcsbIvs.Foundations YcsbIvs.Core

/-! ### Records in bytes -/

/-- The bytes are those of a record. -/
def IsRecord (bytes : Bytes) : Prop :=
  ∃ es : List (Name × Bytes), bytes = encodeRecord es ∧ (es.map Prod.fst).Nodup ∧ bytes.length < 2 ^ 31

/-- The record in the bytes. -/
def recordOf (bytes : Bytes) : Record Name :=
  match deserializeValues bytes none ∅ with
  | .ok result => contentsOf result
  | .error _ => fun _ => none

theorem lookup_empty {ν : Type} [DecidableEq ν] (f : ν) : (∅ : Values ν).lookup f = none := rfl

/-- What is read of a record into an empty map, field by field. -/
theorem lookup_deserializeValues {es : List (Name × Bytes)} {fields : Option (List Name)} {result : Values Name}
    (hin : ∀ f bs, (f, bs) ∈ es → selects fields f = true → ∃ a, result.lookup f = some (.byteArray a) ∧ a.Holds bs)
    (hout : ∀ f, f ∉ es.map Prod.fst ∨ selects fields f = false → result.lookup f = (∅ : Values Name).lookup f)
    {f : Name} {it : ByteIterator} (h : result.lookup f = some it) :
    ∃ a bs, it = .byteArray a ∧ a.Holds bs ∧ (f, bs) ∈ es ∧ selects fields f = true := by
  have hnot : ¬ (f ∉ es.map Prod.fst ∨ selects fields f = false) := by
    intro hf
    rw [hout f hf, lookup_empty] at h
    cases h
  rw [not_or, not_not, Bool.not_eq_false] at hnot
  obtain ⟨⟨g, bs⟩, hmem, rfl⟩ := List.mem_map.mp hnot.1
  obtain ⟨a, ha, hholds⟩ := hin g bs hmem hnot.2
  rw [ha, Option.some.injEq] at h
  exact ⟨a, bs, h.symm, hholds, hmem, hnot.2⟩

/-- The fields of a record in bytes. -/
theorem recordOf_encodeRecord {es : List (Name × Bytes)} (hnd : (es.map Prod.fst).Nodup)
    (hlen : (encodeRecord es).length < 2 ^ 31) (f : Name) (bs : Bytes) :
    recordOf (encodeRecord es) f = some bs ↔ (f, bs) ∈ es := by
  obtain ⟨result, hok, hin, hout⟩ := deserializeValues_encodeRecord hnd hlen none ∅
  have hrec : recordOf (encodeRecord es) = contentsOf result := by
    simp only [recordOf, hok]
  rw [hrec, contentsOf]
  constructor
  · intro h
    obtain ⟨it, hit, hc⟩ := Option.bind_eq_some_iff.mp h
    obtain ⟨a, bs', rfl, hholds, hmem, -⟩ := lookup_deserializeValues hin hout hit
    have hbs : (ByteIterator.byteArray a).contents = some bs' :=
      ByteIterator.contents_byteArray hholds
    rw [hbs, Option.some.injEq] at hc
    exact hc ▸ hmem
  · intro h
    obtain ⟨a, ha, hholds⟩ := hin f bs h rfl
    rw [ha]
    exact ByteIterator.contents_byteArray hholds

/-- **`deserializeValues` of a record**: the fields asked for, each in an unused iterator
over its bytes. -/
theorem deserializeValues_of_isRecord {bytes : Bytes} (h : IsRecord bytes) (fields : Option (List Name)) :
    ∃ result, deserializeValues bytes fields ∅ = .ok result ∧
      HoldsRecord result ((recordOf bytes).restrict fields) ∧
      ∀ f it, result.lookup f = some it → ∃ a bs, it = .byteArray a ∧ a.Holds bs ∧ recordOf bytes f = some bs := by
  obtain ⟨es, rfl, hnd, hlen⟩ := h
  obtain ⟨result, hok, hin, hout⟩ := deserializeValues_encodeRecord hnd hlen fields ∅
  have hrec := recordOf_encodeRecord hnd hlen
  have hholds : ∀ f it, result.lookup f = some it →
      ∃ a bs, it = .byteArray a ∧ a.Holds bs ∧ recordOf (encodeRecord es) f = some bs := by
    intro f it hit
    obtain ⟨a, bs, rfl, ha, hmem, -⟩ := lookup_deserializeValues hin hout hit
    exact ⟨a, bs, rfl, ha, (hrec f bs).mpr hmem⟩
  refine ⟨result, hok, ⟨?_, ?_⟩, hholds⟩
  · intro f it hit
    obtain ⟨a, bs, rfl, ha, -⟩ := hholds f it hit
    exact ⟨bs, ByteIterator.contents_byteArray ha⟩
  · funext f
    have hrestrict : (recordOf (encodeRecord es)).restrict fields f =
        if selects fields f = true then recordOf (encodeRecord es) f else none := by
      cases fields with
      | none => rfl
      | some fields => simp [Record.restrict, selects]
    rw [hrestrict, contentsOf]
    split_ifs with hsel
    · cases hr : recordOf (encodeRecord es) f with
      | some bs =>
        obtain ⟨a, ha, hbs⟩ := hin f bs ((hrec f bs).mp hr) hsel
        rw [ha]
        exact ByteIterator.contents_byteArray hbs
      | none =>
        cases hl : result.lookup f with
        | none => rfl
        | some it =>
          obtain ⟨a, bs, -, -, hr'⟩ := hholds f it hl
          rw [hr] at hr'
          cases hr'
    · rw [hout f (.inr (Bool.not_eq_true _ ▸ hsel))]
      rfl

/-- **`serializeValues` writes the record that its map holds**, so that
`deserializeValues` reads back what was in the map. -/
theorem recordOf_serializeValues {order : IterationOrder} {values values' : Values Name} {bytes : Bytes}
    (h : serializeValues order values = .ok (bytes, values')) :
    values' = drained values ∧ Readable values ∧ IsRecord bytes ∧ recordOf bytes = contentsOf values := by
  obtain ⟨hv, hread, es, rfl, hnd, hlen, hes⟩ := serializeValues_eq h
  refine ⟨hv, hread, ⟨es, rfl, hnd, hlen⟩, ?_⟩
  funext f
  refine Option.ext fun bs => ?_
  rw [recordOf_encodeRecord hnd hlen, hes, contentsOf, Option.bind_eq_some_iff]

/-- How long the encoding of a map is. -/
def encodedLength (values : Values Name) : ℕ :=
  (values.entries.map fun e => 8 + e.1.getBytes.length + (e.2.contents.getD []).length).sum

/-- A map that can be read and whose encoding fits in an array is written. -/
theorem serializeLoop_fits (entries : List (Σ _ : Name, ByteIterator)) (baos : Bytes)
    (hread : ∀ e ∈ entries, ∃ bs, e.2.contents = some bs)
    (hfits : baos.length +
      (entries.map fun e => 8 + e.1.getBytes.length + (e.2.contents.getD []).length).sum < 2 ^ 31) :
    ∃ bytes, serializeLoop baos entries = .ok bytes := by
  induction entries generalizing baos with
  | nil => exact ⟨baos, rfl⟩
  | cons e entries ih =>
    obtain ⟨bs, hc⟩ := hread e List.mem_cons_self
    rw [List.map_cons, List.sum_cons, hc, Option.getD_some] at hfits
    rw [serializeLoop]
    cases hv : e.2.toArray with
    | error err =>
      rw [ByteIterator.contents, hv] at hc
      cases hc
    | ok o =>
      have ho : o.1 = bs := by
        rw [ByteIterator.contents, hv] at hc
        exact Option.some.inj hc
      have hlen : (baos ++ entryBytes e.1.getBytes o.1).length =
          baos.length + (8 + e.1.getBytes.length + bs.length) := by
        simp only [entryBytes, List.length_append, length_putInt, ho]
        omega
      simp only [bind, Except.bind]
      rw [if_pos (by omega)]
      exact ih _ (fun e' he' => hread e' (List.mem_cons_of_mem e he')) (by omega)

theorem serializeValues_fits (order : IterationOrder) {values : Values Name} (hread : Readable values)
    (hfits : encodedLength values < 2 ^ 31) :
    ∃ bytes, serializeValues order values = .ok (bytes, drained values) := by
  have hperm := order.perm values.entries
  obtain ⟨bytes, hb⟩ := serializeLoop_fits (order.entrySet values.entries) []
    (fun e he => hread e.1 e.2 (AList.mem_lookup_iff.mpr (hperm.mem_iff.mp he)))
    (by
      rw [(hperm.map _).sum_nat, List.length_nil, Nat.zero_add]
      exact hfits)
  refine ⟨bytes, ?_⟩
  rw [serializeValues, hb]
  rfl

namespace RocksDb

/-! ### The database -/

/-- The bytes under a key, in a table that is in `COLUMN_FAMILIES`. -/
def valueOf (db : RocksDb) (table : Utf16) (key : Name) : Option Bytes :=
  ((db.columnFamilies table).bind db.families).bind fun m => m.get key.getBytes

/-- The records of the database. -/
def records (db : RocksDb) : Records Utf16 Name := fun table key => (db.valueOf table key).map recordOf

/-- The database is in order. -/
structure Inv (db : RocksDb) : Prop where
  /-- The column families of the tables are there. -/
  exist : ∀ {table cf}, db.columnFamilies table = some cf → ∃ m, db.families cf = some m
  /-- Each table has its own. -/
  distinct : ∀ {table table' cf}, db.columnFamilies table = some cf → db.columnFamilies table' = some cf →
    table = table'
  /-- The entries are records. -/
  stored : ∀ {table cf m}, db.columnFamilies table = some cf → db.families cf = some m →
    ∀ {kb vb}, m.get kb = some vb → (∃ key : Name, key.getBytes = kb) ∧ IsRecord vb

/-- No call to come throws. -/
def NoFailures (db : RocksDb) : Prop := ∀ i, db.fails i = false

/-- The database after an operation that changed no record. -/
structure Unchanged (db db' : RocksDb) : Prop where
  /-- The entries are the same. -/
  valueOf_eq : db'.valueOf = db.valueOf
  /-- The database is in order. -/
  inv : Inv db'
  /-- No call to come throws, if none did. -/
  noFailures : NoFailures db → NoFailures db'

theorem Unchanged.records_eq {db db' : RocksDb} (h : Unchanged db db') : db'.records = db.records := by
  unfold records
  rw [h.valueOf_eq]

theorem Unchanged.refl {db : RocksDb} (h : Inv db) : Unchanged db db := ⟨rfl, h, id⟩

theorem Unchanged.trans {db db' db'' : RocksDb} (h : Unchanged db db') (h' : Unchanged db' db'') :
    Unchanged db db'' :=
  ⟨h'.valueOf_eq.trans h.valueOf_eq, h'.inv, h'.noFailures ∘ h.noFailures⟩

theorem Unchanged.called {db : RocksDb} (h : Inv db) : Unchanged db db.called :=
  ⟨rfl, ⟨h.exist, h.distinct, h.stored⟩, fun hf i => hf (i + 1)⟩

/-- The database after the record of one key has been set to `r`. -/
structure Changed (table : Utf16) (key : Name) (r : Option (Record Name)) (db db' : RocksDb) : Prop where
  /-- The record is set. -/
  records_eq : db'.records = db.records.set table key r
  /-- The database is in order. -/
  inv : Inv db'
  /-- No call to come throws, if none did. -/
  noFailures : NoFailures db → NoFailures db'

theorem Changed.of_unchanged {db db' db'' : RocksDb} {table : Utf16} {key : Name} {r : Option (Record Name)}
    (h : Unchanged db db') (h' : Changed table key r db' db'') : Changed table key r db db'' :=
  ⟨by rw [h'.records_eq, h.records_eq], h'.inv, h'.noFailures ∘ h.noFailures⟩

/-- The table has a column family in `COLUMN_FAMILIES`, or one can be created. -/
def Available (db : RocksDb) (table : Utf16) : Prop :=
  (db.columnFamilies table).isSome ∨ db.families (encode table) = none

/-- The database after a column family has been created for a table. -/
def created (db : RocksDb) (table : Utf16) : RocksDb where
  families := Function.update db.families (encode table) (some .empty)
  columnFamilies := Function.update db.columnFamilies table (some (encode table))
  fails := db.called.fails

theorem Unchanged.created {db : RocksDb} (h : Inv db) {table : Utf16} (hnew : db.columnFamilies table = none)
    (hfree : db.families (encode table) = none) : Unchanged db (db.created table) := by
  -- the new column family is nobody's yet
  have hother : ∀ {t cf}, db.columnFamilies t = some cf → cf ≠ encode table := by
    rintro t cf ht rfl
    obtain ⟨m, hm⟩ := h.exist ht
    rw [hfree] at hm
    cases hm
  -- and the tables there were keep theirs
  have hself : ∀ {cf}, (db.created table).columnFamilies table = some cf → cf = encode table := by
    intro cf ht
    simp only [RocksDb.created, Function.update_self, Option.some.injEq] at ht
    exact ht.symm
  have hkeep : ∀ {t}, t ≠ table → (db.created table).columnFamilies t = db.columnFamilies t :=
    fun ht => Function.update_of_ne ht _ _
  have hfam : ∀ {cf}, cf ≠ encode table → (db.created table).families cf = db.families cf :=
    fun hcf => Function.update_of_ne hcf _ _
  have hempty : (db.created table).families (encode table) = some .empty := Function.update_self _ _ _
  refine ⟨?_, ⟨?_, ?_, ?_⟩, fun hf i => hf (i + 1)⟩
  · funext t key
    by_cases ht : t = table
    · subst ht
      have hcf : (db.created t).columnFamilies t = some (encode t) := Function.update_self _ _ _
      rw [valueOf, valueOf, hnew, hcf, Option.bind_some, hempty]
      rfl
    · rw [valueOf, valueOf, hkeep ht]
      cases hcf : db.columnFamilies t with
      | none => rfl
      | some cf => rw [Option.bind_some, Option.bind_some, hfam (hother hcf)]
  · intro t cf ht
    by_cases htt : t = table
    · subst htt
      exact ⟨.empty, by rw [hself ht, hempty]⟩
    · rw [hkeep htt] at ht
      rw [hfam (hother ht)]
      exact h.exist ht
  · intro t t' cf ht ht'
    by_cases htt : t = table <;> by_cases htt' : t' = table
    · rw [htt, htt']
    · subst htt
      rw [hkeep htt'] at ht'
      exact absurd (hself ht) (hother ht')
    · subst htt'
      rw [hkeep htt] at ht
      exact absurd (hself ht') (hother ht)
    · rw [hkeep htt] at ht
      rw [hkeep htt'] at ht'
      exact h.distinct ht ht'
  · intro t cf m ht hm kb vb hkv
    by_cases htt : t = table
    · subst htt
      rw [hself ht, hempty, Option.some.injEq] at hm
      rw [← hm, SortedMap.get_empty] at hkv
      cases hkv
    · rw [hkeep htt] at ht
      rw [hfam (hother ht)] at hm
      exact h.stored ht hm hkv

/-- The column family of a table, after creating it if need be. -/
theorem columnFamily_spec {db : RocksDb} (h : Inv db) (table : Utf16) :
    ∃ cf db', db.columnFamily table = (cf, db') ∧ Unchanged db db' ∧
      (∀ c, cf = some c → db'.columnFamilies table = some c) ∧
      (NoFailures db → (cf.isSome ↔ db.Available table)) := by
  rw [columnFamily]
  by_cases hreg : (db.columnFamilies table).isSome
  · rw [if_pos hreg]
    exact ⟨_, _, rfl, .refl h, fun c hc => hc, fun _ => iff_of_true hreg (.inl hreg)⟩
  · rw [if_neg hreg, createColumnFamily, if_neg hreg, createFamily]
    rw [Option.not_isSome_iff_eq_none] at hreg
    split_ifs with hfail
    · refine ⟨none, db.called, rfl, .called h, fun c hc => absurd hc (by simp), fun hf => ?_⟩
      rw [hf 0] at hfail
      refine iff_of_false (by simp) ?_
      rintro (hr | hr)
      · rw [hreg] at hr
        cases hr
      · rw [hr] at hfail
        simp at hfail
    · rw [not_or, Option.not_isSome_iff_eq_none] at hfail
      refine ⟨some (encode table), db.created table, ?_, .created h hreg hfail.2, ?_, ?_⟩
      · simp only [Function.update_self]
        rfl
      · intro c hc
        rw [← hc]
        exact Function.update_self _ _ _
      · exact fun _ => iff_of_true rfl (.inr hfail.2)

/-- `get` of a key in the column family of a table. -/
theorem get_spec {db : RocksDb} (h : Inv db) {table : Utf16} {cf : Bytes} (hcf : db.columnFamilies table = some cf)
    (key : Name) :
    (db.get cf key.getBytes = (some (db.valueOf table key), db.called) ∧
        ∀ vb, db.valueOf table key = some vb → IsRecord vb) ∨
      (db.get cf key.getBytes = (none, db.called) ∧ ¬ NoFailures db) := by
  obtain ⟨m, hm⟩ := h.exist hcf
  have hv : db.valueOf table key = m.get key.getBytes := by
    rw [valueOf, hcf, Option.bind_some, hm, Option.bind_some]
  simp only [get, hm, hv]
  split_ifs with hfail
  · refine .inr ⟨rfl, fun hf => ?_⟩
    rw [hf 0] at hfail
    cases hfail
  · exact .inl ⟨rfl, fun vb hvb => (h.stored hcf hm hvb).2⟩

/-- The database after the entry of one key has been set to `v`. -/
theorem Changed.of_entry {db : RocksDb} (h : Inv db) {table : Utf16} {cf : Bytes}
    (hcf : db.columnFamilies table = some cf) {m m' : SortedMap Bytes Bytes} (hm : db.families cf = some m)
    {key : Name} {v : Option Bytes} (hv : ∀ vb, v = some vb → IsRecord vb)
    (hset : m'.get key.getBytes = v) (hrest : ∀ kb, kb ≠ key.getBytes → m'.get kb = m.get kb) :
    Changed table key (v.map recordOf) db
      { db.called with families := Function.update db.families cf (some m') } := by
  have hother : ∀ {t c}, t ≠ table → db.columnFamilies t = some c → c ≠ cf := by
    rintro t c ht htc rfl
    exact ht (h.distinct htc hcf)
  refine ⟨?_, ⟨?_, h.distinct, ?_⟩, fun hf i => hf (i + 1)⟩
  · funext t k
    by_cases ht : t = table
    · subst ht
      by_cases hk : k = key
      · rw [hk, Records.set_self]
        simp only [records, valueOf, called, hcf, Option.bind_some, Function.update_self, hset]
      · rw [Records.set_of_ne _ _ fun hc => hk hc.2]
        simp only [records, valueOf, called, hcf, Option.bind_some, Function.update_self,
          hrest _ fun hc => hk (Name.getBytes_inj hc), hm]
    · rw [Records.set_of_ne _ _ fun hc => ht hc.1]
      simp only [records, valueOf, called]
      cases htc : db.columnFamilies t with
      | none => rfl
      | some c => simp only [Option.bind_some, Function.update_of_ne (hother ht htc)]
  · intro t c htc
    by_cases hc : c = cf
    · exact ⟨m', by rw [hc]; exact Function.update_self _ _ _⟩
    · obtain ⟨m₀, hm₀⟩ := h.exist htc
      exact ⟨m₀, by rw [← hm₀]; exact Function.update_of_ne hc _ _⟩
  · intro t c m₀ htc hm₀ kb vb hkv
    by_cases hc : c = cf
    · subst hc
      simp only [Function.update_self, Option.some.injEq] at hm₀
      by_cases hkb : kb = key.getBytes
      · rw [hkb, ← hm₀, hset] at hkv
        exact ⟨⟨key, hkb.symm⟩, hv vb hkv⟩
      · rw [← hm₀, hrest kb hkb] at hkv
        exact h.stored htc hm hkv
    · simp only [Function.update_of_ne hc] at hm₀
      exact h.stored htc hm₀ hkv

/-- `put` of a record. -/
theorem put_spec {db : RocksDb} (h : Inv db) {table : Utf16} {cf : Bytes} (hcf : db.columnFamilies table = some cf)
    (key : Name) {bytes : Bytes} (hb : IsRecord bytes) :
    (∃ db', db.put cf key.getBytes bytes = (true, db') ∧ Changed table key (some (recordOf bytes)) db db') ∨
      (db.put cf key.getBytes bytes = (false, db.called) ∧ ¬ NoFailures db) := by
  obtain ⟨m, hm⟩ := h.exist hcf
  simp only [put, hm]
  split_ifs with hfail
  · refine .inr ⟨rfl, fun hf => ?_⟩
    rw [hf 0] at hfail
    cases hfail
  · refine .inl ⟨_, rfl, Changed.of_entry h hcf hm (v := some bytes) ?_ ?_ ?_⟩
    · rintro vb ⟨⟩
      exact hb
    · rw [SortedMap.get_put, if_pos rfl]
    · intro kb hkb
      rw [SortedMap.get_put, if_neg hkb]

/-- `delete` of a key. -/
theorem delete_spec {db : RocksDb} (h : Inv db) {table : Utf16} {cf : Bytes} (hcf : db.columnFamilies table = some cf)
    (key : Name) :
    (∃ db', db.delete cf key.getBytes = (true, db') ∧ Changed table key none db db') ∨
      (db.delete cf key.getBytes = (false, db.called) ∧ ¬ NoFailures db) := by
  obtain ⟨m, hm⟩ := h.exist hcf
  simp only [delete, hm]
  split_ifs with hfail
  · refine .inr ⟨rfl, fun hf => ?_⟩
    rw [hf 0] at hfail
    cases hfail
  · refine .inl ⟨_, rfl, Changed.of_entry h hcf hm (v := none) ?_ ?_ ?_⟩
    · intro vb hvb
      cases hvb
    · rw [SortedMap.get_delete, if_pos rfl]
    · intro kb hkb
      rw [SortedMap.get_delete, if_neg hkb]

end RocksDb

end YcsbIvs.RocksDB
