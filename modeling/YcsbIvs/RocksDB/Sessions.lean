import YcsbIvs.Foundations.Lines
import YcsbIvs.RocksDB.Refinement
import Mathlib.Data.List.Dedup

/-!
# The file of column families

The client keeps the names of the column families in the file `CF_NAMES`, because all of them
have to be named when a database is opened. The last `cleanup` writes it: first `default`, then the
names in `COLUMN_FAMILIES` (`saveColumnFamilyNames`). The first `init` reads it, and puts a
column family into `COLUMN_FAMILIES` for each name (`loadColumnFamilyNames`, `initRocksDB`).

A session is what happens between the two; `cycle` is a session from one directory to the next.
Opening a database fails if a column family of it, or `default`, is not named. What a writer leaves in
the file when it cannot encode a name is `torn`.

**The file names `default` twice from the second session on**: the first session reads no names
and has `default` not in `COLUMN_FAMILIES`, but every other reads it. So the file is right after
the first session, if the names can be read back, and never again (`cfNames_right_iff`).
-/

namespace YcsbIvs.RocksDB

open YcsbIvs.Foundations YcsbIvs.Core

/-! ### The file -/

/-- The order in which a set of names is gone through. -/
structure KeyOrder where
  /-- The names in order. -/
  order : List Utf16 → List Utf16
  /-- Each is gone through once. -/
  perm : ∀ names, (order names).Perm names

/-- `saveColumnFamilyNames()`: what the file holds after it, if `keys` are the names in `COLUMN_FAMILIES`. -/
def saveColumnFamilyNames (torn : Utf16 → Bytes) (keys : List Utf16) : Bytes :=
  let text := unlines (defaultColumnFamily :: keys)
  if WellFormed text then encode text else torn text

/-- `loadColumnFamilyNames()`, of the file if there is one; `none` if it is not UTF-8. -/
def loadColumnFamilyNames : Option Bytes → Option (List Utf16)
  | none => some []
  | some file => if encode (decode file) = file then some (readLines false [] (decode file)) else none

/-! ### Sessions -/

/-- What is in `rocksDbDir`. -/
structure Directory where
  /-- The column families of the database, by their names in bytes. -/
  families : Bytes → Option (SortedMap Bytes Bytes)
  /-- Their names. -/
  names : List Bytes
  /-- The names are those of the column families. -/
  mem_names : ∀ cf, cf ∈ names ↔ (families cf).isSome
  /-- The file `CF_NAMES`, if there is one. -/
  cfNames : Option Bytes

/-- There is no database yet, and no file. -/
def Directory.fresh : Directory := ⟨fun _ => none, [], by simp, none⟩

/-- The operations between the first `init` and the last `cleanup`. -/
structure Session where
  /-- The operations, each with the order in which the map it writes is gone through. -/
  operations : List (IterationOrder × Operation)
  /-- Which calls of the library throw. -/
  fails : ℕ → Bool
  /-- The order in which `COLUMN_FAMILIES` is gone through. -/
  keys : KeyOrder

/-- The names a database is opened with. -/
def descriptors (cfNames : List Utf16) : List Bytes :=
  (if cfNames = [] then [defaultColumnFamily] else cfNames).map encode

/-- `RocksDB.open` does not fail: `default` and all column families there are have been named. -/
def Directory.canOpen (dir : Directory) (cfNames : List Utf16) : Bool :=
  (descriptors cfNames).contains (encode defaultColumnFamily) && dir.names.all fun cf => (descriptors cfNames).contains cf

/-- The database after an operation. One that ends in an uncaught exception has looked up its table,
and one that reads has read. -/
def use (db : RocksDb) (l : IterationOrder × Operation) : RocksDb :=
  match perform db l with
  | .ok (_, db) => db
  | .error _ =>
    let db := (db.columnFamily l.2.table).2
    match l.2 with
    | .update _ _ _ | .read _ _ _ => db.called
    | _ => db

/-- The database at the end of a session that has read `cfNames`. -/
def endOf (dir : Directory) (cfNames : List Utf16) (s : Session) : RocksDb :=
  s.operations.foldl use (RocksDb.initRocksDB dir.families cfNames s.fails)

/-- The tables a session that has read `cfNames` can have in `COLUMN_FAMILIES`. -/
def tablesOf (cfNames : List Utf16) (operations : List (IterationOrder × Operation)) : List Utf16 :=
  cfNames ++ operations.map fun l => l.2.table

/-- `COLUMN_FAMILIES.keySet()` at the end of a session. -/
def keySet (dir : Directory) (cfNames : List Utf16) (s : Session) : List Utf16 :=
  (tablesOf cfNames s.operations).dedup.filter fun t => ((endOf dir cfNames s).columnFamilies t).isSome

/-! ### Names -/

/-- Two databases have the same names, in the database and in `COLUMN_FAMILIES`. -/
structure SameNames (db db' : RocksDb) : Prop where
  /-- The same column families. -/
  families : ∀ cf, (db'.families cf).isSome = (db.families cf).isSome
  /-- The same tables. -/
  columnFamilies : db'.columnFamilies = db.columnFamilies

theorem SameNames.refl (db : RocksDb) : SameNames db db := ⟨fun _ => rfl, rfl⟩

theorem SameNames.trans {db db' db'' : RocksDb} (h : SameNames db db') (h' : SameNames db' db'') : SameNames db db'' :=
  ⟨fun cf => (h'.families cf).trans (h.families cf), h'.columnFamilies.trans h.columnFamilies⟩

theorem SameNames.called (db : RocksDb) : SameNames db db.called := ⟨fun _ => rfl, rfl⟩

/-- A column family that is there is replaced. -/
theorem SameNames.update {db : RocksDb} {cf : Bytes} {m m' : SortedMap Bytes Bytes} (h : db.families cf = some m) :
    SameNames db { db.called with families := Function.update db.families cf (some m') } := by
  refine ⟨fun cf' => ?_, rfl⟩
  by_cases hcf : cf' = cf
  · subst hcf
    simp [h]
  · simp [Function.update_of_ne hcf]

theorem sameNames_get (db : RocksDb) (cf key : Bytes) : SameNames db (db.get cf key).2 := by
  rw [RocksDb.get]
  split <;> exact .called db

theorem sameNames_put (db : RocksDb) (cf key value : Bytes) : SameNames db (db.put cf key value).2 := by
  rw [RocksDb.put]
  split
  · next m hm =>
    split_ifs
    · exact .called db
    · exact .update hm
  · exact .called db

theorem sameNames_delete (db : RocksDb) (cf key : Bytes) : SameNames db (db.delete cf key).2 := by
  rw [RocksDb.delete]
  split
  · next m hm =>
    split_ifs
    · exact .called db
    · exact .update hm
  · exact .called db

/-! What an operation does to the names it does when it looks up its table. -/

section Operations

variable {db : RocksDb} {table : Utf16} {key : Name} {values : Values Name} {order : IterationOrder}

theorem sameNames_insert {r : Status × Values Name × RocksDb} (h : db.insert order table key values = .ok r) :
    SameNames (db.columnFamily table).2 r.2.2 := by
  rw [RocksDb.insert] at h
  rcases hcf : db.columnFamily table with ⟨_ | cf, db₁⟩
  · rw [hcf] at h
    cases h
    exact .refl db₁
  · rw [hcf] at h
    obtain ⟨⟨bytes, values'⟩, -, h⟩ := bind_inv h
    dsimp only at h
    have hput := sameNames_put db₁ cf key.getBytes bytes
    rcases hres : db₁.put cf key.getBytes bytes with ⟨_ | _, db₂⟩ <;> rw [hres] at h hput <;> cases h <;> exact hput

theorem sameNames_update {r : Status × Values Name × RocksDb} (h : db.update order table key values = .ok r) :
    SameNames (db.columnFamily table).2 r.2.2 := by
  rw [RocksDb.update] at h
  rcases hcf : db.columnFamily table with ⟨_ | cf, db₁⟩
  · rw [hcf] at h
    cases h
    exact .refl db₁
  · rw [hcf] at h
    dsimp only at h
    have hget := sameNames_get db₁ cf key.getBytes
    rcases hg : db₁.get cf key.getBytes with ⟨_ | _ | currentValues, db₂⟩
    · rw [hg] at h hget
      cases h
      exact hget
    · rw [hg] at h hget
      cases h
      exact hget
    · rw [hg] at h hget
      obtain ⟨result, -, h⟩ := bind_inv h
      obtain ⟨⟨bytes, values'⟩, -, h⟩ := bind_inv h
      dsimp only at h
      have hput := sameNames_put db₂ cf key.getBytes bytes
      rcases hres : db₂.put cf key.getBytes bytes with ⟨_ | _, db₃⟩ <;> rw [hres] at h hput <;> cases h <;> exact hget.trans hput

theorem sameNames_deleteRecord : SameNames (db.columnFamily table).2 (db.deleteRecord table key).2 := by
  rw [RocksDb.deleteRecord]
  rcases hcf : db.columnFamily table with ⟨_ | cf, db₁⟩
  · exact .refl db₁
  · have hdel := sameNames_delete db₁ cf key.getBytes
    dsimp only
    rcases hres : db₁.delete cf key.getBytes with ⟨_ | _, db₂⟩ <;> rw [hres] at hdel <;> exact hdel

theorem sameNames_read {fields : Option (List Name)} {result : Values Name} {r : Status × Values Name × RocksDb}
    (h : db.read table key fields result = .ok r) : SameNames (db.columnFamily table).2 r.2.2 := by
  rw [RocksDb.read] at h
  rcases hcf : db.columnFamily table with ⟨_ | cf, db₁⟩
  · rw [hcf] at h
    cases h
    exact .refl db₁
  · rw [hcf] at h
    dsimp only at h
    have hget := sameNames_get db₁ cf key.getBytes
    rcases hg : db₁.get cf key.getBytes with ⟨_ | _ | values, db₂⟩
    · rw [hg] at h hget
      cases h
      exact hget
    · rw [hg] at h hget
      cases h
      exact hget
    · rw [hg] at h hget
      obtain ⟨result', -, h⟩ := bind_inv h
      cases h
      exact hget

theorem sameNames_scan {recordcount : ℤ} {fields : Option (List Name)} {r : Status × List (Values Name) × RocksDb}
    (h : db.scan table key recordcount fields = .ok r) : SameNames (db.columnFamily table).2 r.2.2 := by
  rw [RocksDb.scan] at h
  rcases hcf : db.columnFamily table with ⟨_ | cf, db₁⟩
  · rw [hcf] at h
    cases h
    exact .refl db₁
  · rw [hcf] at h
    obtain ⟨result', -, h⟩ := bind_inv h
    cases h
    exact .refl db₁

end Operations

theorem sameNames_perform {db db' : RocksDb} {l : IterationOrder × Operation} {reply : Reply}
    (h : perform db l = .ok (reply, db')) : SameNames (db.columnFamily l.2.table).2 db' := by
  obtain ⟨order, op⟩ := l
  cases op with
  | insert table key values =>
    obtain ⟨r, hr, h⟩ := map_inv h
    cases h
    exact sameNames_insert hr
  | update table key values =>
    obtain ⟨r, hr, h⟩ := map_inv h
    cases h
    exact sameNames_update hr
  | delete table key =>
    cases h
    exact sameNames_deleteRecord
  | read table key fields =>
    obtain ⟨r, hr, h⟩ := map_inv h
    cases h
    exact sameNames_read hr
  | scan table startkey recordcount fields =>
    obtain ⟨r, hr, h⟩ := map_inv h
    cases h
    exact sameNames_scan hr

theorem sameNames_use (db : RocksDb) (l : IterationOrder × Operation) : SameNames (db.columnFamily l.2.table).2 (use db l) := by
  rw [use]
  split
  · next h => exact sameNames_perform h
  · dsimp only
    split
    · exact .called _
    · exact .called _
    · exact .refl _

/-- Looking up a table creates a column family for it, or no name changes. -/
theorem columnFamily_names (db : RocksDb) (table : Utf16) :
    SameNames db (db.columnFamily table).2 ∨
      (db.columnFamilies table = none ∧ db.families (encode table) = none ∧ (db.columnFamily table).2 = db.created table) := by
  rw [RocksDb.columnFamily]
  by_cases hreg : (db.columnFamilies table).isSome
  · rw [if_pos hreg]
    exact .inl (.refl db)
  · rw [if_neg hreg, RocksDb.createColumnFamily, if_neg hreg, RocksDb.createFamily]
    rw [Option.not_isSome_iff_eq_none] at hreg
    split_ifs with hfail
    · exact .inl (.called db)
    · rw [not_or, Option.not_isSome_iff_eq_none] at hfail
      exact .inr ⟨hreg, hfail.2, rfl⟩

/-! ### The names during a session -/

/-- The names of a database that was opened with `cfNames`, and whose tables are among `tables`. -/
structure Tracks (cfNames tables : List Utf16) (db : RocksDb) : Prop where
  /-- The column families are known. -/
  family_mem : ∀ cf, (db.families cf).isSome → cf ∈ descriptors cfNames ∨ ∃ t ∈ tables, cf = encode t
  /-- The tables are known. -/
  table_mem : ∀ t, (db.columnFamilies t).isSome → t ∈ tables
  /-- A table has the column family of its name. -/
  family_of : ∀ t, (db.columnFamilies t).isSome → (db.families (encode t)).isSome
  /-- Each has its own. -/
  distinct : ∀ t t', (db.columnFamilies t).isSome → (db.columnFamilies t').isSome → encode t = encode t' → t = t'
  /-- Each column family but `default` has a table. -/
  table_of : ∀ cf, (db.families cf).isSome → cf = encode defaultColumnFamily ∨ ∃ t, (db.columnFamilies t).isSome ∧ cf = encode t
  /-- There is `default`. -/
  default : (db.families (encode defaultColumnFamily)).isSome
  /-- It is no other table's. -/
  not_default : ∀ t, (db.columnFamilies t).isSome → encode t = encode defaultColumnFamily → t = defaultColumnFamily
  /-- It is in `COLUMN_FAMILIES` only if it was read. -/
  default_read : (db.columnFamilies defaultColumnFamily).isSome → defaultColumnFamily ∈ cfNames

theorem Tracks.same {cfNames tables : List Utf16} {db db' : RocksDb} (h : Tracks cfNames tables db)
    (hsame : SameNames db db') : Tracks cfNames tables db' := by
  obtain ⟨hfam, hcf⟩ := hsame
  constructor
  · intro cf hs
    exact h.family_mem cf (hfam cf ▸ hs)
  · intro t hs
    exact h.table_mem t (hcf ▸ hs)
  · intro t hs
    rw [hfam]
    exact h.family_of t (hcf ▸ hs)
  · intro t t' hs hs'
    exact h.distinct t t' (hcf ▸ hs) (hcf ▸ hs')
  · intro cf hs
    rw [hcf]
    exact h.table_of cf (hfam cf ▸ hs)
  · rw [hfam]
    exact h.default
  · intro t hs
    exact h.not_default t (hcf ▸ hs)
  · intro hs
    exact h.default_read (hcf ▸ hs)

theorem families_created (db : RocksDb) (table : Utf16) (cf : Bytes) :
    ((db.created table).families cf).isSome ↔ cf = encode table ∨ (db.families cf).isSome := by
  by_cases hcf : cf = encode table
  · subst hcf
    simp [RocksDb.created]
  · simp [RocksDb.created, hcf]

theorem columnFamilies_created (db : RocksDb) (table t : Utf16) :
    ((db.created table).columnFamilies t).isSome ↔ t = table ∨ (db.columnFamilies t).isSome := by
  by_cases ht : t = table
  · subst ht
    simp [RocksDb.created]
  · simp [RocksDb.created, ht]

/-- A column family is created for a table that has none. -/
theorem Tracks.created {cfNames tables : List Utf16} {db : RocksDb} (h : Tracks cfNames tables db) {table : Utf16}
    (htable : table ∈ tables) (hfree : db.families (encode table) = none) : Tracks cfNames tables (db.created table) := by
  -- The name is not that of a column family there is.
  have hnew : ∀ cf, (db.families cf).isSome → encode table ≠ cf := by
    rintro cf hs rfl
    rw [hfree] at hs
    cases hs
  constructor
  · intro cf hs
    rcases (families_created db table cf).mp hs with rfl | hs
    · exact .inr ⟨table, htable, rfl⟩
    · exact h.family_mem cf hs
  · intro t hs
    rcases (columnFamilies_created db table t).mp hs with rfl | hs
    · exact htable
    · exact h.table_mem t hs
  · intro t hs
    rw [families_created]
    rcases (columnFamilies_created db table t).mp hs with rfl | hs
    · exact .inl rfl
    · exact .inr (h.family_of t hs)
  · intro t t' hs hs' heq
    rcases (columnFamilies_created db table t).mp hs with ht | ht <;>
      rcases (columnFamilies_created db table t').mp hs' with ht' | ht'
    · rw [ht, ht']
    · exact absurd (ht ▸ heq) (hnew _ (h.family_of t' ht'))
    · exact absurd (ht' ▸ heq.symm) (hnew _ (h.family_of t ht))
    · exact h.distinct t t' ht ht' heq
  · intro cf hs
    rcases (families_created db table cf).mp hs with rfl | hs
    · exact .inr ⟨_, (columnFamilies_created db _ _).mpr (.inl rfl), rfl⟩
    · exact (h.table_of cf hs).imp_right fun ⟨t, ht, heq⟩ => ⟨t, (columnFamilies_created db table t).mpr (.inr ht), heq⟩
  · exact (families_created db table _).mpr (.inr h.default)
  · intro t hs heq
    rcases (columnFamilies_created db table t).mp hs with rfl | hs
    · exact absurd heq (hnew _ h.default)
    · exact h.not_default t hs heq
  · intro hs
    rcases (columnFamilies_created db table _).mp hs with rfl | hs
    · exact absurd rfl (hnew _ h.default)
    · exact h.default_read hs

/-- An operation keeps track of the names, and forgets no table. -/
theorem Tracks.use {cfNames tables : List Utf16} {db : RocksDb} (h : Tracks cfNames tables db)
    {l : IterationOrder × Operation} (hl : l.2.table ∈ tables) :
    Tracks cfNames tables (use db l) ∧ ∀ t, (db.columnFamilies t).isSome → ((RocksDB.use db l).columnFamilies t).isSome := by
  have huse := sameNames_use db l
  rcases columnFamily_names db l.2.table with hsame | ⟨-, hfree, hcreated⟩
  · have hsame := hsame.trans huse
    exact ⟨h.same hsame, fun t ht => by rwa [hsame.columnFamilies]⟩
  · rw [hcreated] at huse
    refine ⟨(h.created hl hfree).same huse, fun t ht => ?_⟩
    rw [huse.columnFamilies, columnFamilies_created]
    exact .inr ht

/-- So do the operations of a session. -/
theorem Tracks.foldl {cfNames tables : List Utf16} (operations : List (IterationOrder × Operation)) {db : RocksDb}
    (h : Tracks cfNames tables db) (hops : ∀ l ∈ operations, l.2.table ∈ tables) :
    Tracks cfNames tables (operations.foldl RocksDB.use db) ∧
      ∀ t, (db.columnFamilies t).isSome → ((operations.foldl RocksDB.use db).columnFamilies t).isSome := by
  induction operations generalizing db with
  | nil => exact ⟨h, fun _ ht => ht⟩
  | cons l operations ih =>
    obtain ⟨huse, hkeep⟩ := h.use (hops l List.mem_cons_self)
    obtain ⟨htracks, hkeep'⟩ := ih huse fun l' hl' => hops l' (List.mem_cons_of_mem _ hl')
    exact ⟨htracks, fun t ht => hkeep' t (hkeep t ht)⟩

/-! ### A session -/

/-- A name that is read is one of the file's lines. -/
theorem mem_of_load {file : Option Bytes} {cfNames : List Utf16} (h : loadColumnFamilyNames file = some cfNames)
    {t : Utf16} (ht : t ∈ cfNames) : ∃ bytes, t ∈ readLines false [] (decode bytes) := by
  cases file with
  | none =>
    cases h
    cases ht
  | some bytes =>
    rw [loadColumnFamilyNames] at h
    split_ifs at h with hdec
    cases h
    exact ⟨bytes, ht⟩

/-- Names that are read are well formed. -/
theorem load_wellFormed {file : Option Bytes} {cfNames : List Utf16} (h : loadColumnFamilyNames file = some cfNames)
    {t : Utf16} (ht : t ∈ cfNames) : WellFormed t = true := by
  obtain ⟨bytes, ht⟩ := mem_of_load h ht
  have hwf : WellFormed ([] ++ decode bytes) = true := wellFormed_decode bytes
  exact readLines_wellFormed hwf ht

/-- They have no line breaks. -/
theorem load_hasNoBreak {file : Option Bytes} {cfNames : List Utf16} (h : loadColumnFamilyNames file = some cfNames)
    {t : Utf16} (ht : t ∈ cfNames) : HasNoBreak t := by
  obtain ⟨bytes, ht⟩ := mem_of_load h ht
  have hnil : HasNoBreak [] := fun c hc => nomatch hc
  exact readLines_hasNoBreak hnil ht

theorem families_initRocksDB (stored : Bytes → Option (SortedMap Bytes Bytes)) (cfNames : List Utf16) (fails : ℕ → Bool) (cf : Bytes) :
    ((RocksDb.initRocksDB stored cfNames fails).families cf).isSome ↔ cf ∈ descriptors cfNames := by
  simp [RocksDb.initRocksDB, descriptors, apply_ite]

theorem columnFamilies_initRocksDB (stored : Bytes → Option (SortedMap Bytes Bytes)) (cfNames : List Utf16) (fails : ℕ → Bool)
    (t : Utf16) : ((RocksDb.initRocksDB stored cfNames fails).columnFamilies t).isSome ↔ t ∈ cfNames := by
  simp [RocksDb.initRocksDB, apply_ite]

theorem wellFormed_default : WellFormed defaultColumnFamily = true := by decide

theorem hasNoBreak_default : HasNoBreak defaultColumnFamily := by decide

section Session

variable {dir : Directory} {cfNames : List Utf16}

/-- What `init` has opened is tracked. -/
theorem tracks_initRocksDB (hload : loadColumnFamilyNames dir.cfNames = some cfNames) (hopen : dir.canOpen cfNames) (fails : ℕ → Bool)
    (operations : List (IterationOrder × Operation)) :
    Tracks cfNames (tablesOf cfNames operations) (RocksDb.initRocksDB dir.families cfNames fails) := by
  rw [Directory.canOpen, Bool.and_eq_true, List.contains_iff_mem] at hopen
  constructor
  · intro cf hs
    exact .inl ((families_initRocksDB _ _ _ _).mp hs)
  · intro t hs
    exact List.mem_append_left _ ((columnFamilies_initRocksDB _ _ _ _).mp hs)
  · intro t hs
    have ht := (columnFamilies_initRocksDB _ _ _ _).mp hs
    rw [families_initRocksDB, descriptors, if_neg (List.ne_nil_of_mem ht)]
    exact List.mem_map_of_mem ht
  · intro t t' hs hs' heq
    have ht := load_wellFormed hload ((columnFamilies_initRocksDB _ _ _ _).mp hs)
    have ht' := load_wellFormed hload ((columnFamilies_initRocksDB _ _ _ _).mp hs')
    exact encode_inj ht ht' heq
  · intro cf hs
    have hmem := (families_initRocksDB _ _ _ _).mp hs
    rw [descriptors] at hmem
    obtain ⟨t, ht, rfl⟩ := List.mem_map.mp hmem
    split_ifs at ht with hnil
    · rw [List.mem_singleton.mp ht]
      exact .inl rfl
    · exact .inr ⟨t, (columnFamilies_initRocksDB _ _ _ _).mpr ht, rfl⟩
  · exact (families_initRocksDB _ _ _ _).mpr hopen.1
  · intro t hs heq
    exact encode_inj (load_wellFormed hload ((columnFamilies_initRocksDB _ _ _ _).mp hs)) wellFormed_default heq
  · intro hs
    exact (columnFamilies_initRocksDB _ _ _ _).mp hs

/-- So is what there is at the end of the session, and it has the tables that were read. -/
theorem tracks_endOf (hload : loadColumnFamilyNames dir.cfNames = some cfNames) (hopen : dir.canOpen cfNames) (s : Session) :
    Tracks cfNames (tablesOf cfNames s.operations) (endOf dir cfNames s) ∧
      ∀ t ∈ cfNames, ((endOf dir cfNames s).columnFamilies t).isSome := by
  obtain ⟨htracks, hkeep⟩ := (tracks_initRocksDB hload hopen s.fails s.operations).foldl s.operations
    fun l hl => List.mem_append_right _ (List.mem_map_of_mem hl)
  exact ⟨htracks, fun t ht => hkeep t ((columnFamilies_initRocksDB _ _ _ _).mpr ht)⟩

theorem mem_keySet (hload : loadColumnFamilyNames dir.cfNames = some cfNames) (hopen : dir.canOpen cfNames) {s : Session} {t : Utf16} :
    t ∈ keySet dir cfNames s ↔ ((endOf dir cfNames s).columnFamilies t).isSome := by
  rw [keySet, List.mem_filter, List.mem_dedup]
  exact ⟨fun h => h.2, fun h => ⟨(tracks_endOf hload hopen s).1.table_mem t h, h⟩⟩

/-- The last `cleanup` of a session: the directory after it. -/
def cleanup (torn : Utf16 → Bytes) (hload : loadColumnFamilyNames dir.cfNames = some cfNames) (hopen : dir.canOpen cfNames) (s : Session) :
    Directory where
  families := (endOf dir cfNames s).families
  names := (descriptors cfNames ++ (tablesOf cfNames s.operations).map encode).filter fun cf => ((endOf dir cfNames s).families cf).isSome
  mem_names cf := by
    rw [List.mem_filter, List.mem_append, List.mem_map]
    refine ⟨fun h => h.2, fun h => ⟨?_, h⟩⟩
    exact ((tracks_endOf hload hopen s).1.family_mem cf h).imp_right fun ⟨t, ht, heq⟩ => ⟨t, ht, heq.symm⟩
  cfNames := some (saveColumnFamilyNames torn (s.keys.order (keySet dir cfNames s)))

end Session

/-- A session, from one directory to the next, if its `init` does not throw. -/
def cycle (torn : Utf16 → Bytes) (dir : Directory) (s : Session) : Option Directory :=
  match hload : loadColumnFamilyNames dir.cfNames with
  | none => none
  | some cfNames => if hopen : dir.canOpen cfNames then some (cleanup torn hload hopen s) else none

theorem cycle_inv {torn : Utf16 → Bytes} {dir dir' : Directory} {s : Session} (h : cycle torn dir s = some dir') :
    ∃ (cfNames : List Utf16) (hload : loadColumnFamilyNames dir.cfNames = some cfNames) (hopen : dir.canOpen cfNames),
      dir' = cleanup torn hload hopen s := by
  rw [cycle] at h
  split at h
  · cases h
  · next cfNames hload =>
    split_ifs at h with hopen
    exact ⟨cfNames, hload, hopen, (Option.some.inj h).symm⟩

/-! ### What the file lists -/

/-- The file lists `default`, and every column family there is exactly once: what a database is opened
with next has no duplicates, and names exactly the column families it has. -/
def Directory.Right (dir : Directory) : Prop :=
  ∃ names, loadColumnFamilyNames dir.cfNames = some names ∧ defaultColumnFamily ∈ names ∧ (descriptors names).Nodup ∧
    ∀ cf, cf ∈ descriptors names ↔ (dir.families cf).isSome

/-- The name can be read back from a line. -/
def Writable (name : Utf16) : Prop := WellFormed name = true ∧ HasNoBreak name

/-- Well-formed names are written, after `default`. -/
theorem load_save {torn : Utf16 → Bytes} {keys : List Utf16} (h : ∀ t ∈ keys, WellFormed t = true) :
    loadColumnFamilyNames (some (saveColumnFamilyNames torn keys)) =
      some (readLines false [] (unlines (defaultColumnFamily :: keys))) := by
  have hwf : WellFormed (unlines (defaultColumnFamily :: keys)) = true := by
    rw [wellFormed_unlines, List.all_cons, wellFormed_default, Bool.true_and, List.all_eq_true]
    exact h
  rw [saveColumnFamilyNames, if_pos hwf, loadColumnFamilyNames, decode_encode hwf, if_pos rfl]

section Cleanup

variable {torn : Utf16 → Bytes} {dir : Directory} {cfNames : List Utf16} {s : Session}
  {hload : loadColumnFamilyNames dir.cfNames = some cfNames} {hopen : dir.canOpen cfNames}

theorem mem_order {t : Utf16} : t ∈ s.keys.order (keySet dir cfNames s) ↔ t ∈ keySet dir cfNames s := (s.keys.perm _).mem_iff

theorem load_cleanup (torn : Utf16 → Bytes) (hload : loadColumnFamilyNames dir.cfNames = some cfNames) (hopen : dir.canOpen cfNames)
    (hwf : ∀ t ∈ keySet dir cfNames s, WellFormed t = true) :
    loadColumnFamilyNames (cleanup torn hload hopen s).cfNames =
      some (readLines false [] (unlines (defaultColumnFamily :: s.keys.order (keySet dir cfNames s)))) :=
  load_save fun t ht => hwf t (mem_order.mp ht)

/-- If `default` is not in `COLUMN_FAMILIES`, and the names there can be read back, the file is right. -/
theorem right_cleanup (hdefault : defaultColumnFamily ∉ cfNames) (hkeys : ∀ t ∈ keySet dir cfNames s, Writable t) :
    (cleanup torn hload hopen s).Right := by
  obtain ⟨htracks, -⟩ := tracks_endOf hload hopen s
  have hmem : ∀ t, t ∈ s.keys.order (keySet dir cfNames s) ↔ ((endOf dir cfNames s).columnFamilies t).isSome :=
    fun t => mem_order.trans (mem_keySet hload hopen)
  have hlines := load_cleanup torn hload hopen fun t ht => (hkeys t ht).1
  rw [readLines_unlines (List.forall_mem_cons.mpr ⟨hasNoBreak_default, fun t ht => (hkeys t (mem_order.mp ht)).2⟩)] at hlines
  have hdesc : descriptors (defaultColumnFamily :: s.keys.order (keySet dir cfNames s)) =
      encode defaultColumnFamily :: (s.keys.order (keySet dir cfNames s)).map encode := by
    rw [descriptors, if_neg (List.cons_ne_nil _ _), List.map_cons]
  refine ⟨_, hlines, List.mem_cons_self, ?_, fun cf => ?_⟩
  · rw [hdesc, List.nodup_cons]
    constructor
    · intro hin
      obtain ⟨t, ht, heq⟩ := List.mem_map.mp hin
      have ht := (hmem t).mp ht
      rw [htracks.not_default t ht heq] at ht
      exact hdefault (htracks.default_read ht)
    · have hnd : (keySet dir cfNames s).Nodup := (List.nodup_dedup _).filter _
      refine List.Nodup.map_on (fun t ht t' ht' heq => ?_) ((s.keys.perm _).nodup_iff.mpr hnd)
      exact htracks.distinct t t' ((hmem t).mp ht) ((hmem t').mp ht') heq
  · rw [hdesc, List.mem_cons, List.mem_map]
    constructor
    · rintro (rfl | ⟨t, ht, rfl⟩)
      · exact htracks.default
      · exact htracks.family_of t ((hmem t).mp ht)
    · intro hs
      exact (htracks.table_of cf hs).imp_right fun ⟨t, ht, heq⟩ => ⟨t, (hmem t).mpr ht, heq.symm⟩

/-- A well-formed name that the file is right about has no line break. -/
theorem hasNoBreak_of_right (hright : (cleanup torn hload hopen s).Right) {t : Utf16} (ht : t ∈ keySet dir cfNames s)
    (hwf : WellFormed t = true) : HasNoBreak t := by
  obtain ⟨names, hnames, hdefault, -, hiff⟩ := hright
  have hfamily := (tracks_endOf hload hopen s).1.family_of t ((mem_keySet hload hopen).mp ht)
  have hin := (hiff (encode t)).mpr hfamily
  rw [descriptors, if_neg (List.ne_nil_of_mem hdefault)] at hin
  obtain ⟨name, hname, heq⟩ := List.mem_map.mp hin
  rw [← encode_inj (load_wellFormed hnames hname) hwf heq]
  exact load_hasNoBreak hnames hname

/-- If `default` was read, a file of well-formed names is not right: it lists `default` twice. -/
theorem not_right_of_default (hdefault : defaultColumnFamily ∈ cfNames) (hwf : ∀ t ∈ keySet dir cfNames s, WellFormed t = true) :
    ¬ (cleanup torn hload hopen s).Right := by
  intro hright
  have hbreaks : ∀ t ∈ keySet dir cfNames s, HasNoBreak t := fun t ht => hasNoBreak_of_right hright ht (hwf t ht)
  obtain ⟨names, hnames, hin, hnodup, -⟩ := hright
  rw [load_cleanup torn hload hopen hwf, readLines_unlines (List.forall_mem_cons.mpr ⟨hasNoBreak_default, fun t ht => hbreaks t (mem_order.mp ht)⟩)] at hnames
  obtain rfl := Option.some.inj hnames
  rw [descriptors, if_neg (List.cons_ne_nil _ _), List.map_cons, List.nodup_cons] at hnodup
  have hkey : defaultColumnFamily ∈ s.keys.order (keySet dir cfNames s) :=
    mem_order.mpr ((mem_keySet hload hopen).mpr ((tracks_endOf hload hopen s).2 _ hdefault))
  exact hnodup.1 (List.mem_map_of_mem hkey)

/-- A session after another one reads `default`. -/
theorem default_mem_of_cleanup {names : List Utf16} (hnames : loadColumnFamilyNames (cleanup torn hload hopen s).cfNames = some names)
    (hopen' : (cleanup torn hload hopen s).canOpen names) : defaultColumnFamily ∈ names := by
  rw [Directory.canOpen, Bool.and_eq_true, List.contains_iff_mem, List.all_eq_true] at hopen'
  obtain ⟨hdesc, hall⟩ := hopen'
  by_cases hnil : names = []
  · -- Then a name could not be written, and its column family is not named.
    exfalso
    subst hnil
    by_cases hwf : ∀ t ∈ keySet dir cfNames s, WellFormed t = true
    · rw [load_cleanup torn hload hopen hwf, unlines, readLines_append hasNoBreak_default] at hnames
      cases hnames
    · obtain ⟨t, hill⟩ := not_forall.mp hwf
      obtain ⟨ht, hill⟩ := Classical.not_imp.mp hill
      have hs := (mem_keySet hload hopen).mp ht
      obtain ⟨htracks, -⟩ := tracks_endOf hload hopen s
      have hin := hall (encode t) (((cleanup torn hload hopen s).mem_names _).mpr (htracks.family_of t hs))
      rw [List.contains_iff_mem, descriptors, if_pos rfl, List.map_singleton, List.mem_singleton] at hin
      rw [htracks.not_default t hs hin] at hill
      exact hill wellFormed_default
  · rw [descriptors, if_neg hnil] at hdesc
    obtain ⟨name, hname, heq⟩ := List.mem_map.mp hdesc
    rwa [← encode_inj (load_wellFormed hnames hname) wellFormed_default heq]

end Cleanup

/-- **The file is right after the first session, if the names can be read back, and never again**: of any run of sessions,
`s` is the last, and `ss` are those before it. -/
theorem cfNames_right_iff (torn : Utf16 → Bytes) {ss : List Session} {s : Session} {dir dir' : Directory} {cfNames : List Utf16}
    (hrun : exec (cycle torn) .fresh ss = some dir) (hload : loadColumnFamilyNames dir.cfNames = some cfNames)
    (hcycle : cycle torn dir s = some dir') :
    ((ss = [] ∧ ∀ t ∈ keySet dir cfNames s, Writable t) → dir'.Right) ∧
      ((∀ t ∈ keySet dir cfNames s, WellFormed t = true) → dir'.Right → ss = [] ∧ ∀ t ∈ keySet dir cfNames s, Writable t) := by
  obtain ⟨cfNames', hload', hopen, rfl⟩ := cycle_inv hcycle
  obtain rfl : cfNames' = cfNames := Option.some.inj (hload'.symm.trans hload)
  constructor
  · rintro ⟨rfl, hkeys⟩
    cases hrun
    cases hload
    exact right_cleanup (List.not_mem_nil) hkeys
  · intro hwf hright
    refine ⟨?_, fun t ht => ⟨hwf t ht, hasNoBreak_of_right hright ht (hwf t ht)⟩⟩
    by_contra hne
    obtain ⟨ss', s', rfl⟩ := (List.eq_nil_or_concat ss).resolve_left hne
    rw [List.concat_eq_append, exec_append] at hrun
    obtain ⟨dir₀, -, hlast⟩ := Option.bind_eq_some_iff.mp hrun
    obtain ⟨dir₁, hs', hnil⟩ := exec_cons hlast
    cases hnil
    obtain ⟨cfNames₀, hload₀, hopen₀, rfl⟩ := cycle_inv hs'
    exact not_right_of_default (default_mem_of_cleanup hload hopen) hwf hright

/-- A session without operations. -/
def idleSession : Session := ⟨[], fun _ => false, ⟨id, fun _ => List.Perm.refl _⟩⟩

/-- The directory after two of them. -/
def afterTwo : Option Directory := exec (cycle fun _ => []) .fresh [idleSession, idleSession]

/-- A session in which one table is made. -/
def tableSession : Session := { idleSession with operations := [(keptOrder, .delete tableT ⟨[], rfl⟩)] }

/-- The directory after it. -/
def afterTable : Directory :=
  cleanup (fun _ => []) (rfl : loadColumnFamilyNames Directory.fresh.cfNames = some []) rfl tableSession

theorem cfNames_right_iff_table : afterTable.Right := by
  have hcycle : cycle (fun _ => []) .fresh tableSession = some afterTable := rfl
  refine (cfNames_right_iff (fun _ => []) rfl rfl hcycle).1 ⟨rfl, ?_⟩
  have hkeys : keySet .fresh [] tableSession = [tableT] := by decide
  rw [hkeys]
  simp only [List.mem_singleton, forall_eq]
  exact ⟨by decide, by decide⟩

/-- After two sessions without operations the file lists `default` twice. -/
theorem not_cfNames_right :
    ¬ ∀ (torn : Utf16 → Bytes) (ss : List Session) (dir : Directory),
      ss ≠ [] → exec (cycle torn) .fresh ss = some dir → dir.Right := by
  intro h
  have hright : ∃ dir, afterTwo = some dir ∧ dir.Right := by
    cases hd : afterTwo with
    | none => exact absurd hd (by decide)
    | some dir => exact ⟨dir, rfl, h _ _ dir (List.cons_ne_nil _ _) hd⟩
  obtain ⟨dir, hd, names, hnames, -, hnodup, -⟩ := hright
  have hload : (afterTwo.bind fun dir => loadColumnFamilyNames dir.cfNames) = some [defaultColumnFamily, defaultColumnFamily] := by decide
  rw [hd, Option.bind_some, hnames] at hload
  obtain rfl := Option.some.inj hload
  exact absurd hnodup (by decide)

end YcsbIvs.RocksDB
