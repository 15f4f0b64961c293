import YcsbIvs.Foundations.Runs
import YcsbIvs.Foundations.Utf
import YcsbIvs.Foundations.Words
import Mathlib.Data.List.AList
import Mathlib.Data.List.Nodup

/-!
# The life of the RocksDB database

All clients of a process share one database, which is kept in static fields: the first `init` opens
it, the last `cleanup` closes it, and `references` counts the clients in between. The column families that
are open are in `COLUMN_FAMILIES`, each with a handle, which is good for as long as the database it is of is open.

`init` and `cleanup` hold the lock of the class, so they are steps of a run. An operation of a client that has
been initialized may create a column family, which is a step too. Opening the database may fail at any of its
calls, and so may writing the file of names (`saveColumnFamilyNames`), which is what `cleanup` does before
it clears `COLUMN_FAMILIES`. The options objects of column families are left out.

**Everything is as it should be as long as no last `cleanup` fails to write the file** while there are
column families (`lifecycle_iff`): if one does, their handles stay, and the database is closed.
-/

namespace YcsbIvs.RocksDB.Lifecycle

open YcsbIvs.Foundations

/-! ### The static fields -/

/-- How a call ends. -/
inductive Result where
  /-- It returns. -/
  | returns
  /-- `DBException`. -/
  | dbException
  /-- `NullPointerException`. -/
  | nullPointer
  deriving DecidableEq, Repr

/-- The static fields, and the clients. A database is known by a number, and a handle by that of
its database. -/
structure State where
  /-- `rocksDbDir`. -/
  rocksDbDir : Option Utf16
  /-- `optionsFile`. -/
  optionsFile : Option Utf16
  /-- `dbOptions` is not null. -/
  dbOptions : Bool
  /-- `rocksDb`. -/
  rocksDb : Option ℕ
  /-- `references`. -/
  references : ℤ
  /-- `COLUMN_FAMILIES`. -/
  columnFamilies : AList fun _ : Utf16 => ℕ
  /-- How many databases have been opened. -/
  opened : ℕ
  /-- The threads whose client is initialized, and has not been cleaned up. -/
  live : List ℕ

/-- Before anything has been called. -/
def State.new : State := ⟨none, none, false, none, 0, ∅, 0, []⟩

/-- What a call of `init` meets, if it has to open the database. -/
structure Opening where
  /-- The property `rocksdb.dir`. -/
  dir : Option Utf16
  /-- The property `rocksdb.optionsfile`. -/
  optionsFile : Option Utf16
  /-- The directory is there, or is created. -/
  directory : Bool
  /-- What `loadOptionsFromFile` finds, if it does not throw. -/
  cfDescriptors : Option (List Utf16)
  /-- What `loadColumnFamilyNames` finds, if it does not throw. -/
  cfNames : Option (List Utf16)
  /-- `RocksDB.open` does not throw. -/
  opens : Bool

/-- The database is opened with the column families `names`, if those could be read; `false` if this throws. -/
def openWith (names : Option (List Utf16)) (s : State) (o : Opening) : Bool × State :=
  if o.directory then
    match names with
    | none => (false, s)
    | some names =>
      let s := { s with dbOptions := true }
      if o.opens then
        (true, { s with
          columnFamilies := names.foldl (fun families name => families.insert name s.opened) s.columnFamilies
          rocksDb := some s.opened
          opened := s.opened + 1 })
      else (false, s)
  else (false, s)

/-- `initRocksDBWithOptionsFile()`, and the assignment of what it returns. -/
def initRocksDBWithOptionsFile (s : State) (o : Opening) : Bool × State := openWith o.cfDescriptors s o

/-- `initRocksDB()`, and the assignment of what it returns. With no names it puts nothing into `COLUMN_FAMILIES`. -/
def initRocksDB (s : State) (o : Opening) : Bool × State := openWith o.cfNames s o

/-- The choice that `init` makes between the two. -/
def openDatabase (s : State) (o : Opening) : Bool × State :=
  if s.optionsFile.isSome then initRocksDBWithOptionsFile s o else initRocksDB s o

/-- `init()`. -/
def init (s : State) (o : Opening) : Result × State :=
  if s.rocksDb.isSome then (.returns, { s with references := asInt (s.references + 1) })
  else
    match o.dir with
    | none => (.nullPointer, s)
    | some dir =>
      match openDatabase { s with rocksDbDir := some dir, optionsFile := o.optionsFile.or s.optionsFile } o with
      | (true, s) => (.returns, { s with references := asInt (s.references + 1) })
      | (false, s) => (.dbException, s)

/-- The body of `cleanup()` for the last client, if `saves` says whether `saveColumnFamilyNames` returns. -/
def tearDown (s : State) (saves : Bool) : Result × State :=
  match s.rocksDb with
  | none => (.nullPointer, s)
  | some _ =>
    let s := { s with rocksDb := none }
    if s.dbOptions then
      let s := { s with dbOptions := false }
      match s.rocksDbDir with
      | none => (.nullPointer, s)
      | some _ =>
        if saves then (.returns, { s with columnFamilies := ∅, rocksDbDir := none }) else (.dbException, s)
    else (.nullPointer, s)

/-- `cleanup()`; its `finally` counts the client off. -/
def cleanup (s : State) (saves : Bool) : Result × State :=
  let (result, s) := if s.references = 1 then tearDown s saves else (.returns, s)
  (result, { s with references := asInt (s.references - 1) })

/-- `createColumnFamily(name)`; `creates` says whether the call of the library returns. -/
def createColumnFamily (s : State) (name : Utf16) (creates : Bool) : Result × State :=
  if name ∈ s.columnFamilies then (.returns, s)
  else
    match s.rocksDb with
    | none => (.nullPointer, s)
    | some db => (.returns, if creates then { s with columnFamilies := s.columnFamilies.insert name db } else s)

/-! ### Runs -/

/-- A call that a thread makes. -/
inductive Call where
  /-- `init()`. -/
  | init (thread : ℕ) (o : Opening)
  /-- `cleanup()`. -/
  | cleanup (thread : ℕ) (saves : Bool)
  /-- An operation that creates a column family. -/
  | use (thread : ℕ) (table : Utf16) (creates : Bool)

/-- A call, if a thread may make it: each of the `threadcount` threads has a client, which is initialized before it is
used and cleaned up at the end. -/
def step (threadcount : ℕ) (s : State) : Call → Option State
  | .init thread o =>
    if thread < threadcount ∧ thread ∉ s.live then
      match init s o with
      | (.returns, s) => some { s with live := thread :: s.live }
      | (_, s) => some s
    else none
  | .cleanup thread saves =>
    if thread ∈ s.live then some { (cleanup s saves).2 with live := s.live.erase thread } else none
  | .use thread table creates => if thread ∈ s.live then some (createColumnFamily s table creates).2 else none

/-- All is as it should be. -/
structure Consistent (s : State) : Prop where
  /-- `references` is the number of clients that are live. -/
  references : s.references = s.live.length
  /-- The database is open while there are any. -/
  isOpen : s.rocksDb.isSome ↔ 0 < s.references
  /-- `COLUMN_FAMILIES` holds handles of the open database only. -/
  handles : ∀ name handle, s.columnFamilies.lookup name = some handle → s.rocksDb = some handle

/-- If the call is a last `cleanup`, it writes the file of names, or there are no column families. -/
def SavesNames (s : State) : Call → Prop
  | .cleanup _ saves => s.references = 1 → saves = true ∨ s.columnFamilies.keys = []
  | _ => True

/-- What holds whatever fails. -/
structure Counted (threadcount : ℕ) (s : State) : Prop where
  /-- No thread has two clients. -/
  nodup : s.live.Nodup
  /-- The threads are numbered. -/
  lt : ∀ thread ∈ s.live, thread < threadcount
  /-- `references` is the number of clients that are live. -/
  references : s.references = s.live.length
  /-- The database is open while there are any. -/
  isOpen : s.rocksDb.isSome ↔ 0 < s.references
  /-- Then its options and its directory are set. -/
  dbOptions : s.rocksDb.isSome → s.dbOptions = true
  /-- Then its options and its directory are set. -/
  rocksDbDir : s.rocksDb.isSome → s.rocksDbDir.isSome

/-! ### What the calls do -/

/-- `COLUMN_FAMILIES` after a handle of the database `db` has been put in for each name. -/
def handlesOf (families : AList fun _ : Utf16 => ℕ) (names : List Utf16) (db : ℕ) : AList fun _ : Utf16 => ℕ :=
  names.foldl (fun families name => families.insert name db) families

theorem lookup_handlesOf {families : AList fun _ : Utf16 => ℕ} {names : List Utf16} {db handle : ℕ} {name : Utf16}
    (h : (handlesOf families names db).lookup name = some handle) : handle = db ∨ families.lookup name = some handle := by
  induction names generalizing families with
  | nil => exact .inr h
  | cons n names ih =>
    rcases ih h with rfl | hlookup
    · exact .inl rfl
    · by_cases hn : name = n
      · subst hn
        rw [AList.lookup_insert] at hlookup
        exact .inl (Option.some.inj hlookup).symm
      · rw [AList.lookup_insert_ne hn] at hlookup
        exact .inr hlookup

/-- Opening the database puts handles of it into `COLUMN_FAMILIES`, or throws, and then it has set no more than `dbOptions`. -/
theorem openWith_cases (names : Option (List Utf16)) (s : State) (o : Opening) :
    (∃ found, openWith names s o = (true, { s with
        dbOptions := true, columnFamilies := handlesOf s.columnFamilies found s.opened, rocksDb := some s.opened
        opened := s.opened + 1 })) ∨
      ∃ dbOptions, openWith names s o = (false, { s with dbOptions := dbOptions }) := by
  cases hdirectory : o.directory with
  | false => exact .inr ⟨s.dbOptions, by simp [openWith, hdirectory]⟩
  | true =>
    cases names with
    | none => exact .inr ⟨s.dbOptions, by simp [openWith, hdirectory]⟩
    | some found =>
      cases hopens : o.opens with
      | false => exact .inr ⟨true, by simp [openWith, hdirectory, hopens]⟩
      | true => exact .inl ⟨found, by simp [openWith, hdirectory, hopens, handlesOf]⟩

/-- `init` counts the client, and opens the database if it is not open; or it throws, and then only `rocksDbDir`,
`optionsFile` and `dbOptions` can have changed. -/
theorem init_cases (s : State) (o : Opening) :
    (s.rocksDb.isSome ∧ init s o = (.returns, { s with references := asInt (s.references + 1) })) ∨
      (s.rocksDb = none ∧ ∃ dir file found, init s o = (.returns, { s with
        rocksDbDir := some dir, optionsFile := file, dbOptions := true, columnFamilies := handlesOf s.columnFamilies found s.opened
        rocksDb := some s.opened, references := asInt (s.references + 1), opened := s.opened + 1 })) ∨
      (s.rocksDb = none ∧ ∃ result dir file dbOptions, result ≠ .returns ∧
        init s o = (result, { s with rocksDbDir := dir, optionsFile := file, dbOptions := dbOptions })) := by
  rw [init]
  split_ifs with hopen
  · exact .inl ⟨hopen, rfl⟩
  · rw [Option.not_isSome_iff_eq_none] at hopen
    refine .inr ?_
    cases hdir : o.dir with
    | none => exact .inr ⟨hopen, .nullPointer, s.rocksDbDir, s.optionsFile, s.dbOptions, by decide, rfl⟩
    | some dir =>
      have hnames : ∀ s, ∃ names, openDatabase s o = openWith names s o := by
        intro s
        rw [openDatabase]
        split_ifs
        · exact ⟨_, rfl⟩
        · exact ⟨_, rfl⟩
      dsimp only
      generalize hs₁ : ({ s with rocksDbDir := some dir, optionsFile := o.optionsFile.or s.optionsFile } : State) = s₁
      obtain ⟨names, hnames⟩ := hnames s₁
      rw [hnames]
      rcases openWith_cases names s₁ o with ⟨found, h⟩ | ⟨dbOptions, h⟩
      · rw [h]
        subst hs₁
        exact .inl ⟨hopen, dir, o.optionsFile.or s.optionsFile, found, rfl⟩
      · rw [h]
        subst hs₁
        exact .inr ⟨hopen, .dbException, some dir, o.optionsFile.or s.optionsFile, dbOptions, by decide, rfl⟩

/-- The last client's `cleanup` closes the database, and clears `COLUMN_FAMILIES` if the file is written. -/
theorem cleanup_last {threadcount : ℕ} {s : State} (h : Counted threadcount s) (hlast : s.references = 1) (saves : Bool) :
    (cleanup s saves).2 = { s with
      rocksDb := none, dbOptions := false, references := 0
      columnFamilies := if saves then ∅ else s.columnFamilies
      rocksDbDir := if saves then none else s.rocksDbDir } := by
  have hopen : s.rocksDb.isSome := h.isOpen.mpr (by omega)
  obtain ⟨db, hdb⟩ := Option.isSome_iff_exists.mp hopen
  obtain ⟨dir, hdir⟩ := Option.isSome_iff_exists.mp (h.rocksDbDir hopen)
  have hoptions := h.dbOptions hopen
  cases saves <;> simp [cleanup, hlast, tearDown, hdb, hoptions, hdir, asInt]

/-- Any other only counts its client off. -/
theorem cleanup_other {s : State} (hlast : s.references ≠ 1) (saves : Bool) :
    (cleanup s saves).2 = { s with references := asInt (s.references - 1) } := by
  rw [cleanup, if_neg hlast]

/-- A column family is created in the open database, or nothing happens. -/
theorem createColumnFamily_cases (s : State) (name : Utf16) (creates : Bool) :
    (createColumnFamily s name creates).2 = s ∨ ∃ db, s.rocksDb = some db ∧
      (createColumnFamily s name creates).2 = { s with columnFamilies := s.columnFamilies.insert name db } := by
  by_cases hname : name ∈ s.columnFamilies
  · exact .inl (by rw [createColumnFamily, if_pos hname])
  · cases hdb : s.rocksDb with
    | none => exact .inl (by simp only [createColumnFamily, if_neg hname, hdb])
    | some db =>
      cases creates with
      | false => exact .inl (by simp [createColumnFamily, hname, hdb])
      | true => exact .inr ⟨db, rfl, by simp [createColumnFamily, hname, hdb]⟩

/-! ### What holds whatever fails -/

theorem counted_new (threadcount : ℕ) : Counted threadcount .new := by
  constructor <;> simp [State.new]

/-- There are no more clients than threads. -/
theorem Counted.length_le {threadcount : ℕ} {s : State} (h : Counted threadcount s) : s.live.length ≤ threadcount := by
  have hsub : s.live ⊆ List.range threadcount := fun thread ht => List.mem_range.mpr (h.lt thread ht)
  have hle := (List.subperm_of_subset h.nodup hsub).length_le
  rwa [List.length_range] at hle

/-- What a step does: a thread gets a client, or tries to; the last client or another is cleaned up; or a column family
is created. -/
theorem step_cases {threadcount : ℕ} {s s' : State} {l : Call} (hs : Counted threadcount s) (h : step threadcount s l = some s') :
    (∃ thread o s₁, l = .init thread o ∧ thread < threadcount ∧ thread ∉ s.live ∧ init s o = (.returns, s₁) ∧
        s' = { s₁ with live := thread :: s.live }) ∨
      (∃ thread o dir file dbOptions, l = .init thread o ∧ s.rocksDb = none ∧
        s' = { s with rocksDbDir := dir, optionsFile := file, dbOptions := dbOptions }) ∨
      (∃ thread saves, l = .cleanup thread saves ∧ s.live = [thread] ∧
        s' = { s with
          rocksDb := none, dbOptions := false, references := 0, live := []
          columnFamilies := if saves then ∅ else s.columnFamilies
          rocksDbDir := if saves then none else s.rocksDbDir }) ∨
      (∃ thread saves, l = .cleanup thread saves ∧ thread ∈ s.live ∧ 1 < s.references ∧
        s' = { s with references := asInt (s.references - 1), live := s.live.erase thread }) ∨
      (∃ thread table creates, l = .use thread table creates ∧ (s' = s ∨ ∃ db, s.rocksDb = some db ∧
        s' = { s with columnFamilies := s.columnFamilies.insert table db })) := by
  cases l with
  | init thread o =>
    simp only [step] at h
    split_ifs at h with hthread
    rcases init_cases s o with ⟨-, hinit⟩ | ⟨-, dir, file, found, hinit⟩ | ⟨hopen, result, dir, file, dbOptions, hne, hinit⟩
    · rw [hinit] at h
      exact .inl ⟨thread, o, _, rfl, hthread.1, hthread.2, hinit, (Option.some.inj h).symm⟩
    · rw [hinit] at h
      exact .inl ⟨thread, o, _, rfl, hthread.1, hthread.2, hinit, (Option.some.inj h).symm⟩
    · rw [hinit] at h
      refine .inr (.inl ⟨thread, o, dir, file, dbOptions, rfl, hopen, ?_⟩)
      cases result with
      | returns => exact absurd rfl hne
      | dbException => exact (Option.some.inj h).symm
      | nullPointer => exact (Option.some.inj h).symm
  | cleanup thread saves =>
    simp only [step] at h
    split_ifs at h with hthread
    obtain rfl := Option.some.inj h
    by_cases hlast : s.references = 1
    · have hlength : s.live.length = 1 := by
        have := hs.references
        omega
      obtain ⟨t, ht⟩ := List.length_eq_one_iff.mp hlength
      obtain rfl : thread = t := by
        rw [ht] at hthread
        exact List.mem_singleton.mp hthread
      refine .inr (.inr (.inl ⟨thread, saves, rfl, ht, ?_⟩))
      rw [cleanup_last hs hlast, ht]
      simp
    · have hpos : 0 < s.live.length := List.length_pos_of_mem hthread
      have := hs.references
      refine .inr (.inr (.inr (.inl ⟨thread, saves, rfl, hthread, by omega, ?_⟩)))
      rw [cleanup_other hlast]
  | use thread table creates =>
    simp only [step] at h
    split_ifs at h with hthread
    obtain rfl := Option.some.inj h
    exact .inr (.inr (.inr (.inr ⟨thread, table, creates, rfl, createColumnFamily_cases s table creates⟩)))

theorem counted_step {threadcount : ℕ} (hcount : threadcount < 2 ^ 31) {s s' : State} {l : Call} (hs : Counted threadcount s)
    (h : step threadcount s l = some s') : Counted threadcount s' := by
  have hle := hs.length_le
  have hlive := hs.references
  rcases step_cases hs h with ⟨thread, o, s₁, -, hlt, hnew, hinit, rfl⟩ | ⟨thread, o, dir, file, dbOptions, -, hclosed, rfl⟩ |
    ⟨thread, saves, -, hone, rfl⟩ | ⟨thread, saves, -, hmem, hmore, rfl⟩ | ⟨thread, table, creates, -, rfl | ⟨db, hdb, rfl⟩⟩
  · have hnodup : (thread :: s.live).Nodup := List.nodup_cons.mpr ⟨hnew, hs.nodup⟩
    have hall : ∀ t ∈ thread :: s.live, t < threadcount := List.forall_mem_cons.mpr ⟨hlt, hs.lt⟩
    have hmore : asInt (s.references + 1) = ((thread :: s.live).length : ℕ) := by
      have hlen : (thread :: s.live).length ≤ threadcount := by
        have hsub : thread :: s.live ⊆ List.range threadcount := fun t ht => List.mem_range.mpr (hall t ht)
        have hlen := (List.subperm_of_subset hnodup hsub).length_le
        rwa [List.length_range] at hlen
      rw [List.length_cons] at hlen ⊢
      rw [asInt_of_fits (by unfold FitsInt; omega)]
      omega
    have hpos : 0 < asInt (s.references + 1) := by
      rw [hmore, List.length_cons]
      omega
    rcases init_cases s o with ⟨hopen, h₁⟩ | ⟨-, dir, file, found, h₁⟩ | ⟨-, result, dir, file, dbOptions, hne, h₁⟩
    · obtain ⟨-, rfl⟩ := Prod.mk.inj (hinit.symm.trans h₁)
      exact ⟨hnodup, hall, hmore, iff_of_true hopen hpos, hs.dbOptions, hs.rocksDbDir⟩
    · obtain ⟨-, rfl⟩ := Prod.mk.inj (hinit.symm.trans h₁)
      exact ⟨hnodup, hall, hmore, iff_of_true rfl hpos, fun _ => rfl, fun _ => rfl⟩
    · obtain ⟨rfl, -⟩ := Prod.mk.inj (hinit.symm.trans h₁)
      exact absurd rfl hne
  · refine ⟨hs.nodup, hs.lt, hlive, hs.isOpen, ?_, ?_⟩
    · simp [hclosed]
    · simp [hclosed]
  · refine ⟨List.nodup_nil, ?_, rfl, ?_, ?_, ?_⟩ <;> simp
  · have hfewer : asInt (s.references - 1) = s.live.length - 1 := by
      rw [asInt_of_fits (by unfold FitsInt; omega), hlive]
    refine ⟨hs.nodup.erase thread, fun t ht => hs.lt t (List.mem_of_mem_erase ht), ?_, ?_, hs.dbOptions, hs.rocksDbDir⟩
    · simp only [hfewer, List.length_erase_of_mem hmem]
      omega
    · have hpos : 0 < asInt (s.references - 1) := by omega
      exact iff_of_true (hs.isOpen.mpr (by omega)) hpos
  · exact hs
  · exact ⟨hs.nodup, hs.lt, hlive, hs.isOpen, hs.dbOptions, hs.rocksDbDir⟩

/-! ### The handles -/

/-- A step keeps everything as it should be just when a last `cleanup` does not leave handles behind. -/
theorem consistent_step {threadcount : ℕ} (hcount : threadcount < 2 ^ 31) {s s' : State} {l : Call} (hs : Counted threadcount s)
    (hgood : Consistent s) (h : step threadcount s l = some s') : Consistent s' ↔ SavesNames s l := by
  have hs' := counted_step hcount hs h
  suffices hiff : (∀ name handle, s'.columnFamilies.lookup name = some handle → s'.rocksDb = some handle) ↔ SavesNames s l from
    ⟨fun hc => hiff.mp hc.handles, fun hl => ⟨hs'.references, hs'.isOpen, hiff.mpr hl⟩⟩
  have hclosed : s.rocksDb = none → ∀ name handle, s.columnFamilies.lookup name ≠ some handle := by
    intro hnone name handle hlookup
    have hopen := hgood.handles name handle hlookup
    rw [hnone] at hopen
    cases hopen
  rcases step_cases hs h with ⟨thread, o, s₁, rfl, -, -, hinit, rfl⟩ | ⟨thread, o, dir, file, dbOptions, rfl, hnone, rfl⟩ |
    ⟨thread, saves, rfl, hone, rfl⟩ | ⟨thread, saves, rfl, hmem, hmore, rfl⟩ | ⟨thread, table, creates, rfl, rfl | ⟨db, hdb, rfl⟩⟩
  · refine iff_of_true ?_ trivial
    rcases init_cases s o with ⟨-, h₁⟩ | ⟨hnone, dir, file, found, h₁⟩ | ⟨-, result, dir, file, dbOptions, hne, h₁⟩
    · obtain ⟨-, rfl⟩ := Prod.mk.inj (hinit.symm.trans h₁)
      exact hgood.handles
    · obtain ⟨-, rfl⟩ := Prod.mk.inj (hinit.symm.trans h₁)
      intro name handle hlookup
      rcases lookup_handlesOf hlookup with rfl | hold
      · rfl
      · exact absurd hold (hclosed hnone name handle)
    · obtain ⟨rfl, -⟩ := Prod.mk.inj (hinit.symm.trans h₁)
      exact absurd rfl hne
  · exact iff_of_true hgood.handles trivial
  · have hreferences : s.references = 1 := by
      rw [hgood.references, hone]
      rfl
    simp only [SavesNames, hreferences, true_implies]
    cases saves with
    | true => exact iff_of_true (fun name handle hlookup => nomatch hlookup) (.inl rfl)
    | false =>
      constructor
      · intro hhandles
        refine .inr (List.eq_nil_iff_forall_not_mem.mpr fun name hname => ?_)
        obtain ⟨handle, hlookup⟩ := Option.isSome_iff_exists.mp (AList.lookup_isSome.mpr (AList.mem_keys.mpr hname))
        exact nomatch hhandles name handle hlookup
      · rintro (hsaves | hempty) name handle hlookup
        · cases hsaves
        · have hname : name ∈ s.columnFamilies.keys := AList.mem_keys.mp (AList.lookup_isSome.mp (by simpa using Option.isSome_iff_exists.mpr ⟨handle, hlookup⟩))
          rw [hempty] at hname
          cases hname
  · have hne : s.references ≠ 1 := by omega
    exact iff_of_true hgood.handles fun hlast => absurd hlast hne
  · exact iff_of_true hgood.handles trivial
  · refine iff_of_true ?_ trivial
    intro name handle hlookup
    by_cases hname : name = table
    · subst hname
      rw [AList.lookup_insert] at hlookup
      exact hdb.trans hlookup
    · rw [AList.lookup_insert_ne hname] at hlookup
      exact hgood.handles name handle hlookup

theorem consistent_new : Consistent .new := by
  constructor <;> simp [State.new]

/-- **In any run of `init` and `cleanup`** all is as it should be, in every state, just when each last `cleanup` writes the
file of names or finds no column families. -/
theorem lifecycle_iff {threadcount : ℕ} (hcount : threadcount < 2 ^ 31) {ls : List Call} {s : State}
    (h : exec (step threadcount) .new ls = some s) :
    Always (step threadcount) Consistent .new ls ↔ Meets (step threadcount) SavesNames .new ls :=
  always_iff_meets (fun _ _ _ hs h => counted_step hcount hs h) (fun _ _ _ hs hgood h => consistent_step hcount hs hgood h)
    (counted_new threadcount) consistent_new h

/-- A database that is opened without column families. -/
def freshOpening : Opening := ⟨some [0x64], none, true, none, some [], true⟩

/-- One client makes a column family, and its `cleanup` can write the file of names if `saves`. -/
def oneClient (saves : Bool) : List Call := [.init 0 freshOpening, .use 0 [0x74] true, .cleanup 0 saves]

theorem lifecycle_iff_oneClient :
    ∃ s, exec (step 1) .new (oneClient true) = some s ∧ Always (step 1) Consistent .new (oneClient true) := by
  have hexec : (exec (step 1) .new (oneClient true)).isSome := by decide
  obtain ⟨s, hs⟩ := Option.isSome_iff_exists.mp hexec
  refine ⟨s, hs, (lifecycle_iff (by decide) hs).mpr ?_⟩
  refine ⟨trivial, fun s₁ h₁ => ⟨trivial, fun s₂ h₂ => ⟨fun _ => .inl rfl, fun s₃ h₃ => trivial⟩⟩⟩

/-- If the file cannot be written, the handle stays. -/
theorem not_lifecycle :
    ¬ ∀ (threadcount : ℕ) (ls : List Call) (s : State), threadcount < 2 ^ 31 → exec (step threadcount) .new ls = some s →
      Always (step threadcount) Consistent .new ls := by
  intro h
  have hleft : ∃ s, exec (step 1) .new (oneClient false) = some s ∧ s.columnFamilies.lookup [0x74] = some 0 ∧ s.rocksDb = none := ⟨_, rfl, rfl, rfl⟩
  obtain ⟨s, hexec, hlookup, hnone⟩ := hleft
  have hgood := (h 1 (oneClient false) s (by decide) hexec).last hexec
  have hopen := hgood.handles _ _ hlookup
  rw [hnone] at hopen
  cases hopen

end YcsbIvs.RocksDB.Lifecycle
