import YcsbIvs.FoundationDB.Client
import YcsbIvs.Foundations.SortedMap

/-!
# Scanning a table

All tables are in one key space. `scan` reads the range from the key of the first row, `dbName:table:startkey`, to `table;`. The end
does not begin with the name of the database, so the range does not end where the table does: rows of other tables are in it, or rows of the
table are past it, or its end comes before its beginning. A `recordcount` of zero or less is passed on as no limit.

The rows are in order of the packed tuples of their keys. `Layer` is what `Tuple.from(s).pack()` gives: a string of bytes for each string, which
sort as the strings do in UTF-8.

**A scan returns the first rows of its table just when it is not disturbed** (`scansRight_iff`): no row that is not both of the table and in the
range comes before as many as are asked for, and none of these lacks a field that is asked for.
-/

namespace YcsbIvs.FoundationDB

open YcsbIvs.Foundations YcsbIvs.Core

/-- The packed tuple of one string. -/
structure Layer where
  /-- `Tuple.from(s).pack()`. -/
  pack : Utf16 → Bytes
  /-- Packed tuples sort as the strings do in UTF-8. -/
  pack_lt_iff : ∀ s t, pack s < pack t ↔ encode s < encode t

/-- A row of the store, and what it was written as. -/
structure StoredRow where
  /-- The table. -/
  table : Utf16
  /-- The key. -/
  key : Utf16
  /-- The tuple: names and strings, as they come back from UTF-8. -/
  fields : List (Utf16 × Utf16)
  deriving DecidableEq

/-- The store: rows by their packed keys. -/
abbrev Store := SortedMap Bytes StoredRow

/-- What the transactions of the client do to a row. -/
inductive Write where
  /-- `tr.set`, of `batchInsert` and `update`. -/
  | set (table key : Utf16) (fields : List (Utf16 × Utf16))
  /-- `tr.clear`, of `delete`. -/
  | clear (table key : Utf16)

/-- The packed key of a row. -/
def Layer.rowKey (layer : Layer) (config : Config) (table key : Utf16) : Bytes := layer.pack (getRowKey config.dbName table key)

/-- The store after a write. -/
def Write.apply (layer : Layer) (config : Config) (store : Store) : Write → Store
  | set table key fields => store.put (layer.rowKey config table key) ⟨table, key, fields.map fun f => (scrub f.1, scrub f.2)⟩
  | clear table key => store.delete (layer.rowKey config table key)

/-- What the client has written, from an empty store. -/
def contents (layer : Layer) (config : Config) (writes : List Write) : Store :=
  writes.foldl (Write.apply layer config) .empty

/-- `getEndRowKey(table)`. -/
def getEndRowKey (table : Utf16) : Utf16 := table ++ [0x3B]

/-- `tr.getRange(begin, end, limit)`: a limit of zero is none. -/
def getRange (store : Store) (first last : Bytes) (limit : ℤ) : List (Bytes × StoredRow) :=
  let range := store.entries.filter fun e => first ≤ e.1 && e.1 < last
  if limit = 0 then range else range.take limit.toNat

/-- `convTupleToMap(tuple, fields, result)`, into an empty map. -/
def convTupleToMap (tuple : List (Utf16 × Utf16)) (fields : Option (List Utf16)) : Status × Values Utf16 :=
  let result : Values Utf16 := tuple.foldl (fun result v => result.insert v.1 (.string (.ofString v.2))) ∅
  (if (fields.getD []).all fun field => (result.lookup field).isSome then .ok else .notFound, result)

/-- A map that `scan` returns, and the entry it was made of. -/
structure Scanned where
  /-- The entry. -/
  entry : Bytes × StoredRow
  /-- The map. -/
  map : Values Utf16

/-- The loop of `scan`. -/
def scanLoop (fields : Option (List Utf16)) : List (Bytes × StoredRow) → Status × List Scanned
  | [] => (.ok, [])
  | e :: entries =>
    match convTupleToMap e.2.fields fields with
    | (.ok, map) =>
      let (status, result) := scanLoop fields entries
      (status, ⟨e, map⟩ :: result)
    | _ => (.error, [])

/-- What the calls of the driver come to. -/
structure ScanCalls where
  /-- Reading the range throws. -/
  fails : Bool
  /-- Reading a range throws if its end is before its beginning. Else such a range is empty. -/
  refusesInverted : Bool

/-- `scan(table, startkey, recordcount, fields, result)`. -/
def scan (layer : Layer) (config : Config) (calls : ScanCalls) (store : Store) (table startkey : Utf16) (recordcount : ℤ)
    (fields : Option (List Utf16)) : Status × List Scanned :=
  let startRowKey := layer.rowKey config table startkey
  let endRowKey := layer.pack (getEndRowKey table)
  if calls.fails || (calls.refusesInverted && endRowKey < startRowKey) then (.error, [])
  else scanLoop fields (getRange store startRowKey endRowKey (if recordcount > 0 then recordcount else 0))

/-! ### The order of the rows -/

section

variable {layer : Layer} {config : Config} {table key key' : Utf16}

theorem encode_getRowKey (db table key : Utf16) : encode (getRowKey db table key) = encode (getRowKey db table []) ++ encode key := by
  have h := encode_append (db ++ 0x3A :: table) (c := 0x3A) ⟨rfl, rfl⟩ key
  simpa [getRowKey] using h

/-- The rows of a table are in order of their keys. -/
theorem rowKey_lt_iff : layer.rowKey config table key < layer.rowKey config table key' ↔ encode key < encode key' := by
  rw [Layer.rowKey, Layer.rowKey, layer.pack_lt_iff, encode_getRowKey, encode_getRowKey config.dbName table key', append_lt_append_left_iff]

end

/-- Every row is stored under its key. -/
theorem contents_rowKey (layer : Layer) (config : Config) (writes : List Write) :
    ∀ e ∈ (contents layer config writes).entries, e.1 = layer.rowKey config e.2.table e.2.key := by
  have hstep : ∀ (store : Store) (w : Write), (∀ e ∈ store.entries, e.1 = layer.rowKey config e.2.table e.2.key) →
      ∀ e ∈ (w.apply layer config store).entries, e.1 = layer.rowKey config e.2.table e.2.key := by
    intro store w h e he
    cases w with
    | set table key fields =>
      rcases mem_putEntry he with rfl | he
      · rfl
      · exact h e he
    | clear table key => exact h e (List.mem_filter.mp he).1
  have hrun : ∀ (writes : List Write) (store : Store), (∀ e ∈ store.entries, e.1 = layer.rowKey config e.2.table e.2.key) →
      ∀ e ∈ (writes.foldl (Write.apply layer config) store).entries, e.1 = layer.rowKey config e.2.table e.2.key := by
    intro writes
    induction writes with
    | nil => exact fun store h => h
    | cons w writes ih => exact fun store h => ih _ (hstep store w h)
  exact hrun writes .empty fun e he => absurd he List.not_mem_nil

/-! ### What a scan is to return -/

/-- The entry is in the range that `scan` reads. -/
def inRange (layer : Layer) (config : Config) (table startkey : Utf16) (e : Bytes × StoredRow) : Bool :=
  layer.rowKey config table startkey ≤ e.1 && e.1 < layer.pack (getEndRowKey table)

/-- It is a row of the table whose key is not before `startkey`. -/
def ofTable (table startkey : Utf16) (e : Bytes × StoredRow) : Bool := e.2.table = table && encode startkey ≤ encode e.2.key

/-- The rows that can be returned, in order of their keys. -/
def available (store : Store) (table startkey : Utf16) : List (Bytes × StoredRow) := store.entries.filter (ofTable table startkey)

/-- The scan returns the first `recordcount` of them, or all that there are. -/
def ScansRight (store : Store) (table startkey : Utf16) (recordcount : ℤ) (r : Status × List Scanned) : Prop :=
  r.1 = .ok ∧ r.2.map Scanned.entry = (available store table startkey).take recordcount.toNat

/-- The row has the fields that are asked for. -/
def HasFields (fields : Option (List Utf16)) (e : Bytes × StoredRow) : Prop := ∀ f ∈ fields.getD [], f ∈ e.2.fields.map Prod.fst

/-- Nothing disturbs the scan. -/
structure Undisturbed (layer : Layer) (config : Config) (calls : ScanCalls) (store : Store) (table startkey : Utf16) (recordcount : ℤ)
    (fields : Option (List Utf16)) : Prop where
  /-- The range can be read. -/
  reads : calls.fails = false
  /-- It is not refused. -/
  inOrder : calls.refusesInverted = true → layer.rowKey config table startkey ≤ layer.pack (getEndRowKey table)
  /-- If no rows are asked for there are none in it. -/
  limited : recordcount ≤ 0 → ∀ e ∈ store.entries, inRange layer config table startkey e = false
  /-- Else a row that is just in the range, or just of the table, has as many before it that are both as are asked for. -/
  before : 0 < recordcount → ∀ pre e post, store.entries = pre ++ e :: post →
    inRange layer config table startkey e ≠ ofTable table startkey e →
      recordcount.toNat ≤ (pre.filter fun e => inRange layer config table startkey e && ofTable table startkey e).length
  /-- The rows to return have the fields. -/
  fields : ∀ e ∈ (available store table startkey).take recordcount.toNat, HasFields fields e

/-- The rows that can be returned are in order of their keys. -/
theorem available_sorted (layer : Layer) (config : Config) (writes : List Write) (table startkey : Utf16) :
    (available (contents layer config writes) table startkey).Pairwise fun a b => encode a.2.key < encode b.2.key := by
  have hkey := contents_rowKey layer config writes
  refine ((contents layer config writes).sorted.filter _).imp_of_mem fun {a b} ha hb hlt => ?_
  have htable : ∀ e ∈ available (contents layer config writes) table startkey, e ∈ (contents layer config writes).entries ∧ e.2.table = table := by
    intro e he
    obtain ⟨hmem, hof⟩ := List.mem_filter.mp he
    rw [ofTable, Bool.and_eq_true, decide_eq_true_eq] at hof
    exact ⟨hmem, hof.1⟩
  rw [hkey a (htable a ha).1, hkey b (htable b hb).1, (htable a ha).2, (htable b hb).2] at hlt
  exact rowKey_lt_iff.mp hlt

/-! ### The loop -/

theorem convTupleToMap_ok {tuple : List (Utf16 × Utf16)} {fields : Option (List Utf16)} :
    (convTupleToMap tuple fields).1 = .ok ↔ ∀ f ∈ fields.getD [], f ∈ tuple.map Prod.fst := by
  have hmem : ∀ (tuple : List (Utf16 × Utf16)) (result : Values Utf16) (f : Utf16),
      f ∈ tuple.foldl (fun result v => result.insert v.1 (.string (.ofString v.2))) result ↔ f ∈ tuple.map Prod.fst ∨ f ∈ result := by
    intro tuple
    induction tuple with
    | nil => simp
    | cons v tuple ih =>
      intro result f
      rw [List.foldl_cons, ih, AList.mem_insert, List.map_cons, List.mem_cons]
      tauto
  rw [convTupleToMap]
  dsimp only
  split_ifs with hall
  · refine iff_of_true rfl fun f hf => ?_
    have hfound := AList.lookup_isSome.mp (List.all_eq_true.mp hall f hf)
    exact ((hmem tuple ∅ f).mp hfound).resolve_right (AList.notMem_empty f)
  · refine iff_of_false (by decide) fun h => hall (List.all_eq_true.mpr fun f hf => ?_)
    exact AList.lookup_isSome.mpr ((hmem tuple ∅ f).mpr (.inl (h f hf)))

/-- The loop returns a map for each entry, if all have the fields. -/
theorem scanLoop_ok {fields : Option (List Utf16)} {entries : List (Bytes × StoredRow)} :
    ((scanLoop fields entries).1 = .ok ↔ ∀ e ∈ entries, HasFields fields e) ∧
      ((scanLoop fields entries).1 = .ok → (scanLoop fields entries).2.map Scanned.entry = entries) := by
  induction entries with
  | nil => exact ⟨iff_of_true rfl fun e he => absurd he List.not_mem_nil, fun _ => rfl⟩
  | cons e entries ih =>
    rw [List.forall_mem_cons, ← ih.1]
    rw [scanLoop]
    split
    · next map hconv =>
      have hfields : HasFields fields e := convTupleToMap_ok.mp (congrArg Prod.fst hconv)
      exact ⟨⟨fun h => ⟨hfields, h⟩, And.right⟩, fun h => congrArg (e :: ·) (ih.2 h)⟩
    · next hne =>
      have hfields : ¬ HasFields fields e := fun h => hne _ (Prod.ext (convTupleToMap_ok.mpr h) rfl)
      exact ⟨iff_of_false (by decide) fun h => hfields h.1, fun h => by cases h⟩

/-- The entries that are read are the ones to return just if what is in the range and what is of the table begins alike. -/
theorem getRange_eq_iff {layer : Layer} {config : Config} {store : Store} {table startkey : Utf16} {recordcount : ℤ} :
    getRange store (layer.rowKey config table startkey) (layer.pack (getEndRowKey table)) (if recordcount > 0 then recordcount else 0) =
        (available store table startkey).take recordcount.toNat ↔
      (recordcount ≤ 0 → ∀ e ∈ store.entries, inRange layer config table startkey e = false) ∧
        (0 < recordcount → ∀ pre e post, store.entries = pre ++ e :: post →
          inRange layer config table startkey e ≠ ofTable table startkey e →
            recordcount.toNat ≤ (pre.filter fun e => inRange layer config table startkey e && ofTable table startkey e).length) := by
  have hrange : (store.entries.filter fun e => layer.rowKey config table startkey ≤ e.1 && e.1 < layer.pack (getEndRowKey table)) =
      store.entries.filter (inRange layer config table startkey) := rfl
  rw [getRange, hrange]
  by_cases hpos : 0 < recordcount
  · rw [if_pos hpos, if_neg hpos.ne', available, take_filter_eq_iff]
    exact ⟨fun h => ⟨fun hle => absurd hpos (not_lt.mpr hle), fun _ => h⟩, fun h => h.2 hpos⟩
  · rw [if_neg hpos, if_pos rfl, Int.toNat_of_nonpos (not_lt.mp hpos), List.take_zero, List.filter_eq_nil_iff]
    simp only [Bool.not_eq_true]
    exact ⟨fun h => ⟨fun _ => h, fun hpos' => absurd hpos' hpos⟩, fun h => h.1 (not_lt.mp hpos)⟩

/-- **A scan returns the first rows of its table just when nothing disturbs it.** -/
theorem scansRight_iff (layer : Layer) (config : Config) (writes : List Write) (calls : ScanCalls) (table startkey : Utf16) (recordcount : ℤ)
    (fields : Option (List Utf16)) :
    ScansRight (contents layer config writes) table startkey recordcount
        (scan layer config calls (contents layer config writes) table startkey recordcount fields) ↔
      Undisturbed layer config calls (contents layer config writes) table startkey recordcount fields := by
  generalize hstore : contents layer config writes = store
  rw [ScansRight, scan]
  by_cases hfails : (calls.fails || (calls.refusesInverted && decide (layer.pack (getEndRowKey table) < layer.rowKey config table startkey))) = true
  · rw [if_pos hfails]
    refine iff_of_false (fun h => by cases h.1) fun h => ?_
    rw [Bool.or_eq_true, Bool.and_eq_true, decide_eq_true_eq, h.reads] at hfails
    obtain ⟨hrefuses, hlt⟩ := hfails.resolve_left (by decide)
    exact absurd hlt (not_lt.mpr (h.inOrder hrefuses))
  · rw [if_neg hfails]
    rw [Bool.or_eq_true, Bool.and_eq_true, decide_eq_true_eq, not_or, not_and, not_lt, Bool.not_eq_true] at hfails
    obtain ⟨hfields, hentries⟩ := @scanLoop_ok fields
      (getRange store (layer.rowKey config table startkey) (layer.pack (getEndRowKey table)) (if recordcount > 0 then recordcount else 0))
    constructor
    · rintro ⟨hok, heq⟩
      rw [hentries hok] at heq
      have hdist := getRange_eq_iff.mp heq
      exact ⟨hfails.1, hfails.2, hdist.1, hdist.2, fun e he => hfields.mp hok e (heq ▸ he)⟩
    · intro h
      have heq := getRange_eq_iff.mpr ⟨h.limited, h.before⟩
      have hok := hfields.mpr fun e he => h.fields e (heq ▸ he)
      exact ⟨hok, (hentries hok).trans heq⟩

/-! ### A row of another table -/

/-- The bytes with `00 FF` for each `00`. -/
def escape : Bytes → Bytes
  | [] => []
  | b :: bs => if b = 0 then 0 :: 0xFF :: escape bs else b :: escape bs

/-- Bytes that are escaped and then ended with `00` are ordered as they were. -/
theorem escape_strictMono : StrictMono fun bs => escape bs ++ [0] := by
  have hpos : ∀ b : UInt8, b ≠ 0 → 0 < b := fun b hb => lt_of_le_of_ne (UInt8.le_iff_toNat_le.mpr (Nat.zero_le _)) (Ne.symm hb)
  intro a b hab
  induction a generalizing b with
  | nil =>
    cases b with
    | nil => exact absurd hab (lt_irrefl _)
    | cons y b =>
      simp only [escape]
      split_ifs with hy
      · exact List.cons_lt_cons_iff.mpr (.inr ⟨rfl, List.nil_lt_cons _ _⟩)
      · exact List.cons_lt_cons_iff.mpr (.inl (hpos y hy))
  | cons x a ih =>
    cases b with
    | nil => exact absurd hab (List.not_lt_nil _)
    | cons y b =>
      rcases List.cons_lt_cons_iff.mp hab with hxy | ⟨rfl, hrest⟩
      · have hy : y ≠ 0 := fun hy => absurd hxy (hy ▸ not_lt.mpr (UInt8.le_iff_toNat_le.mpr (Nat.zero_le _)))
        simp only [escape, if_neg hy]
        split_ifs with hx
        · exact List.cons_lt_cons_iff.mpr (.inl (hpos y hy))
        · exact List.cons_lt_cons_iff.mpr (.inl hxy)
      · simp only [escape]
        split_ifs with hx
        · exact List.cons_lt_cons_iff.mpr (.inr ⟨rfl, List.cons_lt_cons_iff.mpr (.inr ⟨rfl, ih hrest⟩)⟩)
        · exact List.cons_lt_cons_iff.mpr (.inr ⟨rfl, ih hrest⟩)

/-- A packed string: `02`, its UTF-8 with each `00` escaped, and `00`. -/
def tupleLayer : Layer where
  pack s := 0x02 :: (escape (encode s) ++ [0])
  pack_lt_iff s t := by
    rw [List.cons_lt_cons_iff]
    simpa using escape_strictMono.lt_iff_lt

/-- A scan of an empty table returns a row of another one, whose name comes after it. -/
theorem not_scansRight :
    ¬ ∀ (layer : Layer) (config : Config) (writes : List Write) (table startkey : Utf16) (recordcount : ℤ) (fields : Option (List Utf16)),
      ScansRight (contents layer config writes) table startkey recordcount
        (scan layer config ⟨false, false⟩ (contents layer config writes) table startkey recordcount fields) := by
  intro h
  obtain ⟨-, hrows⟩ := h tupleLayer ⟨[0x44], 0⟩ [.set [0x75] [0x6B] []] [0x74] [] 1 none
  exact absurd (congrArg List.length hrows) (by decide)

end YcsbIvs.FoundationDB
