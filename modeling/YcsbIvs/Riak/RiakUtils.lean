import YcsbIvs.Foundations.Runs
import YcsbIvs.RocksDB.Codec
import Mathlib.Algebra.BigOperators.Group.List.Basic

/-!
# The record codec of the Riak binding

`RiakUtils` keeps a record in the format that the RocksDB binding has too: for each field the length of its name, the name in UTF-8, the length of
its value and the value, lengths in four bytes (`serializeTable`). It reads one back from a stream (`deserializeTable`): a read gives at most as many bytes as
are left, and keeps in its buffer what was there behind them. A length below zero is an exception, and every exception
becomes an `IllegalStateException`.

The loop ends on any bytes (`deserializeTable_ne_nonTermination`). **What `serializeTable` writes, `createResultHashMap` reads back field for
field**, restricted to the fields asked for (`createResultHashMap_serializeTable`).
-/

namespace YcsbIvs.Riak

open YcsbIvs.Foundations YcsbIvs.Core
open YcsbIvs.RocksDB (Name IterationOrder entryBytes encodeRecord encodeRecord_cons length_encodeRecord_ge selects serializeLoop serializeValues
  serializeValues_eq)

/-! ### Writing -/

/-- `toBytes(anInteger)`. -/
def toBytes (anInteger : ℤ) : Bytes := putInt anInteger

/-- `serializeTable(aTable)`: the bytes, and the map with its iterators used up. It writes the fields as the RocksDB binding does. -/
def serializeTable (order : IterationOrder) (aTable : Values Name) : Except Throwable (Bytes × Values Name) := serializeValues order aTable

/-- How long a record is as bytes. -/
def encodedLength (entries : List (Σ _ : Name, ByteIterator)) : ℕ :=
  (entries.map fun e => 8 + e.1.getBytes.length + (e.2.contents.getD []).length).sum

/-! ### Reading -/

/-- What reading a record throws. -/
inductive ReadError where
  /-- `IllegalStateException`. -/
  | illegalState
  /-- No exception: a loop that does not end. -/
  | nonTermination
  deriving DecidableEq, Repr

/-- `fromBytes(aByteArray)`: it throws if there are not four bytes. -/
def fromBytes : Bytes → Except ReadError ℤ
  | [b₀, b₁, b₂, b₃] => .ok (getInt b₀ b₁ b₂ b₃)
  | _ => .error .illegalState

/-- `anInputStream.read(buffer)`, with what is left in the stream: the buffer, and what is left after it. -/
def read (buffer rest : Bytes) : Bytes × Bytes := (rest.take buffer.length ++ buffer.drop rest.length, rest.drop buffer.length)

/-- `new byte[length]`. -/
def newArray (length : ℤ) : Except ReadError Bytes :=
  if length < 0 then .error .illegalState else .ok (List.replicate length.toNat 0)

/-- The loop of `deserializeTable`, at most `fuel` rounds of it: `rest` is what is left in the stream. -/
def deserializeLoop : ℕ → Bytes → Bytes → Values Name → Except ReadError (Values Name)
  | 0, _, _, _ => .error .nonTermination
  | fuel + 1, rest, aSizeBuffer, theResult =>
    if rest.length > 0 then do
      let (aSizeBuffer, rest) := read aSizeBuffer rest
      let aColumnNameLength ← fromBytes aSizeBuffer
      let aColumnNameBuffer ← newArray aColumnNameLength
      let (aColumnNameBuffer, rest) := read aColumnNameBuffer rest
      let (aSizeBuffer, rest) := read aSizeBuffer rest
      let aColumnValueLength ← fromBytes aSizeBuffer
      let aColumnValue ← newArray aColumnValueLength
      let (aColumnValue, rest) := read aColumnValue rest
      deserializeLoop fuel rest aSizeBuffer (theResult.insert (Name.ofBytes aColumnNameBuffer) (.byteArray (.ofArray aColumnValue)))
    else .ok theResult

/-- `deserializeTable(aValue, theResult)`. Each round takes bytes from the stream, so there are at most as many as bytes. -/
def deserializeTable (aValue : Bytes) (theResult : Values Name) : Except ReadError (Values Name) :=
  deserializeLoop (aValue.length + 1) aValue (List.replicate 4 0) theResult

/-- `resultHashMap.put(field, value)`, if the table has a value for the field. -/
def putField (deserializedTable result : Values Name) (field : Name) : Values Name :=
  match deserializedTable.lookup field with
  | some value => result.insert field value
  | none => result

/-- `createResultHashMap(fields, response, resultHashMap)`, with the bytes of the response: the result map after it. If no fields are given, those of the
table are, in the order of its `keySet()`. -/
def createResultHashMap (order : IterationOrder) (fields : Option (List Name)) (response : Bytes) (resultHashMap : Values Name) :
    Except ReadError (Values Name) := do
  let deserializedTable ← deserializeTable response ∅
  match fields with
  | some fields => .ok (fields.foldl (putField deserializedTable) resultHashMap)
  | none => .ok (((order.entrySet deserializedTable.entries).map Sigma.fst).foldl (putField deserializedTable) resultHashMap)

/-! ### Reading ends -/

theorem length_read_snd (buffer rest : Bytes) : (read buffer rest).2.length = rest.length - buffer.length := List.length_drop

theorem length_read_fst (buffer rest : Bytes) : (read buffer rest).1.length = buffer.length := by
  simp only [read, List.length_append, List.length_take, List.length_drop]
  omega

theorem fromBytes_cases (bs : Bytes) : (∃ n, fromBytes bs = .ok n) ∨ fromBytes bs = .error .illegalState := by
  unfold fromBytes
  split
  · exact .inl ⟨_, rfl⟩
  · exact .inr rfl

theorem newArray_cases (length : ℤ) : (∃ bs, newArray length = .ok bs) ∨ newArray length = .error .illegalState := by
  rw [newArray]
  split_ifs
  · exact .inr rfl
  · exact .inl ⟨_, rfl⟩

theorem deserializeLoop_ne_nonTermination {fuel : ℕ} {rest buffer : Bytes} (hfuel : rest.length < fuel) (hbuffer : buffer.length = 4)
    (theResult : Values Name) : deserializeLoop fuel rest buffer theResult ≠ .error .nonTermination := by
  induction fuel generalizing rest buffer theResult with
  | zero => exact absurd hfuel (Nat.not_lt_zero _)
  | succ fuel ih =>
    rw [deserializeLoop]
    by_cases hpos : rest.length > 0
    · rw [if_pos hpos]
      dsimp only
      rcases fromBytes_cases (read buffer rest).1 with ⟨nameLength, hname⟩ | herror
      · rw [bind_ok hname]
        rcases newArray_cases nameLength with ⟨nameBuffer, hnew⟩ | herror
        · rw [bind_ok hnew]
          rcases fromBytes_cases (read (read buffer rest).1 (read nameBuffer (read buffer rest).2).2).1 with ⟨valueLength, hvalue⟩ | herror
          · rw [bind_ok hvalue]
            rcases newArray_cases valueLength with ⟨valueBuffer, hnew'⟩ | herror
            · rw [bind_ok hnew']
              refine ih ?_ ?_ _
              · simp only [length_read_snd, length_read_fst]
                omega
              · simp only [length_read_fst, hbuffer]
            · rw [herror]
              rintro ⟨⟩
          · rw [herror]
            rintro ⟨⟩
        · rw [herror]
          rintro ⟨⟩
      · rw [herror]
        rintro ⟨⟩
    · rw [if_neg hpos]
      rintro ⟨⟩

/-- **Reading ends**, whatever the bytes. -/
theorem deserializeTable_ne_nonTermination (aValue : Bytes) (theResult : Values Name) :
    deserializeTable aValue theResult ≠ .error .nonTermination :=
  deserializeLoop_ne_nonTermination (Nat.lt_succ_self _) List.length_replicate theResult

/-! ### Reading what was written -/

/-- A read of as many bytes as the buffer has. -/
theorem read_append {buffer bs : Bytes} (h : bs.length = buffer.length) (rest : Bytes) : read buffer (bs ++ rest) = (bs, rest) := by
  rw [read, ← h, List.take_left, List.drop_left, List.drop_eq_nil_of_le (by rw [List.length_append]; omega), List.append_nil]

@[simp] theorem length_toBytes (n : ℤ) : (toBytes n).length = 4 := rfl

/-- A length is read into the buffer for lengths. -/
theorem read_toBytes {buffer : Bytes} (h : buffer.length = 4) (n : ℤ) (rest : Bytes) : read buffer (toBytes n ++ rest) = (toBytes n, rest) :=
  read_append (by rw [h, length_toBytes]) rest

theorem fromBytes_toBytes {n : ℤ} (h : FitsInt n) : fromBytes (toBytes n) = .ok n := by
  obtain ⟨b₀, b₁, b₂, b₃, hput, hget⟩ := getInt_putInt h
  rw [toBytes, hput, fromBytes, hget]

/-- A length and as many bytes. -/
theorem newArray_natCast (n : ℕ) : newArray n = .ok (List.replicate n 0) := by
  rw [newArray, if_neg (by omega), Int.toNat_natCast]

/-- **One round**, at a field: it is put, and the loop goes on after it. -/
theorem deserializeLoop_entry {name : Name} {value rest buffer : Bytes} (hname : name.getBytes.length < 2 ^ 31) (hvalue : value.length < 2 ^ 31)
    (hbuffer : buffer.length = 4) (fuel : ℕ) (theResult : Values Name) :
    deserializeLoop (fuel + 1) (entryBytes name.getBytes value ++ rest) buffer theResult =
      deserializeLoop fuel rest (toBytes value.length) (theResult.insert name (.byteArray (.ofArray value))) := by
  have hnameLength : fromBytes (toBytes name.getBytes.length) = .ok (name.getBytes.length : ℤ) := fromBytes_toBytes (by unfold FitsInt; omega)
  have hvalueLength : fromBytes (toBytes value.length) = .ok (value.length : ℤ) := fromBytes_toBytes (by unfold FitsInt; omega)
  have hsplit : entryBytes name.getBytes value ++ rest =
      toBytes name.getBytes.length ++ (name.getBytes ++ (toBytes value.length ++ (value ++ rest))) := by
    simp only [entryBytes, toBytes, List.append_assoc]
  rw [hsplit, deserializeLoop, if_pos (by rw [List.length_append]; exact Nat.add_pos_left (by decide : 0 < 4) _)]
  -- Each read takes what has been written in one piece.
  rw [read_toBytes hbuffer]
  dsimp only
  rw [bind_ok hnameLength, bind_ok (newArray_natCast _), read_append (by rw [List.length_replicate])]
  dsimp only
  rw [read_toBytes (length_toBytes _)]
  dsimp only
  rw [bind_ok hvalueLength, bind_ok (newArray_natCast _), read_append (by rw [List.length_replicate]), Name.ofBytes_getBytes]

/-- **The table that is read**: the fields that have been written, and what was there before. -/
theorem deserializeLoop_encodeRecord {es : List (Name × Bytes)} (hnd : (es.map Prod.fst).Nodup) (hlen : (encodeRecord es).length < 2 ^ 31)
    {fuel : ℕ} (hfuel : es.length < fuel) {buffer : Bytes} (hbuffer : buffer.length = 4) (theResult : Values Name) :
    ∃ table, deserializeLoop fuel (encodeRecord es) buffer theResult = .ok table ∧
      (∀ f bs, (f, bs) ∈ es → table.lookup f = some (.byteArray (.ofArray bs))) ∧
      ∀ f, f ∉ es.map Prod.fst → table.lookup f = theResult.lookup f := by
  induction es generalizing fuel buffer theResult with
  | nil =>
    obtain _ | fuel := fuel
    · exact absurd hfuel (Nat.not_lt_zero _)
    exact ⟨theResult, rfl, fun _ _ h => absurd h List.not_mem_nil, fun _ _ => rfl⟩
  | cons e es ih =>
    obtain ⟨name, value⟩ := e
    obtain _ | fuel := fuel
    · exact absurd hfuel (Nat.not_lt_zero _)
    obtain ⟨hname, hnd⟩ := List.nodup_cons.mp hnd
    rw [encodeRecord_cons] at hlen ⊢
    simp only [entryBytes, List.length_append, length_putInt] at hlen
    obtain ⟨table, htable, hin, hout⟩ := ih hnd (by omega) (Nat.lt_of_succ_lt_succ hfuel) (length_toBytes value.length)
      (theResult.insert name (.byteArray (.ofArray value)))
    have hname' : name.getBytes.length < 2 ^ 31 := by omega
    have hvalue : value.length < 2 ^ 31 := by omega
    rw [← deserializeLoop_entry hname' hvalue hbuffer] at htable
    refine ⟨table, htable, ?_, ?_⟩
    · intro f bs hf
      rcases List.mem_cons.mp hf with heq | hf
      · cases heq
        rw [hout _ hname, AList.lookup_insert]
      · exact hin f bs hf
    · intro f hf
      obtain ⟨hne, hf⟩ := not_or.mp (List.mem_cons.not.mp hf)
      rw [hout f hf, AList.lookup_insert_ne hne]

theorem length_le_encodeRecord {es : List (Name × Bytes)} {f : Name} {bs : Bytes} (h : (f, bs) ∈ es) : bs.length ≤ (encodeRecord es).length := by
  have hsub := (List.sublist_flatten_of_mem (List.mem_map_of_mem (f := fun e => entryBytes e.1.getBytes e.2) h)).length_le
  simp only [entryBytes, List.length_append, length_putInt] at hsub
  rw [encodeRecord]
  simp only [entryBytes]
  omega

/-! ### The result -/

/-- What is put: the values that the table has for the fields. -/
theorem lookup_putFields (deserializedTable : Values Name) (fields : List Name) (result : Values Name) (f : Name) :
    (fields.foldl (putField deserializedTable) result).lookup f =
      if f ∈ fields then (deserializedTable.lookup f).or (result.lookup f) else result.lookup f := by
  induction fields generalizing result with
  | nil => simp
  | cons field fields ih =>
    rw [List.foldl_cons, ih]
    have hput : (putField deserializedTable result field).lookup f =
        if f = field then (deserializedTable.lookup f).or (result.lookup f) else result.lookup f := by
      rw [putField]
      by_cases heq : f = field
      · subst heq
        cases deserializedTable.lookup f <;> simp
      · cases deserializedTable.lookup field <;> simp [heq]
    rw [hput]
    by_cases heq : f = field
    · by_cases hmem : f ∈ fields <;> cases deserializedTable.lookup f <;> simp [heq]
    · simp [heq]

/-- The result of a table, by its lookups. -/
theorem createResultHashMap_eq {response : Bytes} {table : Values Name} (h : deserializeTable response ∅ = .ok table) (order : IterationOrder)
    (fields : Option (List Name)) (resultHashMap : Values Name) :
    ∃ result, createResultHashMap order fields response resultHashMap = .ok result ∧
      ∀ f, result.lookup f = if selects fields f then (table.lookup f).or (resultHashMap.lookup f) else resultHashMap.lookup f := by
  cases fields with
  | some fields =>
    refine ⟨_, by rw [createResultHashMap, bind_ok h], fun f => ?_⟩
    rw [lookup_putFields]
    simp [selects]
  | none =>
    refine ⟨_, by rw [createResultHashMap, bind_ok h], fun f => ?_⟩
    rw [lookup_putFields]
    have hmem : f ∈ (order.entrySet table.entries).map Sigma.fst ↔ f ∈ table :=
      ((order.perm table.entries).map Sigma.fst).mem_iff
    by_cases hin : f ∈ table
    · simp [selects, hmem, hin]
    · have hnone : table.lookup f = none := AList.lookup_eq_none.mpr hin
      simp [selects, hmem, hin, hnone]

/-! ### The round trip -/

/-- The fields come back: those asked for with their bytes, and nothing else. -/
structure ReadsBack (values : Values Name) (fields : Option (List Name)) (before result : Values Name) : Prop where
  /-- A field that is asked for. -/
  asked : ∀ f it, selects fields f = true → values.lookup f = some it →
    ∃ bs it', it.contents = some bs ∧ result.lookup f = some it' ∧ it'.Holds bs
  /-- Another one, or one that is not there. -/
  others : ∀ f, selects fields f = false ∨ values.lookup f = none → result.lookup f = before.lookup f

/-- A record that fits an array is written. -/
theorem serializeLoop_fits {entries : List (Σ _ : Name, ByteIterator)} {baos : Bytes} (hread : ∀ e ∈ entries, ∃ bs, e.2.contents = some bs)
    (hfits : baos.length + encodedLength entries < 2 ^ 31) : ∃ bytes, serializeLoop baos entries = .ok bytes := by
  induction entries generalizing baos with
  | nil => exact ⟨baos, rfl⟩
  | cons e entries ih =>
    obtain ⟨⟨bs, hbs⟩, hrest⟩ := List.forall_mem_cons.mp hread
    simp only [encodedLength, List.map_cons, List.sum_cons, hbs, Option.getD_some] at hfits
    rw [serializeLoop]
    cases hv : e.2.toArray with
    | error err =>
      rw [ByteIterator.contents, hv] at hbs
      cases hbs
    | ok o =>
      have hbytes : o.1 = bs := by
        rw [ByteIterator.contents, hv] at hbs
        exact Option.some.inj hbs
      have hlen : (baos ++ entryBytes e.1.getBytes o.1).length = baos.length + (8 + e.1.getBytes.length + bs.length) := by
        rw [hbytes]
        simp only [entryBytes, List.length_append, length_putInt]
        omega
      rw [bind_ok rfl]
      dsimp only
      rw [if_pos (by omega)]
      exact ih hrest (by rw [hlen]; simp only [encodedLength]; omega)

/-- **A record is read back as it has been written**: the fields of the map that are asked for, with exactly their bytes. -/
theorem createResultHashMap_serializeTable (order order' : IterationOrder) {values : Values Name} (hread : Readable values)
    (hfits : encodedLength values.entries < 2 ^ 31) (fields : Option (List Name)) (resultHashMap : Values Name) :
    ∃ bytes values' result, serializeTable order values = .ok (bytes, values') ∧
      createResultHashMap order' fields bytes resultHashMap = .ok result ∧ ReadsBack values fields resultHashMap result := by
  have hperm := order.perm values.entries
  have hlength : encodedLength (order.entrySet values.entries) = encodedLength values.entries := (hperm.map _).sum_eq
  have hentries : ∀ e ∈ order.entrySet values.entries, ∃ bs, e.2.contents = some bs := fun e he =>
    hread e.1 e.2 (AList.mem_lookup_iff.mpr (hperm.mem_iff.mp he))
  have hroom : ([] : Bytes).length + encodedLength (order.entrySet values.entries) < 2 ^ 31 := by
    rw [hlength, List.length_nil, Nat.zero_add]
    exact hfits
  obtain ⟨bytes, hbytes⟩ := serializeLoop_fits hentries hroom
  have hserialize : serializeTable order values = .ok (bytes, RocksDB.drained values) := by
    rw [serializeTable, serializeValues, bind_ok hbytes]
  obtain ⟨-, -, es, rfl, hnd, hlen, hmem⟩ := serializeValues_eq hserialize
  have hbuffer : (List.replicate 4 (0 : UInt8)).length = 4 := List.length_replicate
  obtain ⟨table, htable, hin, hout⟩ := deserializeLoop_encodeRecord hnd hlen (Nat.lt_succ_of_le (length_encodeRecord_ge es)) hbuffer ∅
  obtain ⟨result, hresult, hlookup⟩ := createResultHashMap_eq htable order' fields resultHashMap
  refine ⟨_, _, result, hserialize, hresult, fun f it hsel hit => ?_, fun f hor => ?_⟩
  · obtain ⟨bs, hbs⟩ := hread f it hit
    have hentry := (hmem f bs).mpr ⟨it, hit, hbs⟩
    refine ⟨bs, .byteArray (.ofArray bs), hbs, by rw [hlookup, if_pos hsel, hin f bs hentry]; rfl, ?_⟩
    exact ByteArrayByteIterator.holds_ofArray ((length_le_encodeRecord hentry).trans_lt hlen)
  · rw [hlookup]
    by_cases hsel : selects fields f = true
    · have hnone : values.lookup f = none := hor.resolve_left (by rw [hsel]; decide)
      have hnot : f ∉ es.map Prod.fst := by
        intro hf
        obtain ⟨⟨f', bs⟩, hentry, rfl⟩ := List.mem_map.mp hf
        obtain ⟨it, hit, -⟩ := (hmem f' bs).mp hentry
        rw [hnone] at hit
        cases hit
      rw [if_pos hsel, hout f hnot, AList.lookup_empty, Option.none_or]
    · rw [if_neg hsel]

/-- A record of one field, with all fields asked for. -/
theorem createResultHashMap_serializeTable_one : ∃ bytes values' result,
    serializeTable ⟨id, fun _ => .rfl⟩ (AList.singleton ⟨[0x66], rfl⟩ (.string (.ofString [0x61]))) = .ok (bytes, values') ∧
      createResultHashMap ⟨id, fun _ => .rfl⟩ none bytes ∅ = .ok result ∧
        ReadsBack (AList.singleton ⟨[0x66], rfl⟩ (.string (.ofString [0x61]))) none ∅ result := by
  refine createResultHashMap_serializeTable _ _ ?_ (by decide) none ∅
  intro f it hit
  obtain ⟨-, rfl⟩ := eq_of_lookup_singleton hit
  exact ⟨[0x61], rfl⟩

end YcsbIvs.Riak
