import YcsbIvs.Core.DB

/-!
# The record codec of the RocksDB binding

`RocksDBClient` keeps a record as one byte array: for each field the length of its
name, the name in UTF-8, the length of its value and the value, lengths in four bytes
(`serializeValues`). `deserializeValues` walks the array, and hands back an iterator
over the slice of each value; it trusts the lengths it finds, and `offset` is an `int`.

The entries of a `HashMap` come in no particular order: `serializeValues` takes the
order as a parameter, any rearrangement of the entries (`IterationOrder`).

**The codec loses nothing** (`deserializeValues_encodeRecord`,
`serializeValues_eq`): what `serializeValues` writes of a map, `deserializeValues`
reads back field for field, restricted to the fields asked for.

The default charset is UTF-8. Names of keys and fields are well-formed strings
(`Name`); what a decode gives always is one.
-/

namespace YcsbIvs.RocksDB

open YcsbIvs.Foundations YcsbIvs.Core

/-- A well-formed string. -/
abbrev Name := {s : Utf16 // WellFormed s = true}

/-- `name.getBytes(UTF_8)`. -/
def Name.getBytes (n : Name) : Bytes := encode n.1

/-- `new String(bytes)`. -/
def Name.ofBytes (bs : Bytes) : Name := ⟨decode bs, wellFormed_decode bs⟩

theorem Name.ofBytes_getBytes (n : Name) : Name.ofBytes n.getBytes = n := Subtype.ext (decode_encode n.2)

theorem Name.getBytes_inj {m n : Name} (h : m.getBytes = n.getBytes) : m = n :=
  Subtype.ext (encode_inj m.2 n.2 h)

/-- The order a `HashMap` hands its entries out in: any rearrangement of them. -/
structure IterationOrder where
  /-- The entries as handed out. -/
  entrySet : List (Σ _ : Name, ByteIterator) → List (Σ _ : Name, ByteIterator)
  /-- They are the entries of the map. -/
  perm : ∀ entries, (entrySet entries).Perm entries

/-! ### Writing -/

/-- The bytes of one field. -/
def entryBytes (keyBytes valueBytes : Bytes) : Bytes :=
  putInt keyBytes.length ++ keyBytes ++ (putInt valueBytes.length ++ valueBytes)

/-- The loop of `serializeValues`, writing to `baos`. -/
def serializeLoop : Bytes → List (Σ _ : Name, ByteIterator) → Except Throwable Bytes
  | baos, [] => .ok baos
  | baos, value :: entries => do
    let (valueBytes, _) ← value.2.toArray
    let baos := baos ++ entryBytes value.1.getBytes valueBytes
    if baos.length < 2 ^ 31 then serializeLoop baos entries else .error .outOfMemory

/-- The map after `toArray()` of each of its iterators. -/
def drained {ν : Type} (values : Values ν) : Values ν :=
  ⟨values.entries.map (Sigma.map id fun _ it => it.drain), by
    have := values.nodupKeys
    rwa [List.NodupKeys, List.keys, List.map_map] at *⟩

/-- `serializeValues(values)`: the bytes, and the map with its iterators used up. -/
def serializeValues (order : IterationOrder) (values : Values Name) : Except Throwable (Bytes × Values Name) := do
  let bytes ← serializeLoop [] (order.entrySet values.entries)
  .ok (bytes, drained values)

/-! ### Reading -/

/-- `buf.put(values, offset, 4)` and `buf.getInt()`. -/
def getIntAt (values : Bytes) (offset : ℤ) : Except Throwable ℤ :=
  if offset < 0 then .error .arrayIndexOutOfBounds
  else match values.drop offset.toNat with
    | b₀ :: b₁ :: b₂ :: b₃ :: _ => .ok (getInt b₀ b₁ b₂ b₃)
    | _ => .error .arrayIndexOutOfBounds

/-- `new String(values, offset, length)`. -/
def newString (values : Bytes) (offset length : ℤ) : Except Throwable Name :=
  if offset < 0 ∨ length < 0 ∨ values.length < offset + length then .error .stringIndexOutOfBounds
  else .ok (Name.ofBytes ((values.drop offset.toNat).take length.toNat))

/-- `fields == null || fields.contains(key)`. -/
def selects (fields : Option (List Name)) (key : Name) : Bool :=
  match fields with
  | none => true
  | some fields => fields.contains key

/-- The loop of `deserializeValues`, at most `fuel` rounds of it. -/
def deserializeLoop (values : Bytes) (fields : Option (List Name)) :
    ℕ → ℤ → Values Name → Except Throwable (Values Name)
  | 0, _, _ => .error .nonTermination
  | fuel + 1, offset, result =>
    if offset < values.length then do
      let keyLen ← getIntAt values offset
      let key ← newString values (offset + 4) keyLen
      let offset := asInt (offset + 4 + keyLen)
      let valueLen ← getIntAt values offset
      let result := if selects fields key
        then result.insert key (.byteArray (.ofSlice values (offset + 4) valueLen)) else result
      deserializeLoop values fields fuel (asInt (offset + 4 + valueLen)) result
    else .ok result

/-- `deserializeValues(values, fields, result)`. Each round starts at an offset in the
array and depends on nothing else, so a loop that goes round more often than there are
bytes does not end. -/
def deserializeValues (values : Bytes) (fields : Option (List Name)) (result : Values Name) :
    Except Throwable (Values Name) :=
  deserializeLoop values fields (values.length + 1) 0 result

/-! ### What is written -/

/-- A record as `serializeValues` writes it, its fields in some order. -/
def encodeRecord (es : List (Name × Bytes)) : Bytes := (es.map fun e => entryBytes e.1.getBytes e.2).flatten

theorem encodeRecord_cons (e : Name × Bytes) (es : List (Name × Bytes)) :
    encodeRecord (e :: es) = entryBytes e.1.getBytes e.2 ++ encodeRecord es := rfl

theorem length_encodeRecord_ge (es : List (Name × Bytes)) : es.length ≤ (encodeRecord es).length := by
  induction es with
  | nil => simp
  | cons e es ih =>
    simp only [encodeRecord_cons, entryBytes, List.length_append, length_putInt, List.length_cons]
    omega

theorem lookup_drained {ν : Type} [DecidableEq ν] (values : Values ν) (f : ν) :
    (drained values).lookup f = (values.lookup f).map ByteIterator.drain :=
  List.dlookup_map₂ (f := fun _ it => ByteIterator.drain it) f

/-- The loop writes the contents of the entries, in their order. -/
theorem serializeLoop_ok {entries : List (Σ _ : Name, ByteIterator)} {baos bytes : Bytes}
    (h : serializeLoop baos entries = .ok bytes) :
    ∃ es, bytes = baos ++ encodeRecord es ∧ es.map Prod.fst = entries.map Sigma.fst ∧
      (∀ e ∈ entries, ∃ bs, e.2.contents = some bs ∧ (e.1, bs) ∈ es) ∧
      (entries ≠ [] → bytes.length < 2 ^ 31) := by
  induction entries generalizing baos with
  | nil =>
    cases h
    exact ⟨[], (List.append_nil _).symm, rfl, fun _ he => absurd he List.not_mem_nil, fun hne => absurd rfl hne⟩
  | cons e entries ih =>
    rw [serializeLoop] at h
    cases hv : e.2.toArray with
    | error err => simp [hv, bind, Except.bind] at h
    | ok o =>
      obtain ⟨bs, it⟩ := o
      simp only [hv, bind, Except.bind] at h
      split_ifs at h with hlt
      obtain ⟨es, hbytes, hkeys, hmem, hlen⟩ := ih h
      have hc : e.2.contents = some bs := by
        rw [ByteIterator.contents, hv]
        rfl
      refine ⟨(e.1, bs) :: es, ?_, ?_, ?_, fun _ => ?_⟩
      · rw [hbytes, encodeRecord_cons, List.append_assoc]
      · rw [List.map_cons, List.map_cons, hkeys]
      · intro e' he'
        rcases List.mem_cons.mp he' with rfl | he'
        · exact ⟨bs, hc, List.mem_cons_self⟩
        · obtain ⟨bs', hc', hm'⟩ := hmem e' he'
          exact ⟨bs', hc', List.mem_cons_of_mem _ hm'⟩
      · cases entries with
        | nil =>
          cases h
          exact hlt
        | cons e' entries => exact hlen (List.cons_ne_nil _ _)

/-- An iterator that can be read is read by the loop; the only thing it can throw is
that the array would be too long. -/
theorem serializeLoop_error {entries : List (Σ _ : Name, ByteIterator)} {baos : Bytes} {err : Throwable}
    (hread : ∀ e ∈ entries, ∃ bs, e.2.contents = some bs) (h : serializeLoop baos entries = .error err) :
    err = .outOfMemory := by
  induction entries generalizing baos with
  | nil => cases h
  | cons e entries ih =>
    obtain ⟨bs, hc⟩ := hread e List.mem_cons_self
    rw [serializeLoop] at h
    cases hv : e.2.toArray with
    | error err =>
      rw [ByteIterator.contents, hv] at hc
      cases hc
    | ok o =>
      simp only [hv, bind, Except.bind] at h
      split_ifs at h
      · exact ih (fun e' he' => hread e' (List.mem_cons_of_mem e he')) h
      · cases h
        rfl

/-- **What `serializeValues` writes of a map**: its fields and their contents, each
once, in some order. -/
theorem serializeValues_eq {order : IterationOrder} {values values' : Values Name} {bytes : Bytes}
    (h : serializeValues order values = .ok (bytes, values')) :
    values' = drained values ∧ Readable values ∧ ∃ es, bytes = encodeRecord es ∧ (es.map Prod.fst).Nodup ∧
      bytes.length < 2 ^ 31 ∧
      ∀ f bs, (f, bs) ∈ es ↔ ∃ it, values.lookup f = some it ∧ it.contents = some bs := by
  rw [serializeValues] at h
  cases hl : serializeLoop [] (order.entrySet values.entries) with
  | error e => simp [hl, bind, Except.bind] at h
  | ok b =>
    simp only [hl, bind, Except.bind, Except.ok.injEq, Prod.mk.injEq] at h
    obtain ⟨rfl, rfl⟩ := h
    obtain ⟨es, hb, hkeys, hmem, hlen⟩ := serializeLoop_ok hl
    have hperm := order.perm values.entries
    have hnd : (es.map Prod.fst).Nodup := by
      rw [hkeys]
      exact (hperm.map Sigma.fst).nodup_iff.mpr values.nodupKeys
    have hin : ∀ f it, values.lookup f = some it → ∃ bs, it.contents = some bs ∧ (f, bs) ∈ es := by
      intro f it hf
      exact hmem ⟨f, it⟩ (hperm.mem_iff.mpr (AList.mem_lookup_iff.mp hf))
    have hread : Readable values := by
      intro f it hf
      obtain ⟨bs, hbs, -⟩ := hin f it hf
      exact ⟨bs, hbs⟩
    refine ⟨rfl, hread, es, by rw [hb, List.nil_append], hnd, ?_, ?_⟩
    · cases he : order.entrySet values.entries with
      | nil =>
        rw [he] at hl
        cases hl
        exact by decide
      | cons e entries => exact hlen (he ▸ List.cons_ne_nil _ _)
    · intro f bs
      constructor
      · intro hf
        have hfk : f ∈ values := by
          rw [AList.mem_keys]
          have : f ∈ es.map Prod.fst := List.mem_map_of_mem hf
          rw [hkeys] at this
          exact (hperm.map Sigma.fst).mem_iff.mp this
        obtain ⟨it, hit⟩ := Option.isSome_iff_exists.mp (AList.lookup_isSome.mpr hfk)
        obtain ⟨bs', hbs', hm'⟩ := hin f it hit
        have := List.inj_on_of_nodup_map hnd hf hm' rfl
        simp only [Prod.mk.injEq, true_and] at this
        exact ⟨it, hit, this ▸ hbs'⟩
      · rintro ⟨it, hit, hbs⟩
        obtain ⟨bs', hbs', hm'⟩ := hin f it hit
        rw [hbs, Option.some.injEq] at hbs'
        exact hbs' ▸ hm'

/-! ### What is read back -/

theorem getIntAt_putInt {n : ℤ} (h : FitsInt n) (pre post : Bytes) :
    getIntAt (pre ++ (putInt n ++ post)) pre.length = .ok n := by
  obtain ⟨b₀, b₁, b₂, b₃, hput, hget⟩ := getInt_putInt h
  rw [getIntAt, if_neg (by omega), Int.toNat_natCast, List.drop_left, hput]
  exact congrArg Except.ok hget

theorem newString_getBytes (pre post : Bytes) (k : Name) :
    newString (pre ++ (k.getBytes ++ post)) pre.length k.getBytes.length = .ok k := by
  rw [newString, if_neg, Int.toNat_natCast, Int.toNat_natCast, List.drop_left, List.take_left,
    Name.ofBytes_getBytes]
  simp only [List.length_append]
  omega

/-- The slice an entry's value is read as. -/
theorem holds_ofSlice {pre bs post : Bytes} (h : (pre ++ (bs ++ post)).length < 2 ^ 31) :
    (ByteArrayByteIterator.ofSlice (pre ++ (bs ++ post)) pre.length bs.length).Holds bs := by
  refine ⟨pre, post, by simp [ByteArrayByteIterator.ofSlice], h, rfl, ?_⟩
  simp only [List.length_append] at h
  exact asInt_of_fits (by unfold FitsInt; omega)

/-- One round of the loop that reads both lengths and the key. -/
theorem deserializeLoop_round {values : Bytes} {offset keyLen valueLen : ℤ} {key : Name}
    (hlt : offset < values.length) (hkeyLen : getIntAt values offset = .ok keyLen)
    (hkey : newString values (offset + 4) keyLen = .ok key)
    (hvalueLen : getIntAt values (asInt (offset + 4 + keyLen)) = .ok valueLen)
    (fields : Option (List Name)) (fuel : ℕ) (result : Values Name) :
    deserializeLoop values fields (fuel + 1) offset result =
      deserializeLoop values fields fuel (asInt (asInt (offset + 4 + keyLen) + 4 + valueLen))
        (if selects fields key then result.insert key
          (.byteArray (.ofSlice values (asInt (offset + 4 + keyLen) + 4) valueLen)) else result) := by
  rw [deserializeLoop, if_pos hlt, hkeyLen]
  simp only [bind, Except.bind, hkey, hvalueLen]

/-- One round of the loop, at an entry: the iterator it makes holds the entry's value,
and it goes on after the entry. -/
theorem deserializeLoop_entry {values pre post v : Bytes} {k : Name}
    (hvalues : values = pre ++ entryBytes k.getBytes v ++ post) (hlen : values.length < 2 ^ 31)
    (fields : Option (List Name)) (fuel : ℕ) (result : Values Name) :
    ∃ a : ByteArrayByteIterator, a.Holds v ∧
      deserializeLoop values fields (fuel + 1) pre.length result =
        deserializeLoop values fields fuel (pre ++ entryBytes k.getBytes v).length
          (if selects fields k then result.insert k (.byteArray a) else result) := by
  -- the array, cut at each of the places the round looks at
  have h0 : values = pre ++ (putInt k.getBytes.length ++
      (k.getBytes ++ (putInt v.length ++ (v ++ post)))) := by
    rw [hvalues]
    simp only [entryBytes, List.append_assoc]
  have h1 : values = (pre ++ putInt k.getBytes.length) ++ (k.getBytes ++ (putInt v.length ++ (v ++ post))) := by
    rw [h0, List.append_assoc]
  have h2 : values = (pre ++ putInt k.getBytes.length ++ k.getBytes) ++ (putInt v.length ++ (v ++ post)) := by
    rw [h1, List.append_assoc _ k.getBytes]
  have h3 : values = (pre ++ putInt k.getBytes.length ++ k.getBytes ++ putInt v.length) ++ (v ++ post) := by
    rw [h2, List.append_assoc _ (putInt v.length)]
  have hall : pre.length + (4 + (k.getBytes.length + (4 + (v.length + post.length)))) = values.length := by
    rw [h0]
    simp only [List.length_append, length_putInt]
  -- what each step of the round gives
  have r1 : getIntAt values pre.length = .ok (k.getBytes.length : ℤ) := by
    rw [h0]
    exact getIntAt_putInt (by unfold FitsInt; omega) _ _
  have r2 : newString values (pre.length + 4) k.getBytes.length = .ok k := by
    have hoff : (pre.length : ℤ) + 4 = (pre ++ putInt k.getBytes.length).length := by
      rw [List.length_append, length_putInt, Int.natCast_add]
      rfl
    rw [hoff, h1]
    exact newString_getBytes _ _ k
  have o1 : asInt (pre.length + 4 + k.getBytes.length) =
      ((pre ++ putInt k.getBytes.length ++ k.getBytes).length : ℤ) := by
    rw [asInt_of_fits (by unfold FitsInt; omega)]
    simp only [List.length_append, length_putInt]
    omega
  have r3 : getIntAt values (asInt (pre.length + 4 + k.getBytes.length)) = .ok (v.length : ℤ) := by
    rw [o1, h2]
    exact getIntAt_putInt (by unfold FitsInt; omega) _ _
  have o2 : asInt (pre.length + 4 + k.getBytes.length) + 4 =
      ((pre ++ putInt k.getBytes.length ++ k.getBytes ++ putInt v.length).length : ℤ) := by
    rw [o1]
    simp only [List.length_append, length_putInt]
    omega
  have o3 : asInt (asInt (pre.length + 4 + k.getBytes.length) + 4 + v.length) =
      ((pre ++ entryBytes k.getBytes v).length : ℤ) := by
    rw [o2, asInt_of_fits (by unfold FitsInt; simp only [List.length_append, length_putInt]; omega)]
    simp only [entryBytes, List.length_append, length_putInt]
    omega
  refine ⟨.ofSlice values (asInt (pre.length + 4 + k.getBytes.length) + 4) v.length, ?_, ?_⟩
  · rw [o2]
    rw [h3] at hlen ⊢
    exact holds_ofSlice hlen
  · rw [deserializeLoop_round (by omega) r1 r2 r3, o3]

/-- **What the loop reads back** of a record from an entry on: each field asked for, as
an iterator over its value; the rest of the map is as it was. The induction is on the
entries that are left. -/
theorem deserializeLoop_encodeRecord {values : Bytes} (hlen : values.length < 2 ^ 31)
    {es : List (Name × Bytes)} (hnd : (es.map Prod.fst).Nodup) {pre : Bytes}
    (hvalues : values = pre ++ encodeRecord es) {fuel : ℕ} (hfuel : es.length < fuel)
    (fields : Option (List Name)) (result : Values Name) :
    ∃ result', deserializeLoop values fields fuel pre.length result = .ok result' ∧
      (∀ f bs, (f, bs) ∈ es → selects fields f = true → ∃ a, result'.lookup f = some (.byteArray a) ∧ a.Holds bs) ∧
      (∀ f, f ∉ es.map Prod.fst ∨ selects fields f = false → result'.lookup f = result.lookup f) := by
  induction es generalizing pre fuel result with
  | nil =>
    obtain _ | fuel := fuel
    · exact absurd hfuel (Nat.not_lt_zero _)
    refine ⟨result, ?_, fun _ _ h => absurd h List.not_mem_nil, fun _ _ => rfl⟩
    have hpre : values = pre := by rw [hvalues, encodeRecord, List.map_nil, List.flatten_nil, List.append_nil]
    rw [deserializeLoop, if_neg (by rw [hpre]; exact lt_irrefl _)]
  | cons e es ih =>
    obtain ⟨k, v⟩ := e
    obtain _ | fuel := fuel
    · exact absurd hfuel (Nat.not_lt_zero _)
    obtain ⟨hk, hnd⟩ := List.nodup_cons.mp hnd
    rw [encodeRecord_cons, ← List.append_assoc] at hvalues
    obtain ⟨a, ha, hround⟩ := deserializeLoop_entry hvalues hlen fields fuel result
    obtain ⟨result', hloop, hin, hout⟩ := ih hnd hvalues (Nat.lt_of_succ_lt_succ hfuel)
      (if selects fields k then result.insert k (.byteArray a) else result)
    refine ⟨result', hround.trans hloop, ?_, ?_⟩
    · intro f bs hf hsel
      rcases List.mem_cons.mp hf with heq | hf
      · obtain ⟨rfl, rfl⟩ := Prod.mk.injEq .. ▸ heq
        exact ⟨a, by rw [hout f (.inl hk), if_pos hsel, AList.lookup_insert], ha⟩
      · exact hin f bs hf hsel
    · intro f hf
      have hf' : f ∉ es.map Prod.fst ∨ selects fields f = false :=
        hf.imp_left fun hf hmem => hf (List.mem_cons_of_mem k hmem)
      rw [hout f hf']
      split_ifs with hsel
      · have hfk : f ≠ k := by
          rintro rfl
          rcases hf with hf | hf
          · exact hf List.mem_cons_self
          · rw [hf] at hsel
            cases hsel
        exact AList.lookup_insert_ne hfk
      · rfl

/-- A record read back from its bytes. -/
theorem deserializeValues_encodeRecord {es : List (Name × Bytes)} (hnd : (es.map Prod.fst).Nodup)
    (hlen : (encodeRecord es).length < 2 ^ 31) (fields : Option (List Name)) (result : Values Name) :
    ∃ result', deserializeValues (encodeRecord es) fields result = .ok result' ∧
      (∀ f bs, (f, bs) ∈ es → selects fields f = true → ∃ a, result'.lookup f = some (.byteArray a) ∧ a.Holds bs) ∧
      (∀ f, f ∉ es.map Prod.fst ∨ selects fields f = false → result'.lookup f = result.lookup f) :=
  deserializeLoop_encodeRecord hlen hnd (List.nil_append _).symm
    (Nat.lt_succ_of_le (length_encodeRecord_ge es)) fields result

end YcsbIvs.RocksDB
