import YcsbIvs.Extend.Inherited

/-!
# The Rados binding

A record is an object of the pool that holds a JSON object. `update` is `delete`, and if that succeeds `insert`, which writes a new object of the
values it is given.

The library throws a `RadosException` where a call fails, which has then changed nothing. What it does with a JSON object is a parameter (`Library`).

**An update is atomic** just if the object is not removed, or it is and the new one is written, has whole characters, and has all the fields of the
old one (`atomic_iff`).
-/

namespace YcsbIvs.Rados

open YcsbIvs.Foundations YcsbIvs.Core YcsbIvs.Extend

/-- A `JSONObject` of strings. -/
abbrev JSONObject := AList fun _ : Utf16 => Utf16

/-- Its names and its strings have no lone surrogates. -/
def Whole (json : JSONObject) : Prop := ∀ f s, json.lookup f = some s → WellFormed f = true ∧ WellFormed s = true

/-- What JSON objects are written as, and what of it is read, by the libraries for JSON and for the store. -/
structure Library (β : Type) where
  /-- The bytes of `json.toString()`. -/
  toBytes : JSONObject → β
  /-- `new JSONObject(new String(buffer, UTF_8))`, if it does not throw. -/
  ofBytes : β → Option JSONObject
  /-- What `write(key, buf)` leaves, of these bytes and what the object held. -/
  write : β → Option β → β
  /-- A new object holds what is written. -/
  write_none : ∀ bytes, write bytes none = bytes
  /-- What UTF-8 can encode is read as it was. -/
  ofBytes_toBytes : ∀ json, Whole json → ∃ json', ofBytes (toBytes json) = some json' ∧ ∀ f, json'.lookup f = json.lookup f
  /-- What is read has been decoded. -/
  whole_of_ofBytes : ∀ json json', ofBytes (toBytes json) = some json' → Whole json'

/-- A `RadosException`. -/
structure RadosException where
  /-- `getReturnValue()`. -/
  returnValue : ℤ
  /-- `getMessage()`. -/
  message : Utf16
  deriving DecidableEq

/-- What the binding returns. -/
inductive RadosStatus where
  /-- `OK`. -/
  | ok
  /-- `ERROR`. -/
  | error
  /-- `ERROR-` and the return value, and the message. -/
  | exception (e : RadosException)
  /-- `ERROR`, `Error the object size read`. -/
  | objectSize
  deriving DecidableEq

/-- What the calls of `read` come to. -/
structure ReadCalls where
  /-- What `stat` throws, if it does. -/
  stat : Option RadosException
  /-- What it throws if there is no object. -/
  missing : RadosException
  /-- What `operate` throws, or a read that has failed. -/
  operate : Option RadosException
  /-- Not all of the object is read. -/
  short : Bool

/-- What the calls of `update` come to. -/
structure Calls where
  /-- What `remove` throws, if it does. -/
  remove : Option RadosException
  /-- What it throws if there is no object. -/
  missing : RadosException
  /-- What `write` throws, if it does. -/
  write : Option RadosException

/-- The objects of the pool, by key. -/
abbrev Pool (β : Type) := Utf16 → Option β

variable {β : Type}

/-- `new StringByteIterator(json.getString(name))`. -/
def getString (json : JSONObject) (name : Utf16) : Option ByteIterator := (json.lookup name).map fun s => .string (.ofString s)

/-- `read(table, key, fields, result)`, into an empty map; nothing if there is a `JSONException`. -/
def read (library : Library β) (calls : ReadCalls) (pool : Pool β) (key : Utf16) (fields : Option (List Utf16)) :
    Option (RadosStatus × Values Utf16) :=
  match calls.stat with
  | some e => some (.exception e, ∅)
  | none =>
    match pool key with
    | none => some (.exception calls.missing, ∅)
    | some buffer =>
      match calls.operate with
      | some e => some (.exception e, ∅)
      | none =>
        if calls.short then some (.objectSize, ∅)
        else do
          let json ← library.ofBytes buffer
          let fieldsToReturn := fields.getD json.keys
          -- `getString` of a name that is not there throws
          if fieldsToReturn.all fun name => decide (name ∈ json) then
            let result ← (putAll id (fun name => .ok (getString json name)) fieldsToReturn ∅).toOption
            some (if result.keys.isEmpty then .error else .ok, result)
          else none

/-- `insert(table, key, values)`. -/
def insert (library : Library β) (calls : Calls) (pool : Pool β) (key : Utf16) (values : Values Utf16) :
    Except Throwable (RadosStatus × Pool β) := do
  let json ← putAll Sigma.fst (fun e => e.2.toString.map fun r => some r.1) values.entries ∅
  match calls.write with
  | some e => .ok (.exception e, pool)
  | none => .ok (.ok, Function.update pool key (some (library.write (library.toBytes json) (pool key))))

/-- `delete(table, key)`. -/
def delete (calls : Calls) (pool : Pool β) (key : Utf16) : RadosStatus × Pool β :=
  match calls.remove with
  | some e => (.exception e, pool)
  | none =>
    match pool key with
    | none => (.exception calls.missing, pool)
    | some _ => (.ok, Function.update pool key none)

/-- `update(table, key, values)`. -/
def update (library : Library β) (calls : Calls) (pool : Pool β) (key : Utf16) (values : Values Utf16) :
    Except Throwable (RadosStatus × Pool β) :=
  if (delete calls pool key).1 = .ok then insert library calls (delete calls pool key).2 key values
  else .ok (delete calls pool key)

/-- A `read` of all fields, of which no call fails, returns this record: `OK`, or `ERROR` if it has no fields. -/
def Returns (library : Library β) (pool : Pool β) (key : Utf16) (record : Utf16 → Option Utf16) : Prop :=
  ∀ missing, ∃ result, read library ⟨none, missing, none, false⟩ pool key none = some (if result.keys.isEmpty then .error else .ok, result) ∧
    ∀ f, result.lookup f = (record f).map fun s => .string (.ofString s)

/-- An `update` that does not succeed leaves the record as it was, and one that does has put the values over it. -/
def Atomic (library : Library β) (pool' : Pool β) (key : Utf16) (record : Utf16 → Option Utf16) (values : Values Utf16) (status : RadosStatus) : Prop :=
  (status ≠ .ok → Returns library pool' key record) ∧
    (status = .ok → Returns library pool' key fun f => (textOf values f).or (record f))

/-- UTF-8 can encode the names and the strings of the values. -/
def WholeValues (values : Values Utf16) : Prop := ∀ f s, textOf values f = some s → WellFormed f = true ∧ WellFormed s = true

section

variable {library : Library β} {calls : Calls} {pool pool' : Pool β} {key : Utf16} {values : Values Utf16} {record : Utf16 → Option Utf16}
  {status : RadosStatus} {json : JSONObject}

/-! ### What is read -/

theorem getString_inj {json : JSONObject} {f : Utf16} {o : Option Utf16} :
    getString json f = o.map (fun s => ByteIterator.string (.ofString s)) ↔ json.lookup f = o := by
  refine ⟨fun h => ?_, fun h => by rw [getString, h]⟩
  refine Option.map_injective (fun s t hst => ?_) h
  have hsame : StringByteIterator.ofString s = StringByteIterator.ofString t := ByteIterator.string.inj hst
  exact congrArg StringByteIterator.str hsame

/-- All the strings of an object are read. -/
theorem read_all (missing : RadosException) {bytes : β} (hbytes : pool key = some bytes) (hjson : library.ofBytes bytes = some json) :
    ∃ result, read library ⟨none, missing, none, false⟩ pool key none = some (if result.keys.isEmpty then .error else .ok, result) ∧
      ∀ f, result.lookup f = getString json f := by
  obtain ⟨result, hput⟩ := exists_putAll (fun name _ => ⟨getString json name, rfl⟩) ∅
  have hall : (json.keys.all fun name => decide (name ∈ json)) = true :=
    List.all_eq_true.mpr fun name hname => decide_eq_true (AList.mem_keys.mpr hname)
  refine ⟨result, ?_, fun f => ?_⟩
  · rw [read]
    dsimp only
    rw [hbytes]
    dsimp only
    rw [if_neg Bool.false_ne_true, hjson, Option.bind_eq_bind, Option.bind_some, Option.getD_none, if_pos hall, hput]
    rfl
  · by_cases hf : f ∈ json.keys
    · exact (Except.ok.inj (putAll_lookup_empty (by simpa using json.keys_nodup) hput hf)).symm
    · rw [putAll_lookup_of_notMem hput (by simpa using hf), AList.lookup_empty, getString, AList.lookup_eq_none.mpr (mt AList.mem_keys.mp hf),
        Option.map_none]

/-- A record is returned if there is an object that has it. -/
theorem returns_iff : Returns library pool key record ↔
    ∃ bytes json, pool key = some bytes ∧ library.ofBytes bytes = some json ∧ ∀ f, json.lookup f = record f := by
  constructor
  · intro h
    obtain ⟨result, hread, hresult⟩ := h ⟨-2, []⟩
    cases hbytes : pool key with
    | none =>
      simp only [read, hbytes, Option.some.injEq, Prod.mk.injEq] at hread
      have hstatus := hread.1
      split_ifs at hstatus
    | some bytes =>
      cases hjson : library.ofBytes bytes with
      | none => simp [read, hbytes, hjson] at hread
      | some json =>
        obtain ⟨result', hread', hresult'⟩ := read_all ⟨-2, []⟩ hbytes hjson
        have hsame : result = result' := (Prod.mk.inj (Option.some.inj (hread.symm.trans hread'))).2
        refine ⟨bytes, json, rfl, hjson, fun f => getString_inj.mp ?_⟩
        rw [← hresult', ← hsame, hresult]
  · rintro ⟨bytes, json, hbytes, hjson, hrecord⟩ missing
    obtain ⟨result, hread, hresult⟩ := read_all missing hbytes hjson
    exact ⟨result, hread, fun f => (hresult f).trans (getString_inj.mpr (hrecord f))⟩

/-! ### What is written -/

/-- The object that is written has the strings of the values, each of which has one. -/
theorem lookup_putStrings (h : putAll Sigma.fst (fun e => e.2.toString.map fun r => some r.1) values.entries ∅ = .ok json) (f : Utf16) :
    json.lookup f = textOf values f ∧ (json.lookup f = none ↔ f ∉ values) := by
  cases hf : values.lookup f with
  | none =>
    have hnot : f ∉ values := AList.lookup_eq_none.mp hf
    have hnone : json.lookup f = none := by rw [putAll_lookup_of_notMem h (mt AList.mem_keys.mpr hnot), AList.lookup_empty]
    exact ⟨by rw [hnone, textOf, hf, Option.bind_none], iff_of_true hnone hnot⟩
  | some it =>
    have hin : f ∈ values := AList.lookup_isSome.mp (Option.isSome_of_eq_some hf)
    have hstring := putAll_entries h hf
    dsimp only at hstring
    cases hit : it.toString with
    | error e =>
      rw [hit] at hstring
      cases hstring
    | ok r =>
      rw [hit] at hstring
      have hjson : json.lookup f = some r.1 := (Except.ok.inj hstring).symm
      refine ⟨?_, iff_of_false (hjson ▸ Option.some_ne_none r.1) (not_not.mpr hin)⟩
      rw [hjson, textOf, hf, Option.bind_some, hit]
      rfl

/-- What is there after an `update` of an object that was: the old object, none, or one of the values. -/
theorem update_cases (hpool : pool key ≠ none) (h : update library calls pool key values = .ok (status, pool')) :
    (calls.remove ≠ none ∧ status ≠ .ok ∧ pool' = pool) ∨
      (calls.remove = none ∧ calls.write ≠ none ∧ status ≠ .ok ∧ pool' key = none) ∨
      (calls.remove = none ∧ calls.write = none ∧ status = .ok ∧
        ∃ json, (∀ f, json.lookup f = textOf values f ∧ (json.lookup f = none ↔ f ∉ values)) ∧ pool' key = some (library.toBytes json)) := by
  obtain ⟨bytes, hbytes⟩ := Option.ne_none_iff_exists'.mp hpool
  cases hremove : calls.remove with
  | some e =>
    rw [update, delete, hremove] at h
    cases h
    exact .inl ⟨Option.some_ne_none e, RadosStatus.noConfusion, rfl⟩
  | none =>
    have hdelete : delete calls pool key = (.ok, Function.update pool key none) := by
      rw [delete, hremove, hbytes]
    rw [update, hdelete, if_pos rfl] at h
    dsimp only at h
    obtain ⟨json, hput, h⟩ := bind_inv h
    cases hwrite : calls.write with
    | some e =>
      rw [hwrite] at h
      cases h
      exact .inr (.inl ⟨rfl, Option.some_ne_none e, RadosStatus.noConfusion, Function.update_self ..⟩)
    | none =>
      rw [hwrite] at h
      cases h
      refine .inr (.inr ⟨rfl, rfl, rfl, json, lookup_putStrings hput, ?_⟩)
      rw [Function.update_self, Function.update_self, library.write_none]

/-- The values that are written are returned just if UTF-8 can encode them, and they have all the fields of the record. -/
theorem returns_values_iff (hjson : ∀ f, json.lookup f = textOf values f) (hpool : pool key = some (library.toBytes json)) :
    Returns library pool key (fun f => (textOf values f).or (record f)) ↔ WholeValues values ∧ ∀ f, record f ≠ none → json.lookup f ≠ none := by
  rw [returns_iff]
  constructor
  · rintro ⟨bytes, json', hbytes, hjson', hrecord⟩
    obtain rfl : library.toBytes json = bytes := Option.some.inj (hpool.symm.trans hbytes)
    have hwhole : WholeValues values := fun f s hs => library.whole_of_ofBytes json json' hjson' f s (by rw [hrecord, hs, Option.some_or])
    obtain ⟨json'', hjson'', hsame⟩ := library.ofBytes_toBytes json fun f s hs => hwhole f s ((hjson f).symm.trans hs)
    obtain rfl : json' = json'' := Option.some.inj (hjson'.symm.trans hjson'')
    refine ⟨hwhole, fun f hf hnone => hf ?_⟩
    have hor := hrecord f
    rw [hsame, ← hjson, hnone, Option.none_or] at hor
    exact hor.symm
  · rintro ⟨hwhole, hall⟩
    obtain ⟨json', hjson', hsame⟩ := library.ofBytes_toBytes json fun f s hs => hwhole f s ((hjson f).symm.trans hs)
    refine ⟨_, json', hpool, hjson', fun f => ?_⟩
    rw [hsame, ← hjson]
    cases hlookup : json.lookup f with
    | some s => rfl
    | none =>
      have hnone : record f = none := by_contra fun hne => hall f hne hlookup
      rw [Option.none_or, hnone]

/-- An object that has been removed is not there unless the new one is written, and that is not the old one with the values put over it unless it
has all of its fields. -/
theorem given_of_atomic (hrecord : Returns library pool key record) (h : update library calls pool key values = .ok (status, pool'))
    (hatomic : Atomic library pool' key record values status) :
    calls.remove ≠ none ∨ (calls.write = none ∧ WholeValues values ∧ ∀ f, record f ≠ none → f ∈ values) := by
  obtain ⟨bytes, -, hbytes, -, -⟩ := returns_iff.mp hrecord
  have hpool : pool key ≠ none := hbytes ▸ Option.some_ne_none bytes
  rcases update_cases hpool h with ⟨hremove, -, -⟩ | ⟨-, -, hstatus, hnone⟩ | ⟨-, hwrite, hstatus, json, hjson, hnew⟩
  · exact .inl hremove
  · obtain ⟨bytes', -, hbytes', -, -⟩ := returns_iff.mp (hatomic.1 hstatus)
    rw [hnone] at hbytes'
    cases hbytes'
  · obtain ⟨hwhole, hall⟩ := (returns_values_iff (fun f => (hjson f).1) hnew).mp (hatomic.2 hstatus)
    exact .inr ⟨hwrite, hwhole, fun f hf => by_contra fun hnot => hall f hf ((hjson f).2.mpr hnot)⟩

/-- **An update is atomic** just if the object is not removed, or it is and the new one is written, can be encoded, and has all the fields of the
old one. -/
theorem atomic_iff (hrecord : Returns library pool key record) (h : update library calls pool key values = .ok (status, pool')) :
    Atomic library pool' key record values status ↔
      calls.remove ≠ none ∨ (calls.write = none ∧ WholeValues values ∧ ∀ f, record f ≠ none → f ∈ values) := by
  refine ⟨given_of_atomic hrecord h, fun hgiven => ?_⟩
  obtain ⟨bytes, -, hbytes, -, -⟩ := returns_iff.mp hrecord
  have hpool : pool key ≠ none := hbytes ▸ Option.some_ne_none bytes
  rcases update_cases hpool h with ⟨-, hstatus, rfl⟩ | ⟨hremove, hwrite, -, -⟩ | ⟨hremove, -, hstatus, json, hjson, hnew⟩
  · exact ⟨fun _ => hrecord, fun hok => absurd hok hstatus⟩
  · rcases hgiven with hremoved | ⟨hwritten, -, -⟩
    · exact absurd hremove hremoved
    · exact absurd hwritten hwrite
  · obtain ⟨-, hwhole, hall⟩ := hgiven.resolve_left (not_not.mpr hremove)
    refine ⟨fun hfailed => absurd hstatus hfailed, fun _ => (returns_values_iff (fun f => (hjson f).1) hnew).mpr ⟨hwhole, fun f hf hnone => ?_⟩⟩
    exact (hjson f).2.mp hnone (hall f hf)

end

/-! ### A library -/

/-- The object as its names and its strings come back from UTF-8. -/
def scrubbed (json : JSONObject) : JSONObject :=
  (json.entries.map fun e => (⟨scrub e.1, scrub e.2⟩ : Sigma fun _ : Utf16 => Utf16)).toAList

theorem whole_scrubbed (json : JSONObject) : Whole (scrubbed json) := by
  intro f s hs
  rw [scrubbed, AList.lookup_to_alist] at hs
  obtain ⟨e, -, he⟩ := List.mem_map.mp (List.of_mem_dlookup hs)
  cases he
  exact ⟨(encode_scrub e.1).1, (encode_scrub e.2).1⟩

theorem lookup_scrubbed {json : JSONObject} (h : Whole json) (f : Utf16) : (scrubbed json).lookup f = json.lookup f := by
  have hsame : ∀ e ∈ json.entries, (⟨scrub e.1, scrub e.2⟩ : Sigma fun _ : Utf16 => Utf16) = e := by
    intro e he
    obtain ⟨hname, hstring⟩ := h e.1 e.2 (AList.mem_lookup_iff.mpr he)
    rw [scrub_of_wellFormed hname, scrub_of_wellFormed hstring]
  rw [scrubbed, List.map_congr_left hsame, List.map_id', AList.lookup_to_alist]
  rfl

/-- A library that keeps the objects as they come back. -/
def scrubbing : Library JSONObject where
  toBytes := scrubbed
  ofBytes := some
  write := fun bytes _ => bytes
  write_none := fun _ => rfl
  ofBytes_toBytes := fun json h => ⟨scrubbed json, rfl, lookup_scrubbed h⟩
  whole_of_ofBytes := fun json _ h => Option.some.inj h ▸ whole_scrubbed json

/-- A pool in which each object has one field. -/
def onePool : Pool JSONObject := fun _ => some (AList.singleton [0x66] [0x31])

theorem returns_onePool (key : Utf16) : Returns scrubbing onePool key (AList.singleton [0x66] [0x31] : JSONObject).lookup :=
  returns_iff.mpr ⟨_, _, rfl, rfl, fun _ => rfl⟩

/-- No call fails. -/
def noFailure : Calls := ⟨none, ⟨-2, []⟩, none⟩

/-- A map of one field. -/
def oneValue (f : Utf16) : Values Utf16 := AList.singleton f (.string (.ofString [0x32]))

/-- Another field is given than the one there is: the update succeeds, and that one is gone. -/
theorem not_atomic_other : ∃ pool', update scrubbing noFailure onePool [0x6B] (oneValue [0x67]) = .ok (.ok, pool') ∧
    ¬ Atomic scrubbing pool' [0x6B] (AList.singleton [0x66] [0x31] : JSONObject).lookup (oneValue [0x67]) .ok := by
  obtain ⟨pool', hupdate⟩ : ∃ pool', update scrubbing noFailure onePool [0x6B] (oneValue [0x67]) = .ok (.ok, pool') := ⟨_, rfl⟩
  refine ⟨pool', hupdate, fun hatomic => ?_⟩
  rcases given_of_atomic (returns_onePool [0x6B]) hupdate hatomic with hremove | ⟨-, -, hall⟩
  · exact hremove rfl
  · exact absurd (hall [0x66] (by decide)) (by decide)

theorem atomic_iff_same : ∃ pool', update scrubbing noFailure onePool [0x6B] (oneValue [0x66]) = .ok (.ok, pool') ∧
    (Atomic scrubbing pool' [0x6B] (AList.singleton [0x66] [0x31] : JSONObject).lookup (oneValue [0x66]) .ok ↔
      noFailure.remove ≠ none ∨ (noFailure.write = none ∧ WholeValues (oneValue [0x66]) ∧
        ∀ f, (AList.singleton [0x66] [0x31] : JSONObject).lookup f ≠ none → f ∈ oneValue [0x66])) := by
  obtain ⟨pool', hupdate⟩ : ∃ pool', update scrubbing noFailure onePool [0x6B] (oneValue [0x66]) = .ok (.ok, pool') := ⟨_, rfl⟩
  exact ⟨pool', hupdate, atomic_iff (returns_onePool [0x6B]) hupdate⟩

end YcsbIvs.Rados
