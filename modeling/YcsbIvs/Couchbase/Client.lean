import YcsbIvs.Core.Consumption
import YcsbIvs.Extend.Inherited

/-!
# The Couchbase binding

`CouchbaseClient` stores a record as one object: the text of a JSON object, or a map of strings, by the setting
`couchbase.json`. `decode` reads either. Of a JSON object it leaves out the fields it is asked for, and returns the others; of a map it
returns all of them. `update` replaces the object.

The text of a JSON object is kept as the object. What `encode` makes has no `null` in it (`encode_noNull`).
-/

namespace YcsbIvs.Couchbase

open YcsbIvs.Foundations YcsbIvs.Core YcsbIvs.Extend

/-- `JsonNode`, as the value of a field. -/
inductive JsonNode where
  /-- `null`. -/
  | null
  /-- A string. -/
  | text (s : Utf16)
  deriving DecidableEq

/-- `asText()`. -/
def JsonNode.asText : JsonNode → Utf16
  | null => [0x6E, 0x75, 0x6C, 0x6C]
  | text s => s

/-- What is stored under a key. -/
inductive Stored where
  /-- The text of a JSON object. -/
  | json (object : AList fun _ : Utf16 => JsonNode)
  /-- A `HashMap<String, String>`. -/
  | map (strings : AList fun _ : Utf16 => Utf16)

/-- The values of its fields. -/
def Stored.fields : Stored → Utf16 → Option JsonNode
  | json object, f => object.lookup f
  | map strings, f => (strings.lookup f).map .text

/-- The objects, by formatted key. -/
abbrev Bucket := Utf16 → Option Stored

/-- The settings. -/
structure Config where
  /-- `useJson`. -/
  useJson : Bool
  /-- `checkFutures`. -/
  checkFutures : Bool

/-- What the calls of the driver come to. -/
structure Calls where
  /-- `client.get` throws. -/
  getThrows : Bool
  /-- `client.replace` throws. -/
  replaceThrows : Bool
  /-- The status of its future is a success. -/
  isSuccess : Bool
  /-- The object has been replaced: so it is after a success, and may be otherwise. -/
  replaced : Bool
  /-- After a success it is. -/
  replaced_of_isSuccess : isSuccess = true → replaced = true

/-- `formatKey(prefix, key)`. -/
def formatKey (table key : Utf16) : Utf16 := table ++ 0x3A :: key

/-- What `decode` puts for a field of a JSON object, if anything. -/
def decodeField (fields : Option (List Utf16)) (jsonField : Sigma fun _ : Utf16 => JsonNode) : Except Throwable (Option ByteIterator) :=
  let checkFields := fields.any fun fields => !fields.isEmpty
  -- it is the fields that are asked for that are skipped
  if checkFields && fields.any fun fields => fields.contains jsonField.1 then .ok none
  else if jsonField.2 = .null then .ok none
  else .ok (some (.string (.ofString jsonField.2.asText)))

/-- `decode(source, fields, dest)`; nothing if it throws, as it does for an object of the other kind. -/
def decode (config : Config) (source : Stored) (fields : Option (List Utf16)) : Option (Values Utf16) :=
  if config.useJson then
    match source with
    | .json object => (putAll Sigma.fst (decodeField fields) object.entries ∅).toOption
    | .map _ => none
  else
    match source with
    | .json _ => none
    | .map strings => (putAll Sigma.fst (fun entry => .ok (some (.string (.ofString entry.2)))) strings.entries ∅).toOption

/-- `read(table, key, fields, result)`. -/
def read (config : Config) (calls : Calls) (bucket : Bucket) (table key : Utf16) (fields : Option (List Utf16)) :
    Except Throwable (Status × Values Utf16 × Bucket) :=
  if calls.getThrows then .ok (.error, ∅, bucket)
  else
    match bucket (formatKey table key) with
    | none => .ok (.error, ∅, bucket)
    | some loaded =>
      match decode config loaded fields with
      | none => .ok (.error, ∅, bucket)
      | some result => .ok (.ok, result, bucket)

/-- `encode(source)`. -/
def encode (config : Config) (source : Values Utf16) : Except Throwable Stored := do
  let (stringMap, _) ← getStringMap source.entries
  if config.useJson then do
    let node ← putAll Prod.fst (fun pair => .ok (some (.text pair.2))) stringMap ∅
    .ok (.json node)
  else do
    let map ← putAll Prod.fst (fun pair => .ok (some pair.2)) stringMap ∅
    .ok (.map map)

/-- `checkFutureStatus(future)`. -/
def checkFutureStatus (config : Config) (calls : Calls) : Status :=
  if config.checkFutures then if calls.isSuccess then .ok else .error else .ok

/-- `update(table, key, values)`. What `encode` or `replace` throws is caught. -/
def update (config : Config) (calls : Calls) (bucket : Bucket) (table key : Utf16) (values : Values Utf16) :
    Except Throwable (Status × Bucket) :=
  match encode config values with
  | .error _ => .ok (.error, bucket)
  | .ok object =>
    let replaced : Bucket :=
      if calls.replaced && (bucket (formatKey table key)).isSome then fun k => if k = formatKey table key then some object else bucket k
      else bucket
    .ok (if calls.replaceThrows then .error else checkFutureStatus config calls, replaced)

/-! ### What is read and written -/

theorem ok_of_toOption {α : Type} {x : Except Throwable α} {a : α} (h : x.toOption = some a) : x = .ok a := by
  cases x with
  | error e => cases h
  | ok a' =>
    cases h
    rfl

theorem decode_json {config : Config} {object : AList fun _ : Utf16 => JsonNode} {fields : Option (List Utf16)} {result : Values Utf16}
    (h : decode config (.json object) fields = some result) : putAll Sigma.fst (decodeField fields) object.entries ∅ = .ok result := by
  rw [decode] at h
  split_ifs at h
  exact ok_of_toOption h

/-- A field of a JSON object that `decode` was asked for is not there. -/
theorem lookup_decode_of_mem {config : Config} {object : AList fun _ : Utf16 => JsonNode} {fields : List Utf16} {result : Values Utf16}
    (h : decode config (.json object) (some fields) = some result) {f : Utf16} (hf : f ∈ fields) : result.lookup f = none := by
  have hput := decode_json h
  cases hobject : object.lookup f with
  | none =>
    have hnot : f ∉ object.entries.map Sigma.fst := fun hmem => AList.lookup_eq_none.mp hobject (AList.mem_keys.mpr hmem)
    rw [putAll_lookup_of_notMem hput hnot, AList.lookup_empty]
  | some node =>
    have hskip : decodeField (some fields) ⟨f, node⟩ = .ok none := by
      have hne : fields.isEmpty = false := List.isEmpty_eq_false_iff.mpr (List.ne_nil_of_mem hf)
      simp [decodeField, hne, hf]
    exact (Except.ok.inj (hskip.symm.trans (putAll_entries hput hobject))).symm

/-- Any other is, with its text; so are all fields of a map. -/
theorem lookup_decode {config : Config} {source : Stored} {fields : List Utf16} {result : Values Utf16}
    (h : decode config source (some fields) = some result) {f s : Utf16} (hf : source.fields f = some (.text s)) (hnot : f ∉ fields) :
    result.lookup f = some (.string (.ofString s)) := by
  cases source with
  | json object =>
    have hkeep : decodeField (some fields) ⟨f, .text s⟩ = .ok (some (.string (.ofString s))) := by
      simp [decodeField, hnot, JsonNode.asText]
    exact (Except.ok.inj (hkeep.symm.trans (putAll_entries (decode_json h) hf))).symm
  | map strings =>
    obtain ⟨s', hs, heq⟩ := Option.map_eq_some_iff.mp hf
    cases heq
    rw [decode] at h
    split_ifs at h
    exact (Except.ok.inj (putAll_entries (ok_of_toOption h) hs)).symm

/-- What is encoded of a field is its text. -/
theorem fields_encode {config : Config} {source : Values Utf16} {object : Stored} (h : encode config source = .ok object) {f : Utf16}
    {it : ByteIterator} (hf : source.lookup f = some it) : ∃ s it', it.toString = .ok (s, it') ∧ object.fields f = some (.text s) := by
  obtain ⟨⟨stringMap, entries⟩, hmap, h⟩ := bind_inv h
  obtain ⟨s, it', hs, hmem⟩ := mem_getStringMap hmap (AList.mem_lookup_iff.mp hf)
  have hnd : (stringMap.map Prod.fst).Nodup := (keys_getStringMap hmap).symm ▸ source.nodupKeys
  refine ⟨s, it', hs, ?_⟩
  dsimp only at h
  split_ifs at h
  · obtain ⟨node, hnode, h⟩ := bind_inv h
    cases h
    exact (Except.ok.inj (putAll_lookup_empty hnd hnode hmem)).symm
  · obtain ⟨map, hput, h⟩ := bind_inv h
    cases h
    rw [Stored.fields, ← Except.ok.inj (putAll_lookup_empty hnd hput hmem), Option.map_some]

/-- There is no null in it. -/
theorem encode_noNull {config : Config} {source : Values Utf16} {object : Stored} (h : encode config source = .ok object) (f : Utf16) :
    object.fields f ≠ some .null := by
  obtain ⟨⟨stringMap, entries⟩, hmap, h⟩ := bind_inv h
  have hnd : (stringMap.map Prod.fst).Nodup := (keys_getStringMap hmap).symm ▸ source.nodupKeys
  dsimp only at h
  split_ifs at h
  · obtain ⟨node, hnode, h⟩ := bind_inv h
    cases h
    intro hnull
    obtain ⟨pair, hpair, rfl⟩ := List.mem_map.mp (mem_of_putAll hnode (AList.lookup_isSome.mp (Option.isSome_of_eq_some hnull)))
    have htext := Except.ok.inj (putAll_lookup_empty hnd hnode hpair)
    cases htext.trans hnull
  · obtain ⟨map, hput, h⟩ := bind_inv h
    cases h
    intro hnull
    obtain ⟨s, -, heq⟩ := Option.map_eq_some_iff.mp hnull
    cases heq

end YcsbIvs.Couchbase
