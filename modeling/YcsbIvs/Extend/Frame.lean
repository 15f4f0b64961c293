import YcsbIvs.Extend.Inherited
import YcsbIvs.Geode.Client
import YcsbIvs.Aerospike.Client
import YcsbIvs.Couchbase.Client
import YcsbIvs.GoogleDatastore.Client

/-!
# What an inherited extend leaves alone

Four bindings inherit `extend` over an `update` that writes the whole record: of Geode, Aerospike, Couchbase and Google Cloud
Datastore. It is given what `extend` has read, and `extend` reads the fields it is to extend. So the other fields are lost, unless `read`
fills them in unasked. That of Couchbase does: of maps of strings it fills in all fields, and of a JSON object all but those it was asked for, so
that `extend` of any field throws.

**The fields that are not named are kept just by the binding of Couchbase** (`unnamed_kept_iff`).
-/

namespace YcsbIvs.Extend

open YcsbIvs.Foundations YcsbIvs.Core

/-! ### The bindings -/

/-- A binding that inherits `extend`. -/
structure Inheriting where
  /-- What is stored. -/
  State : Type
  /-- What an operation returns. -/
  Reply : Type
  /-- The value of a field, as it is stored. -/
  Value : Type
  /-- Replies can be compared. -/
  decEq : DecidableEq Reply
  /-- `Status.OK`. -/
  ok : Reply
  /-- `read(table, key, fields, result)`, from an empty `result`. -/
  read : State → Utf16 → Utf16 → Option (List Utf16) → Except Throwable (Reply × Values Utf16 × State)
  /-- `update(table, key, values)`. -/
  update : State → Utf16 → Utf16 → Values Utf16 → Except Throwable (Reply × State)
  /-- The record that is stored. -/
  record : State → Utf16 → Utf16 → Option (Utf16 → Option Value)
  /-- The binding can have written such a record. -/
  Written : (Utf16 → Option Value) → Prop

attribute [instance] Inheriting.decEq

/-- `extend(table, key, values, maxfieldlength)`. -/
def Inheriting.extend (B : Inheriting) (s : B.State) (table key : Utf16) (values : Values Utf16) (maxfieldlength : ℤ) :
    Except Throwable (B.Reply × Values Utf16 × B.State) :=
  inherited B.ok B.read B.update s table key values maxfieldlength

/-- A binding, with its settings and what the calls it makes come to. -/
inductive Binding where
  /-- `GeodeClient`. -/
  | geode (calls : Geode.Calls)
  /-- `AerospikeClient`. -/
  | aerospike (calls : Aerospike.Calls)
  /-- `CouchbaseClient`. -/
  | couchbase (config : Couchbase.Config) (calls : Couchbase.Calls)
  /-- `GoogleDatastoreClient`. -/
  | googleDatastore (config : GoogleDatastore.Config) (calls : GoogleDatastore.Calls)

/-- What it inherits `extend` over. -/
def Binding.inheriting : Binding → Inheriting
  | geode calls =>
    { State := Geode.Cache, Reply := Status, Value := Bytes, decEq := inferInstance, ok := .ok
      read := Geode.read calls, update := Geode.update calls
      record := fun cache table key => (cache table key).map fun val f => val.lookup f
      Written := fun _ => True }
  | aerospike calls =>
    { State := Aerospike.Records, Reply := Status, Value := Bytes, decEq := inferInstance, ok := .ok
      read := Aerospike.read calls, update := Aerospike.update calls
      record := fun records table key => (records table key).map fun bins f => bins.lookup f
      Written := fun _ => True }
  | couchbase config calls =>
    { State := Couchbase.Bucket, Reply := Status, Value := Couchbase.JsonNode, decEq := inferInstance, ok := .ok
      read := Couchbase.read config calls, update := Couchbase.update config calls
      record := fun bucket table key => (bucket (Couchbase.formatKey table key)).map Couchbase.Stored.fields
      Written := fun r => ∀ f, r f ≠ some .null }
  | googleDatastore config calls =>
    { State := GoogleDatastore.Datastore, Reply := GoogleDatastore.Reply, Value := GoogleDatastore.Value, decEq := inferInstance
      ok := .status .ok, read := GoogleDatastore.read config calls, update := GoogleDatastore.update config calls
      record := fun datastore table key =>
        (datastore (GoogleDatastore.buildPrimaryKey config table key)).map fun properties f => properties.lookup f
      Written := fun _ => True }

/-- It is `CouchbaseClient`. -/
def Binding.IsCouchbase : Binding → Prop
  | couchbase _ _ => True
  | _ => False

/-! ### Bindings that replace what they have not read -/

/-- A field that `extend` does not name is lost, if `read` fills in what it was asked for, and `update` writes what it was given. -/
theorem unnamed_lost {B : Inheriting} {s s' : B.State} {table key : Utf16} {values values' : Values Utf16} {maxfieldlength : ℤ}
    (hread : ∀ {fields result s₁}, B.read s table key (some fields) = .ok (B.ok, result, s₁) → ∀ f ∈ result, f ∈ fields)
    (hupdate : ∀ {s values s' r'}, B.update s table key values = .ok (B.ok, s') → B.record s' table key = some r' →
      ∀ f v, r' f = some v → f ∈ values)
    (h : B.extend s table key values maxfieldlength = .ok (B.ok, values', s')) {r' : Utf16 → Option B.Value}
    (hr' : B.record s' table key = some r') {f : Utf16} (hf : f ∉ values) (v : B.Value) : r' f ≠ some v := by
  intro hv
  obtain ⟨result, s₁, result', hresult, hloop, hup⟩ := inherited_ok h
  have hmem := mem_of_extendLoop values.nodupKeys hloop (hupdate hup hr' f v hv)
  exact hf (AList.mem_keys.mp (hread hresult f hmem))

/-- The fields that are not named are kept. -/
def UnnamedKept (B : Inheriting) (s' : B.State) (table key : Utf16) (r : Utf16 → Option B.Value) (values : Values Utf16) : Prop :=
  ∀ f v, r f = some v → f ∉ values → ∃ r', B.record s' table key = some r' ∧ r' f = some v

/-- Of a binding that replaces they are not, if there are any. -/
theorem not_unnamedKept {B : Inheriting} {s s' : B.State} {table key : Utf16} {values values' : Values Utf16} {maxfieldlength : ℤ}
    (hread : ∀ {fields result s₁}, B.read s table key (some fields) = .ok (B.ok, result, s₁) → ∀ f ∈ result, f ∈ fields)
    (hupdate : ∀ {s values s' r'}, B.update s table key values = .ok (B.ok, s') → B.record s' table key = some r' →
      ∀ f v, r' f = some v → f ∈ values)
    (h : B.extend s table key values maxfieldlength = .ok (B.ok, values', s')) {r : Utf16 → Option B.Value}
    (hproper : ∃ f v, r f = some v ∧ f ∉ values) : ¬ UnnamedKept B s' table key r values := by
  intro hkept
  obtain ⟨f, v, hv, hf⟩ := hproper
  obtain ⟨r', hr', hv'⟩ := hkept f v hv hf
  exact unnamed_lost hread hupdate h hr' hf v hv'

/-! ### The binding that reads the rest -/

section

variable {config : Couchbase.Config} {calls : Couchbase.Calls} {bucket bucket' : Couchbase.Bucket} {table key : Utf16}
  {values values' : Values Utf16} {maxfieldlength : ℤ}

/-- What a read of an object returns is what `decode` makes of it. -/
theorem couchbase_read {fields : List Utf16} {result : Values Utf16} {bucket₁ : Couchbase.Bucket}
    (h : Couchbase.read config calls bucket table key (some fields) = .ok (.ok, result, bucket₁)) :
    bucket₁ = bucket ∧ ∃ loaded, bucket (Couchbase.formatKey table key) = some loaded ∧
      Couchbase.decode config loaded (some fields) = some result := by
  rw [Couchbase.read] at h
  split_ifs at h
  · cases h
  · split at h
    · cases h
    · next loaded hloaded =>
      split at h
      · cases h
      · next result' hdecode =>
        cases h
        exact ⟨rfl, loaded, hloaded, hdecode⟩

/-- An update leaves the object, or replaces it with what it encodes. -/
theorem couchbase_update {st : Status} (h : Couchbase.update config calls bucket table key values = .ok (st, bucket')) :
    bucket' = bucket ∨ ∃ object, Couchbase.encode config values = .ok object ∧ bucket' (Couchbase.formatKey table key) = some object := by
  rw [Couchbase.update] at h
  split at h
  · cases h
    exact .inl rfl
  · next object hencode =>
    cases h
    split_ifs
    · exact .inr ⟨object, hencode, if_pos rfl⟩
    · exact .inl rfl

/-- Of a JSON object no field is extended: `read` has left it out, and the loop does not find it. -/
theorem couchbase_json_extends_nothing (hjson : config.useJson = true)
    (h : (Binding.couchbase config calls).inheriting.extend bucket table key values maxfieldlength = .ok (.ok, values', bucket')) (f : Utf16) :
    f ∉ values := by
  intro hf
  obtain ⟨result, bucket₁, result', hread, hloop, -⟩ := inherited_ok h
  obtain ⟨-, loaded, -, hdecode⟩ := couchbase_read hread
  have hfield : f ∈ values.keys := AList.mem_keys.mp hf
  obtain ⟨read, given, left, -, hfound, -⟩ := (extendLoop_lookup values.nodupKeys hloop).2 f hfield
  cases loaded with
  | json object => cases (Couchbase.lookup_decode_of_mem hdecode hfield).symm.trans hfound
  | map strings => simp [Couchbase.decode, hjson] at hdecode

/-- **`CouchbaseClient` keeps the fields that are not named.** -/
theorem couchbase_kept {r : Utf16 → Option Couchbase.JsonNode}
    (hr : (bucket (Couchbase.formatKey table key)).map Couchbase.Stored.fields = some r) (hwritten : ∀ f, r f ≠ some .null)
    (h : (Binding.couchbase config calls).inheriting.extend bucket table key values maxfieldlength = .ok (.ok, values', bucket')) :
    UnnamedKept (Binding.couchbase config calls).inheriting bucket' table key r values := by
  obtain ⟨result, bucket₁, result', hread, hloop, hupdate⟩ := inherited_ok h
  obtain ⟨rfl, loaded, hloaded, hdecode⟩ := couchbase_read hread
  rw [hloaded, Option.map_some, Option.some.injEq] at hr
  subst hr
  intro f v hv hf
  obtain rfl | ⟨object, hencode, hobject⟩ := couchbase_update hupdate
  · exact ⟨loaded.fields, congrArg (Option.map Couchbase.Stored.fields) hloaded, hv⟩
  · refine ⟨object.fields, congrArg (Option.map Couchbase.Stored.fields) hobject, ?_⟩
    cases v with
    | null => exact absurd hv (hwritten f)
    | text s =>
      have hnot : f ∉ values.keys := fun hmem => hf (AList.mem_keys.mpr hmem)
      have hresult : result'.lookup f = some (.string (.ofString s)) := by
        rw [(extendLoop_lookup values.nodupKeys hloop).1 f hnot, Couchbase.lookup_decode hdecode hv hnot]
      obtain ⟨s', it', htext, hfield⟩ := Couchbase.fields_encode hencode hresult
      cases htext
      exact hfield

end

/-- **The fields that `extend` does not name are kept just by `CouchbaseClient`.** -/
theorem unnamed_kept_iff (b : Binding) {s s' : b.inheriting.State} {table key : Utf16} {r : Utf16 → Option b.inheriting.Value}
    {values values' : Values Utf16} {maxfieldlength : ℤ} (hr : b.inheriting.record s table key = some r) (hwritten : b.inheriting.Written r)
    (hproper : ∃ f v, r f = some v ∧ f ∉ values)
    (h : b.inheriting.extend s table key values maxfieldlength = .ok (b.inheriting.ok, values', s')) :
    UnnamedKept b.inheriting s' table key r values ↔ b.IsCouchbase := by
  cases b with
  | geode calls =>
    refine iff_of_false (not_unnamedKept (fun hread f => Geode.mem_of_read hread) (fun hupdate hr' f v hv => ?_) h hproper) id
    obtain ⟨val, hval, hmem⟩ := Geode.update_ok hupdate
    cases (congrArg (Option.map _) hval).symm.trans hr'
    exact hmem f (AList.lookup_isSome.mp (Option.isSome_of_eq_some hv))
  | aerospike calls =>
    refine iff_of_false (not_unnamedKept (fun hread f => Aerospike.mem_of_read hread) (fun hupdate hr' f v hv => ?_) h hproper) id
    obtain ⟨bins, hbins, hmem⟩ := Aerospike.update_ok hupdate
    cases (congrArg (Option.map _) hbins).symm.trans hr'
    exact hmem f (AList.lookup_isSome.mp (Option.isSome_of_eq_some hv))
  | couchbase config calls => exact iff_of_true (couchbase_kept hr hwritten h) trivial
  | googleDatastore config calls =>
    refine iff_of_false (not_unnamedKept (fun hread f => GoogleDatastore.mem_of_read hread) (fun hupdate hr' f v hv => ?_) h hproper) id
    obtain ⟨entity, hentity, hmem⟩ := GoogleDatastore.update_ok hupdate
    cases (congrArg (Option.map _) hentity).symm.trans hr'
    exact hmem f (AList.lookup_isSome.mp (Option.isSome_of_eq_some hv))

/-- `CouchbaseClient` extends one string of a map, and keeps the other. -/
theorem unnamed_kept_strings :
    let b := Binding.couchbase ⟨false, true⟩ ⟨false, false, true, true, fun _ => rfl⟩
    let stored : Couchbase.Stored := .map ((AList.singleton [0x66] [0x61]).insert [0x67] [0x62])
    let values : Values Utf16 := AList.singleton [0x66] (.string (.ofString [0x63]))
    ∃ values' s', b.inheriting.extend (fun _ => some stored) [0x74] [0x6B] values 10 = .ok (.ok, values', s') ∧
      UnnamedKept b.inheriting s' [0x74] [0x6B] stored.fields values := by
  intro b stored values
  obtain ⟨values', s', hextend⟩ : ∃ values' s', b.inheriting.extend (fun _ => some stored) [0x74] [0x6B] values 10 = .ok (.ok, values', s') :=
    ⟨_, _, rfl⟩
  refine ⟨values', s', hextend, (unnamed_kept_iff b (r := stored.fields) rfl ?_ ?_ hextend).mpr trivial⟩
  · intro f hnull
    obtain ⟨s, -, heq⟩ := Option.map_eq_some_iff.mp hnull
    cases heq
  · exact ⟨[0x67], .text [0x62], rfl, by decide⟩

/-- `GeodeClient` loses the field that is not extended. -/
theorem not_unnamed_kept :
    ¬ ∀ (b : Binding) (s s' : b.inheriting.State) (table key : Utf16) (r : Utf16 → Option b.inheriting.Value) (values values' : Values Utf16)
      (maxfieldlength : ℤ), b.inheriting.record s table key = some r → b.inheriting.Written r → (∀ f ∈ values, ∃ v, r f = some v) →
        (∃ f v, r f = some v ∧ f ∉ values) → b.inheriting.extend s table key values maxfieldlength = .ok (b.inheriting.ok, values', s') →
          UnnamedKept b.inheriting s' table key r values := by
  intro h
  let val : Geode.PdxInstance := (AList.singleton [0x66] [0x61]).insert [0x67] [0x62]
  let values : Values Utf16 := AList.singleton [0x66] (.string (.ofString [0x63]))
  have hmem : ∀ f ∈ values, ∃ v, (val.lookup f) = some v := by
    intro f hf
    obtain rfl : f = [0x66] := List.mem_singleton.mp (AList.mem_keys.mp hf)
    exact ⟨[0x61], rfl⟩
  have hkept := h (.geode ⟨none, none⟩) (fun _ _ => some val) _ [0x74] [0x6B] _ values _ 10 rfl trivial hmem ⟨[0x67], [0x62], rfl, by decide⟩ rfl
  obtain ⟨r', hr', hv⟩ := hkept [0x67] [0x62] rfl (by decide)
  cases hr'
  cases hv

end YcsbIvs.Extend
