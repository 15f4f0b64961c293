import YcsbIvs.Extend.Inherited

/-!
# The Geode binding

A region of `GeodeClient` has an instance of bytes by field for each key. `read` takes the named fields out of it, or all of them;
`update` puts an instance that is made of the given values alone.
-/

namespace YcsbIvs.Geode

open YcsbIvs.Foundations YcsbIvs.Core YcsbIvs.Extend

/-- `PdxInstance`. -/
abbrev PdxInstance := AList fun _ : Utf16 => Bytes

/-- The regions of the cache: an instance for each key. -/
abbrev Cache := Utf16 → Utf16 → Option PdxInstance

/-- What the calls of the cache throw, if they do. -/
structure Calls where
  /-- `r.get`. -/
  get : Option Throwable
  /-- `r.put`. -/
  put : Option Throwable

/-- `new ByteArrayByteIterator((byte[]) val.getField(field))`. -/
def getField (val : PdxInstance) (field : Utf16) : Except Throwable (Option ByteIterator) :=
  match val.lookup field with
  | some bytes => .ok (some (.byteArray (.ofArray bytes)))
  | none => .error .nullPointer

/-- `read(table, key, fields, result)`. -/
def read (calls : Calls) (cache : Cache) (table key : Utf16) (fields : Option (List Utf16)) :
    Except Throwable (Status × Values Utf16 × Cache) :=
  match calls.get with
  | some e => .error e
  | none =>
    match cache table key with
    | none => .ok (.error, ∅, cache)
    | some val => do
      let result ← putAll id (getField val) (fields.getD val.keys) ∅
      .ok (.ok, result, cache)

/-- `convertToBytearrayMap(values)`. -/
def convertToBytearrayMap (values : Values Utf16) : Except Throwable PdxInstance :=
  putAll Sigma.fst (fun entry => entry.2.toArray.map fun r => some r.1) values.entries ∅

/-- `update(table, key, values)`. -/
def update (calls : Calls) (cache : Cache) (table key : Utf16) (values : Values Utf16) : Except Throwable (Status × Cache) := do
  let val ← convertToBytearrayMap values
  match calls.put with
  | some e => .error e
  | none => .ok (.ok, fun t k => if t = table ∧ k = key then some val else cache t k)

/-- A read fills in the fields it is asked for, and no others. -/
theorem mem_of_read {calls : Calls} {cache cache' : Cache} {table key : Utf16} {fields : List Utf16} {result : Values Utf16}
    (h : read calls cache table key (some fields) = .ok (.ok, result, cache')) {f : Utf16} (hf : f ∈ result) : f ∈ fields := by
  rw [read] at h
  split at h
  · cases h
  · split at h
    · cases h
    · obtain ⟨result', hput, h⟩ := bind_inv h
      cases h
      simpa using mem_of_putAll hput hf

/-- An update leaves an instance of the given fields. -/
theorem update_ok {calls : Calls} {cache cache' : Cache} {table key : Utf16} {values : Values Utf16}
    (h : update calls cache table key values = .ok (.ok, cache')) : ∃ val, cache' table key = some val ∧ ∀ f ∈ val, f ∈ values := by
  obtain ⟨val, hput, h⟩ := bind_inv h
  split at h
  · cases h
  · cases h
    exact ⟨val, if_pos ⟨rfl, rfl⟩, fun f hf => mem_of_putAll hput hf⟩

end YcsbIvs.Geode
