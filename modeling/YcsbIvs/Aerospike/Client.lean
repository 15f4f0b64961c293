import YcsbIvs.Extend.Inherited

/-!
# The Aerospike binding

A record of `AerospikeClient` has a bin of bytes for each field. `read` asks for the named bins, or all of them; `update`
puts its bins with `RecordExistsAction.REPLACE_ONLY`, which drops those that a record had before.
-/

namespace YcsbIvs.Aerospike

open YcsbIvs.Foundations YcsbIvs.Core YcsbIvs.Extend

/-- The bins of a record. -/
abbrev Bins := AList fun _ : Utf16 => Bytes

/-- The records of the namespace, by set and key. -/
abbrev Records := Utf16 → Utf16 → Option Bins

/-- What the calls of the driver come to. -/
structure Calls where
  /-- `client.get` throws an `AerospikeException`. -/
  getThrows : Bool
  /-- `client.put` throws one. -/
  putThrows : Bool
  /-- If so, it may have put the bins before that. -/
  putApplied : Bool

/-- `client.get(policy, key, binNames)`: of the bins that there are, the named ones; no map if there are none. -/
def get (bins : Bins) (binNames : Option (List Utf16)) : Option (List (Sigma fun _ : Utf16 => Bytes)) :=
  let got :=
    match binNames with
    | some names => bins.entries.filter fun entry => names.contains entry.1
    | none => bins.entries
  if got = [] then none else some got

/-- `client.put(policy, key, bins)` with `REPLACE_ONLY`; nothing if there is no record. -/
def putReplaceOnly (records : Records) (table key : Utf16) (bins : Bins) : Option Records :=
  match records table key with
  | some _ => some fun t k => if t = table ∧ k = key then some bins else records t k
  | none => none

/-- `read(table, key, fields, result)`. -/
def read (calls : Calls) (records : Records) (table key : Utf16) (fields : Option (List Utf16)) :
    Except Throwable (Status × Values Utf16 × Records) :=
  if calls.getThrows then .ok (.error, ∅, records)
  else
    match records table key with
    | none => .ok (.error, ∅, records)
    | some record => do
      let some bins := get record fields | .error .nullPointer
      let result ← putAll Sigma.fst (fun entry => .ok (some (.byteArray (.ofArray entry.2)))) bins ∅
      .ok (.ok, result, records)

/-- The bins that `write` makes. -/
def makeBins (values : Values Utf16) : Except Throwable Bins :=
  putAll Sigma.fst (fun entry => entry.2.toArray.map fun r => some r.1) values.entries ∅

/-- `update(table, key, values)`: `write` with the policy to update. -/
def update (calls : Calls) (records : Records) (table key : Utf16) (values : Values Utf16) : Except Throwable (Status × Records) := do
  let bins ← makeBins values
  match putReplaceOnly records table key bins with
  | none => .ok (.error, records)
  | some records' =>
    if calls.putThrows then .ok (.error, if calls.putApplied then records' else records)
    else .ok (.ok, records')

/-- A read fills in the bins it is asked for, and no others. -/
theorem mem_of_read {calls : Calls} {records records' : Records} {table key : Utf16} {fields : List Utf16} {result : Values Utf16}
    (h : read calls records table key (some fields) = .ok (.ok, result, records')) {f : Utf16} (hf : f ∈ result) : f ∈ fields := by
  rw [read] at h
  split_ifs at h
  · cases h
  · split at h
    · cases h
    · rw [get] at h
      split at h
      · next bins hgot =>
        split_ifs at hgot
        cases hgot
        obtain ⟨result', hput, h⟩ := bind_inv h
        cases h
        obtain ⟨entry, hentry, rfl⟩ := List.mem_map.mp (mem_of_putAll hput hf)
        exact List.contains_iff_mem.mp (List.mem_filter.mp hentry).2
      · cases h

/-- An update leaves a record of the given bins. -/
theorem update_ok {calls : Calls} {records records' : Records} {table key : Utf16} {values : Values Utf16}
    (h : update calls records table key values = .ok (.ok, records')) :
    ∃ bins, records' table key = some bins ∧ ∀ f ∈ bins, f ∈ values := by
  obtain ⟨bins, hput, h⟩ := bind_inv h
  rw [putReplaceOnly] at h
  split at h
  · cases h
  · next records₁ hput' =>
    split at hput'
    · cases hput'
      cases hthrows : calls.putThrows with
      | true => simp [hthrows] at h
      | false =>
        rw [hthrows] at h
        cases h
        exact ⟨bins, if_pos ⟨rfl, rfl⟩, fun f hf => mem_of_putAll hput hf⟩
    · cases hput'

end YcsbIvs.Aerospike
