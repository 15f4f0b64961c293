import YcsbIvs.Core.ByteIterator
import Mathlib.Data.List.AList

/-!
# The database layer

`DB` is what a binding implements: `read`, `update` and `insert` of a record under a
table and a key. `extend`, which appends to fields, is inherited: it reads the
fields, appends each increment to what was read if the result stays below
`maxfieldlength`, and updates the record with what it then has.

The maps the operations take and fill are kept as association lists without
repeated keys (`Values`); nothing here depends on the order of their entries, as
nothing may on the order of a `HashMap`. A record of the store is a partial function
from field names to bytes (`Record`). Names of tables are of any type `τ`, those of
keys and fields of any type `ν`.

`insert` is modelled over any binding that, where it succeeds, stores what `toArray` of each
iterator gives (`InsertBinding`), and `extend` over any binding whose `read` hands back
iterators over byte arrays and whose `update` stores as `insert` does (`ExtendBinding`).
`extendLoop_lookup` says what the loop of `extend` leaves for each field: everything else
about `extend` follows from it.
-/

namespace YcsbIvs.Core

open YcsbIvs.Foundations

/-- The result of an operation. -/
inductive Status where
  /-- `OK`. -/
  | ok
  /-- `ERROR`. -/
  | error
  /-- `NOT_FOUND`. -/
  | notFound
  /-- `NOT_IMPLEMENTED`. -/
  | notImplemented
  /-- `UNEXPECTED_STATE`. -/
  | unexpectedState
  /-- `BAD_REQUEST`. -/
  | badRequest
  /-- `FORBIDDEN`. -/
  | forbidden
  /-- `SERVICE_UNAVAILABLE`. -/
  | serviceUnavailable
  /-- `BATCHED_OK`. -/
  | batchedOk
  deriving DecidableEq, Repr

/-- `isOk()`: the operation was carried out or batched. -/
def Status.isOk (st : Status) : Bool := st = .ok || st = .batchedOk

variable {τ ν σ : Type} [DecidableEq τ] [DecidableEq ν]

/-! ### Maps of values and records -/

/-- A map of field values. -/
abbrev Values (ν : Type) := AList fun _ : ν => ByteIterator

/-- A map of results whose iterators are over strings: the strings, or `null`. -/
abbrev Result := AList fun _ : Utf16 => Option Utf16

omit [DecidableEq τ] in
/-- A map of one value. -/
theorem eq_of_lookup_singleton {f g : ν} {it it' : ByteIterator}
    (h : (AList.singleton f it : Values ν).lookup g = some it') : g = f ∧ it' = it := by
  have hmem := AList.mem_lookup_iff.mp h
  rw [AList.singleton_entries, List.mem_singleton, Sigma.mk.injEq] at hmem
  exact ⟨hmem.1, eq_of_heq hmem.2⟩

/-- A record: the bytes of each of its fields. -/
abbrev Record (ν : Type) := ν → Option Bytes

/-- The records of a store, by table and key. -/
abbrev Records (τ ν : Type) := τ → ν → Option (Record ν)

/-- The store with the record of one key replaced. -/
def Records.set (m : Records τ ν) (table : τ) (key : ν) (r : Option (Record ν)) : Records τ ν :=
  fun t k => if t = table ∧ k = key then r else m t k

@[simp] theorem Records.set_self (m : Records τ ν) (table : τ) (key : ν) (r : Option (Record ν)) :
    m.set table key r table key = r := if_pos ⟨rfl, rfl⟩

theorem Records.set_of_ne (m : Records τ ν) {table t : τ} {key k : ν} (r : Option (Record ν))
    (h : ¬ (t = table ∧ k = key)) : m.set table key r t k = m t k := if_neg h

/-- The record with the fields of a map of values stored over its own. -/
def Record.merge (r : Record ν) (values : Values ν) : Record ν := fun f =>
  match values.lookup f with
  | some it => it.contents
  | none => r f

theorem Record.merge_of_lookup {r : Record ν} {values : Values ν} {f : ν} {it : ByteIterator}
    (h : values.lookup f = some it) : r.merge values f = it.contents := by
  simp only [Record.merge, h]

theorem Record.merge_of_notMem {r : Record ν} {values : Values ν} {f : ν} (h : f ∉ values) :
    r.merge values f = r f := by
  simp only [Record.merge, AList.lookup_eq_none.mpr h]

/-- Every iterator of the map gives its contents. -/
def Readable (values : Values ν) : Prop := ∀ f it, values.lookup f = some it → ∃ bs, it.contents = some bs

/-- What the iterators of a map give. -/
def contentsOf (values : Values ν) : Record ν := fun f => (values.lookup f).bind ByteIterator.contents

omit [DecidableEq τ] in
/-- What a map of one value holds. -/
theorem contentsOf_singleton (f : ν) (it : ByteIterator) (g : ν) :
    contentsOf (AList.singleton f it : Values ν) g = if g = f then it.contents else none := by
  rw [contentsOf, ← AList.insert_empty]
  split_ifs with h
  · rw [h, AList.lookup_insert, Option.bind_some]
  · rw [AList.lookup_insert_ne h, AList.lookup_empty, Option.bind_none]

/-- The string that `toString` of an iterator gives. -/
def textOf (values : Values ν) (f : ν) : Option Utf16 := (values.lookup f).bind fun it => it.toString.toOption.map Prod.fst

omit [DecidableEq τ] in
/-- Values that can be read have a string for each of their fields. -/
theorem textOf_eq_none_iff {values : Values ν} (h : ∀ e ∈ values.entries, ∃ r, e.2.toString = .ok r) {f : ν} :
    textOf values f = none ↔ f ∉ values := by
  rw [← AList.lookup_eq_none]
  cases hf : values.lookup f with
  | none => simp [textOf, hf]
  | some it =>
    obtain ⟨r, hr⟩ := h ⟨f, it⟩ (AList.mem_lookup_iff.mp hf)
    simp [textOf, hf, show it.toString = .ok r from hr, Except.toOption]

/-- The map holds the record `r`: its iterators can be read, and give the fields of `r`. -/
def HoldsRecord (values : Values ν) (r : Record ν) : Prop := Readable values ∧ contentsOf values = r

/-- The record restricted to `fields`; all of it if there are none given. -/
def Record.restrict (r : Record ν) : Option (List ν) → Record ν
  | none => r
  | some fields => fun f => if f ∈ fields then r f else none

omit [DecidableEq τ] in
theorem Record.restrict_of_forall (r : Record ν) {fields : Option (List ν)} {f : ν} (h : ∀ names ∈ fields, f ∈ names) :
    r.restrict fields f = r f := by
  cases fields with
  | none => rfl
  | some names => exact if_pos (h names rfl)

omit [DecidableEq τ] in
theorem Record.restrict_of_not_forall (r : Record ν) {fields : Option (List ν)} {f : ν} (h : ¬ ∀ names ∈ fields, f ∈ names) :
    r.restrict fields f = none := by
  cases fields with
  | none => exact absurd (fun names hnames => nomatch hnames) h
  | some names => exact if_neg fun hf => h fun names' hnames => Option.some.inj hnames ▸ hf

/-- A map filled by reading the fields `fields` of `r`: every named field of `r` is in
it, and whatever is in it is an unused iterator over the bytes of a field of `r`. -/
structure ReadsOut (r : Record ν) (fields : List ν) (result : Values ν) : Prop where
  /-- Named fields are there. -/
  named : ∀ f ∈ fields, ∀ bs, r f = some bs → f ∈ result
  /-- What is there has been read from the record. -/
  holds : ∀ f it, result.lookup f = some it → ∃ a bs, it = .byteArray a ∧ a.Holds bs ∧ r f = some bs

/-! ### Inserting -/

/-- A binding as an insert uses it, and the records it writes, those of a batch that has not
been sent included. -/
structure InsertBinding (τ ν σ : Type) [DecidableEq τ] [DecidableEq ν] where
  /-- `insert(table, key, values)`, and the iterators of `values` after it. -/
  insert : σ → τ → ν → Values ν → Except Throwable (Option Status × Values ν × σ)
  /-- The records of the store. -/
  records : σ → Records τ ν
  /-- Whether an insert, carried out or not, uses up the iterator of a field. -/
  drains : σ → τ → ν → Values ν → ν → Bool
  /-- An iterator is used up or left alone. -/
  insert_values : ∀ {s t k values st values' s'}, insert s t k values = .ok (st, values', s') →
    ∀ f, values'.lookup f = (values.lookup f).map fun it => if drains s t k values f then it.drain else it
  /-- An insert that succeeds stores what the iterators give. -/
  insert_ok : ∀ {s t k values st values' s'}, insert s t k values = .ok (some st, values', s') → st.isOk = true →
    Readable values ∧ records s' t k = some (contentsOf values)

/-! ### Extending -/

/-- The loop of `extend` over the names of the fields to extend: what is left of
`values`, and the map to update the record with. -/
def extendLoop (maxfieldlength : ℤ) : List ν → Values ν → Values ν → Except Throwable (Values ν × Values ν)
  | [], values, result => .ok (values, result)
  | fieldkey :: fields, values, result => do
    let some read := result.lookup fieldkey | .error .nullPointer
    let (orig, read) ← read.toString
    -- the iterator `toString` has used stays in `result`
    let result := result.insert fieldkey read
    let some given := values.lookup fieldkey | .error .nullPointer
    let (incr, given) ← given.toString
    let values := values.insert fieldkey given
    if asInt (orig.length + incr.length) < maxfieldlength then
      if orig.length + incr.length < 2 ^ 31 then
        extendLoop maxfieldlength fields values (result.insert fieldkey (.string (.ofString (orig ++ incr))))
      else .error .outOfMemory
    else extendLoop maxfieldlength fields values result

/-- A binding as `extend` uses it: `read` and `update` by table and key, and the records
they read and write. -/
structure ExtendBinding (τ ν σ : Type) [DecidableEq τ] [DecidableEq ν] where
  /-- `read(table, key, fields, result)`, from an empty `result`. -/
  read : σ → τ → ν → Option (List ν) → Except Throwable (Option Status × Values ν × σ)
  /-- `update(table, key, values)`. -/
  update : σ → τ → ν → Values ν → Except Throwable (Option Status × Values ν × σ)
  /-- The records of the store. -/
  records : σ → Records τ ν
  /-- Reading changes no record. -/
  read_records : ∀ {s t k fields st result s'}, read s t k fields = .ok (st, result, s') → records s' = records s
  /-- A read that succeeds hands back iterators over the bytes of the record. -/
  read_ok : ∀ {s t k fields result s'}, read s t k (some fields) = .ok (some .ok, result, s') →
    ∃ r, records s t k = some r ∧ ReadsOut r fields result
  /-- An update stores what the iterators give over the record, or changes nothing and
  does not succeed. -/
  update_records : ∀ {s t k values st values' s'}, update s t k values = .ok (st, values', s') →
    (∃ r, records s t k = some r ∧ Readable values ∧ records s' = (records s).set t k (some (r.merge values))) ∨
      (st ≠ some .ok ∧ records s' = records s)

/-- A store that reads back what was last written. -/
structure FaithfulStore (τ ν σ : Type) [DecidableEq τ] [DecidableEq ν] extends ExtendBinding τ ν σ, InsertBinding τ ν σ where
  /-- What a read fills in are iterators over the bytes of the record. -/
  read_holds : ∀ {s t k fields st result s'}, read s t k fields = .ok (st, result, s') → ∀ f it, result.lookup f = some it →
    ∃ r a bs, records s t k = some r ∧ it = .byteArray a ∧ a.Holds bs ∧ r f = some bs
  /-- An insert stores what the iterators give, or changes nothing and does not succeed. -/
  insert_records : ∀ {s t k values st values' s'}, insert s t k values = .ok (st, values', s') →
    (Readable values ∧ records s' = (records s).set t k (some (contentsOf values))) ∨
      (st.any Status.isOk = false ∧ records s' = records s)
  /-- An update that does not succeed changes nothing. -/
  update_fails : ∀ {s t k values st values' s'}, update s t k values = .ok (st, values', s') →
    st.any Status.isOk = false → records s' = records s

/-- `extend(table, key, values, maxfieldlength)`. -/
def ExtendBinding.extend (B : ExtendBinding τ ν σ) (s : σ) (table : τ) (key : ν) (values : Values ν) (maxfieldlength : ℤ) :
    Except Throwable (Option Status × Values ν × σ) := do
  let (status, result, s) ← B.read s table key (some values.keys)
  if status = some .ok then
    let (values, result) ← extendLoop maxfieldlength values.keys values result
    let (status, _, s) ← B.update s table key result
    .ok (status, values, s)
  else .ok (status, values, s)

/-- What the loop of `extend` leaves in `result` for a field it visits. -/
structure Extends (maxfieldlength : ℤ) (read given left : ByteIterator) where
  /-- What was read. -/
  orig : Utf16
  /-- The increment. -/
  incr : Utf16
  /-- The iterator read, after `toString`. -/
  used : ByteIterator
  /-- The increment's iterator, after `toString`. -/
  spent : ByteIterator
  /-- `orig` is what was read. -/
  read_eq : read.toString = .ok (orig, used)
  /-- `incr` is the increment. -/
  given_eq : given.toString = .ok (incr, spent)
  /-- Below the cap the two are joined; at the cap the used iterator is left. -/
  left_eq : left = if asInt (orig.length + incr.length) < maxfieldlength
    then .string (.ofString (orig ++ incr)) else used
  /-- The joined string is not too long for a string. -/
  fits : asInt (orig.length + incr.length) < maxfieldlength → orig.length + incr.length < 2 ^ 31

/-- One round of the loop. -/
theorem extendLoop_cons {M : ℤ} {f : ν} {fields : List ν} {values result values' result' : Values ν}
    (h : extendLoop M (f :: fields) values result = .ok (values', result')) :
    ∃ read given left, ∃ e : Extends M read given left, result.lookup f = some read ∧
      values.lookup f = some given ∧ ∃ r, r.lookup f = some left ∧
        (∀ g, g ≠ f → r.lookup g = result.lookup g) ∧
        extendLoop M fields (values.insert f e.spent) r = .ok (values', result') := by
  rw [extendLoop] at h
  cases hr : result.lookup f with
  | none => simp [hr] at h
  | some read =>
    cases ho : read.toString with
    | error e => simp [hr, ho, bind, Except.bind] at h
    | ok o =>
      obtain ⟨orig, used⟩ := o
      cases hv : values.lookup f with
      | none => simp [hr, ho, hv, bind, Except.bind] at h
      | some given =>
        cases hi : given.toString with
        | error e => simp [hr, ho, hv, hi, bind, Except.bind] at h
        | ok i =>
          obtain ⟨incr, spent⟩ := i
          simp only [hr, ho, hv, hi, bind, Except.bind] at h
          split_ifs at h with hlt hfit
          · exact ⟨read, given, _, ⟨orig, incr, used, spent, ho, hi, (if_pos hlt).symm, fun _ => hfit⟩, rfl, rfl, _,
              AList.lookup_insert _, fun g hg => by
                rw [AList.lookup_insert_ne hg, AList.lookup_insert_ne hg], h⟩
          · exact ⟨read, given, _, ⟨orig, incr, used, spent, ho, hi, (if_neg hlt).symm, fun hc => absurd hc hlt⟩,
              rfl, rfl, _, AList.lookup_insert _, fun g hg => AList.lookup_insert_ne hg, h⟩

/-- **What the loop leaves for each field**: a field it does not visit is as it was
read; of a field it visits, the joined string or the iterator `toString` has used. -/
theorem extendLoop_lookup {M : ℤ} {fields : List ν} (hnd : fields.Nodup) {values result values' result' : Values ν}
    (h : extendLoop M fields values result = .ok (values', result')) :
    (∀ f, f ∉ fields → result'.lookup f = result.lookup f) ∧
      ∀ f ∈ fields, ∃ read given left, Nonempty (Extends M read given left) ∧ result.lookup f = some read ∧
        values.lookup f = some given ∧ result'.lookup f = some left := by
  induction fields generalizing values result with
  | nil =>
    cases h
    exact ⟨fun _ _ => rfl, fun _ hf => absurd hf List.not_mem_nil⟩
  | cons f fields ih =>
    obtain ⟨hf, hnd⟩ := List.nodup_cons.mp hnd
    obtain ⟨read, given, left, e, hr, hv, r, hleft, hother, hrest⟩ := extendLoop_cons h
    obtain ⟨hout, hin⟩ := ih hnd hrest
    constructor
    · intro g hg
      rw [List.mem_cons, not_or] at hg
      obtain ⟨hgf, hg⟩ := hg
      rw [hout g hg, hother g hgf]
    · intro g hg
      rcases List.mem_cons.mp hg with rfl | hg
      · exact ⟨read, given, left, ⟨e⟩, hr, hv, by rw [hout g hf, hleft]⟩
      · have hgf : g ≠ f := fun heq => hf (heq ▸ hg)
        obtain ⟨read, given, left, e, hr, hv, hl⟩ := hin g hg
        rw [hother g hgf] at hr
        rw [AList.lookup_insert_ne hgf] at hv
        exact ⟨read, given, left, e, hr, hv, hl⟩

/-- What `extend` does if nothing throws: it reads the record, runs its loop, and updates the
record with what the loop left; or the read fails, and it does no more. -/
theorem ExtendBinding.extend_cases {B : ExtendBinding τ ν σ} {s s' : σ} {table : τ} {key : ν} {values values' : Values ν} {M : ℤ}
    {st : Option Status} (h : B.extend s table key values M = .ok (st, values', s')) :
    (st ≠ some .ok ∧ B.records s' = B.records s) ∨
      ∃ r result result' values₁ s₁, B.records s table key = some r ∧ ReadsOut r values.keys result ∧
        extendLoop M values.keys values result = .ok (values', result') ∧ B.records s₁ = B.records s ∧
        B.update s₁ table key result' = .ok (st, values₁, s') := by
  rw [ExtendBinding.extend] at h
  cases hread : B.read s table key (some values.keys) with
  | error e => simp [hread, bind, Except.bind] at h
  | ok o =>
    obtain ⟨status, result, s₁⟩ := o
    have hsame := B.read_records hread
    simp only [hread, bind, Except.bind] at h
    split_ifs at h with hst
    · subst hst
      obtain ⟨r, hr, hout⟩ := B.read_ok hread
      cases hloop : extendLoop M values.keys values result with
      | error e => simp [hloop] at h
      | ok o =>
        obtain ⟨values₁, result'⟩ := o
        simp only [hloop] at h
        cases hup : B.update s₁ table key result' with
        | error e => simp [hup] at h
        | ok o =>
          obtain ⟨st, values₂, s₂⟩ := o
          simp only [hup, Except.ok.injEq, Prod.mk.injEq] at h
          obtain ⟨rfl, rfl, rfl⟩ := h
          exact .inr ⟨r, result, result', values₂, s₁, hr, hout, hloop, hsame, hup⟩
    · simp only [Except.ok.injEq, Prod.mk.injEq] at h
      obtain ⟨rfl, -, rfl⟩ := h
      exact .inl ⟨hst, hsame⟩

/-- An `extend` that succeeds has updated the record with what its loop left. -/
theorem ExtendBinding.extend_ok {B : ExtendBinding τ ν σ} {s s' : σ} {table : τ} {key : ν} {values values' : Values ν} {M : ℤ}
    (h : B.extend s table key values M = .ok (some .ok, values', s')) :
    ∃ r result result', B.records s table key = some r ∧ ReadsOut r values.keys result ∧
      extendLoop M values.keys values result = .ok (values', result') ∧ Readable result' ∧
      B.records s' = (B.records s).set table key (some (r.merge result')) := by
  rcases ExtendBinding.extend_cases h with ⟨hne, -⟩ | ⟨r, result, result', values₁, s₁, hr, hout, hloop, hsame, hup⟩
  · exact absurd rfl hne
  · rcases B.update_records hup with ⟨r', hr', hreadable, hset⟩ | ⟨hne, -⟩
    · rw [hsame, hr, Option.some.injEq] at hr'
      subst hr'
      exact ⟨r, result, result', hr, hout, hloop, hreadable, by rw [hset, hsame]⟩
    · exact absurd rfl hne

end YcsbIvs.Core
