import YcsbIvs.Workloads.DoInsert

/-!
# Data integrity

With `dataintegrity` every value written is the one that `buildDeterministicValue` makes of
the key and the field, and `verifyRow` compares what a transaction has read with it.

Over a store that reads back what was last written, `verifyRow` never reports
`UNEXPECTED_STATE`, as long as no record is extended, values survive being written one byte a
character, and no insert is made again with iterators that are used up (`verifyRow_sound`). A
record that is extended holds its values twice, and is reported (`verifyRow_unexpected`).

The keys are those of any names, as it does not matter here how they are chosen.
-/

namespace YcsbIvs.Workloads

open YcsbIvs.Foundations YcsbIvs.Core

variable {τ ν σ : Type} [DecidableEq τ] [DecidableEq ν]

/-- A workload with `dataintegrity`. `init` then accepts no `fieldlengthdistribution` but
`constant`. -/
structure Integrity (τ ν : Type) where
  /-- `table`. -/
  table : τ
  /-- `fieldnames`. -/
  fieldnames : List ν
  /-- The string of a name. -/
  string : ν → Utf16
  /-- `fieldlength`, which `fieldlengthgenerator` gives each time. -/
  fieldlength : Word
  /-- `maxfieldlength`. -/
  maxfieldlength : ℤ
  /-- `readallfields`. -/
  readallfields : Bool
  /-- `writeallfields`. -/
  writeallfields : Bool
  /-- When an insert is tried again. -/
  retries : Retries

/-- The store, and what `verifyRow` has reported. -/
structure Checked (σ : Type) where
  /-- The store. -/
  store : σ
  /-- The statuses reported under `VERIFY`. -/
  verified : List Status

namespace Integrity

variable (w : Integrity τ ν)

/-- The fields. -/
def fields : Fields ν := ⟨w.fieldnames, w.string, true⟩

/-- What the generators give; nothing but `fieldlength` is drawn. -/
def draw : Draw := ⟨w.fieldlength.1, 0, fun _ => 0⟩

/-- What a field is to hold. -/
def value (key fieldkey : ν) : Except Throwable Utf16 :=
  buildDeterministicValue (w.string key) (w.string fieldkey) w.fieldlength.1

/-- The values that a transaction writes. -/
def valuesToWrite (key : ν) (chosen : ℕ) : Except Throwable (Values ν) :=
  if w.writeallfields then buildValues w.fields key fun _ => w.draw else buildSingleValue w.fields key chosen w.draw

/-- The values that a transaction extends a record by. -/
def valuesToExtend (key : ν) (chosen : ℕ) : Except Throwable (Values ν) :=
  if w.writeallfields then buildValuesExtend w.fields key fun _ => w.draw
  else buildSingleValueExtend w.fields key chosen w.draw

/-- The fields that a transaction reads: `all`, or the one chosen. -/
def fieldsToRead (all : Option (List ν)) (chosen : ℕ) : Except Throwable (Option (List ν)) :=
  if w.readallfields then .ok all
  else
    match w.fieldnames[chosen]? with
    | some fieldname => .ok (some [fieldname])
    | none => .error .arrayIndexOutOfBounds

/-- The loop of `verifyRow`. -/
def verifyLoop (key : ν) : List (Σ _ : ν, ByteIterator) → Except Throwable Status
  | [] => .ok .ok
  | entry :: entries => do
    let (cell, _) ← entry.2.toString
    let expected ← w.value key entry.1
    if cell = expected then verifyLoop key entries else .ok .unexpectedState

/-- `verifyRow(key, cells)`. -/
def verifyRow (key : ν) (cells : Values ν) : Except Throwable Status :=
  match cells.entries with
  | [] => .ok .error
  | entries => w.verifyLoop key entries

variable (B : FaithfulStore τ ν σ)

/-- The state after `verifyRow`. -/
def report (c : Checked σ) (s : σ) : Except Throwable Status → Checked σ
  | .ok status => ⟨s, c.verified ++ [status]⟩
  | .error _ => ⟨s, c.verified⟩

/-- `doInsert(db)`, with the ends of its sleeps; `none` if it goes on after them. -/
def doInsert (c : Checked σ) (key : ν) (wakes : List Wakes) : Option (Checked σ) :=
  match buildValues w.fields key fun _ => w.draw with
  | .error _ => some c
  | .ok values =>
    match exec (attempt B.toInsertBinding w.retries w.table key) (Insertion.initial c.store values) wakes with
    | some insertion => if insertion.outcome.isSome then some { c with store := insertion.store } else none
    | none => none

/-- `doTransactionInsert(db)`. -/
def doTransactionInsert (c : Checked σ) (key : ν) : Checked σ :=
  match buildValues w.fields key fun _ => w.draw with
  | .error _ => c
  | .ok values =>
    match B.insert c.store w.table key values with
    | .error _ => c
    | .ok (_, _, s) => { c with store := s }

/-- `doTransactionUpdate(db)`. -/
def doTransactionUpdate (c : Checked σ) (key : ν) (written : ℕ) : Checked σ :=
  match w.valuesToWrite key written with
  | .error _ => c
  | .ok values =>
    match B.update c.store w.table key values with
    | .error _ => c
    | .ok (_, _, s) => { c with store := s }

/-- `doTransactionReadModifyWrite(db)`. -/
def doTransactionReadModifyWrite (c : Checked σ) (key : ν) (chosen written : ℕ) : Checked σ :=
  match w.fieldsToRead none chosen, w.valuesToWrite key written with
  | .ok fields, .ok values =>
    match B.read c.store w.table key fields with
    | .error _ => c
    | .ok (_, cells, s) =>
      match B.update s w.table key values with
      | .error _ => { c with store := s }
      | .ok (_, _, s) => report c s (w.verifyRow key cells)
  | _, _ => c

/-- `doTransactionExtend(db)`. -/
def doTransactionExtend (c : Checked σ) (key : ν) (written : ℕ) : Checked σ :=
  match w.valuesToExtend key written with
  | .error _ => c
  | .ok values =>
    match B.extend c.store w.table key values w.maxfieldlength with
    | .error _ => c
    | .ok (_, _, s) => { c with store := s }

/-- `doTransactionRead(db)`. -/
def doTransactionRead (c : Checked σ) (key : ν) (chosen : ℕ) : Checked σ :=
  match w.fieldsToRead (some w.fieldnames) chosen with
  | .error _ => c
  | .ok fields =>
    match B.read c.store w.table key fields with
    | .error _ => c
    | .ok (_, cells, s) => report c s (w.verifyRow key cells)

end Integrity

/-- An operation of the workload, with the key and the fields it has chosen. -/
inductive Transaction (ν : Type) where
  /-- `doInsert`. -/
  | doInsert (key : ν) (wakes : List Wakes)
  /-- `doTransactionInsert`. -/
  | insert (key : ν)
  /-- `doTransactionUpdate`. -/
  | update (key : ν) (written : ℕ)
  /-- `doTransactionReadModifyWrite`. -/
  | readModifyWrite (key : ν) (chosen written : ℕ)
  /-- `doTransactionExtend`. -/
  | extend (key : ν) (written : ℕ)
  /-- `doTransactionRead`. -/
  | read (key : ν) (chosen : ℕ)

section Runs

variable (B : FaithfulStore τ ν σ) (w : Integrity τ ν)

/-- One operation. One that throws ends there, with what it has done by then. -/
def transact (c : Checked σ) : Transaction ν → Option (Checked σ)
  | .doInsert key wakes => w.doInsert B c key wakes
  | .insert key => some (w.doTransactionInsert B c key)
  | .update key written => some (w.doTransactionUpdate B c key written)
  | .readModifyWrite key chosen written => some (w.doTransactionReadModifyWrite B c key chosen written)
  | .extend key written => some (w.doTransactionExtend B c key written)
  | .read key chosen => some (w.doTransactionRead B c key chosen)

/-- The value of a field is what is read after it has been written one byte a character. -/
def Survives (key fieldkey : ν) : Prop := ∀ v, w.value key fieldkey = .ok v → decode (toBytes v) = v

/-- The fields that a transaction writes. -/
def writtenFields (written : ℕ) : List ν :=
  if w.writeallfields then w.fieldnames else w.fieldnames[written]?.toList

/-- The operation keeps the values as they are to be: those it writes survive, no attempt to
insert them that is made again has used them up, and no field is extended, except if all
values are empty. -/
def Keeps (c : Checked σ) : Transaction ν → Prop
  | .doInsert key wakes => (∀ f ∈ w.fieldnames, Survives w key f) ∧
    ∀ values, buildValues w.fields key (fun _ => w.draw) = .ok values →
      Meets (attempt B.toInsertBinding w.retries w.table key) (Spares B.toInsertBinding w.retries w.table key)
        (Insertion.initial c.store values) wakes
  | .insert key => ∀ f ∈ w.fieldnames, Survives w key f
  | .update key written => ∀ f ∈ writtenFields w written, Survives w key f
  | .readModifyWrite key _ written => ∀ f ∈ writtenFields w written, Survives w key f
  | .extend key written => w.fieldlength.1 = 0 ∨ ∀ values, w.valuesToExtend key written = .ok values →
    ∀ status values' s, B.extend c.store w.table key values w.maxfieldlength = .ok (status, values', s) →
      status.any Status.isOk = false
  | .read _ _ => True

/-- The bytes are the value that the field is to hold, and are read as such. -/
def Expected (key fieldkey : ν) (bs : Bytes) : Prop :=
  ∃ v, w.value key fieldkey = .ok v ∧ bs = toBytes v ∧ decode bs = v

/-- Every field of every record holds what it is to. -/
def Consistent (s : σ) : Prop :=
  ∀ key r f bs, B.records s w.table key = some r → r f = some bs → Expected w key f bs

end Runs

variable {B : FaithfulStore τ ν σ} {w : Integrity τ ν}

/-! ### What is written -/

/-- The map has nothing but deterministic values in it, of the fields `fs`. -/
def Deterministic (w : Integrity τ ν) (key : ν) (fs : List ν) (values : Values ν) : Prop :=
  ∀ f it, values.lookup f = some it → f ∈ fs ∧ ∃ v, w.value key f = .ok v ∧ it = .string (.ofString v)

omit [DecidableEq τ] [DecidableEq ν] in
/-- The value of one field. -/
theorem data_eq_ok {length : Draw → ℤ} {key fieldkey : ν} {it : ByteIterator}
    (h : w.fields.data length key fieldkey w.draw = .ok it) :
    ∃ v, w.value key fieldkey = .ok v ∧ it = .string (.ofString v) := by
  have hdata : w.fields.data length key fieldkey w.draw = (w.value key fieldkey).map fun v => .string (.ofString v) := by
    have hintegrity : w.fields.dataintegrity = true := rfl
    rw [Fields.data, if_pos hintegrity]
    show (buildDeterministicValue (w.string key) (w.string fieldkey) (asInt w.fieldlength.1)).map _ = _
    rw [asInt_of_fits w.fieldlength.2]
    rfl
  rw [hdata] at h
  cases hv : w.value key fieldkey with
  | error e =>
    rw [hv] at h
    cases h
  | ok v =>
    rw [hv] at h
    cases h
    exact ⟨v, rfl, rfl⟩

omit [DecidableEq τ] in
theorem deterministic_putAll {length : Draw → ℤ} {key : ν} {values : Values ν}
    (h : w.fields.putAll length key w.fieldnames (fun _ => w.draw) ∅ = .ok values) :
    Deterministic w key w.fieldnames values := by
  obtain ⟨hout, hin⟩ := Fields.putAll_lookup h
  intro f it hit
  by_cases hf : f ∈ w.fieldnames
  · obtain ⟨i, it', -, hdata, hlook⟩ := hin f hf
    obtain rfl : it' = it := Option.some.inj (hlook.symm.trans hit)
    exact ⟨hf, data_eq_ok hdata⟩
  · rw [hout f hf] at hit
    cases hit

omit [DecidableEq τ] in
theorem deterministic_putOne {length : Draw → ℤ} {key : ν} {chosen : ℕ} {values : Values ν}
    (h : w.fields.putOne length key chosen w.draw = .ok values) :
    Deterministic w key w.fieldnames[chosen]?.toList values := by
  intro f it hit
  obtain ⟨hname, hdata⟩ := Fields.putOne_lookup h hit
  have hname' : w.fieldnames[chosen]? = some f := hname
  exact ⟨by rw [hname']; exact List.mem_singleton.mpr rfl, data_eq_ok hdata⟩

omit [DecidableEq τ] in
theorem deterministic_valuesToWrite {key : ν} {written : ℕ} {values : Values ν}
    (h : w.valuesToWrite key written = .ok values) : Deterministic w key (writtenFields w written) values := by
  rw [Integrity.valuesToWrite] at h
  rw [writtenFields]
  split_ifs at h ⊢
  · exact deterministic_putAll h
  · exact deterministic_putOne h

omit [DecidableEq τ] in
theorem deterministic_valuesToExtend {key : ν} {written : ℕ} {values : Values ν}
    (h : w.valuesToExtend key written = .ok values) : Deterministic w key (writtenFields w written) values := by
  rw [Integrity.valuesToExtend] at h
  rw [writtenFields]
  split_ifs at h ⊢
  · exact deterministic_putAll h
  · exact deterministic_putOne h

omit [DecidableEq τ] in
/-- What values that survive give is what the fields are to hold. -/
theorem Deterministic.expected {key : ν} {fs : List ν} {values : Values ν} (h : Deterministic w key fs values)
    (hsurvives : ∀ f ∈ fs, Survives w key f) {f : ν} {it : ByteIterator} (hit : values.lookup f = some it) {bs : Bytes}
    (hbs : it.contents = some bs) : Expected w key f bs := by
  obtain ⟨hf, v, hv, rfl⟩ := h f it hit
  obtain rfl : toBytes v = bs :=
    Option.some.inj ((ByteIterator.contents_of_holds (ByteIterator.holds_ofString v)).symm.trans hbs)
  exact ⟨v, hv, rfl, hsurvives f hf v hv⟩

/-! ### What the store holds -/

/-- A record written over one of the store. -/
theorem Consistent.set {s s' : σ} (h : Consistent B w s) {key : ν} {r : Record ν}
    (hs : B.records s' = (B.records s).set w.table key (some r))
    (hr : ∀ f bs, r f = some bs → Expected w key f bs) : Consistent B w s' := by
  intro key' r' f bs hrec hbs
  rw [hs] at hrec
  by_cases hkey : key' = key
  · subst hkey
    rw [Records.set_self, Option.some.injEq] at hrec
    subst hrec
    exact hr f bs hbs
  · rw [Records.set_of_ne _ _ fun hc => hkey hc.2] at hrec
    exact h key' r' f bs hrec hbs

theorem Consistent.of_eq {s s' : σ} (h : Consistent B w s) (hs : B.records s' = B.records s) : Consistent B w s' := by
  intro key r f bs hrec
  rw [hs] at hrec
  exact h key r f bs hrec

/-- An insert of values that give what they are to. -/
theorem Consistent.insert {s s' : σ} (h : Consistent B w s) {key : ν} {values values' : Values ν} {st : Option Status}
    (hvalues : ∀ f bs, contentsOf values f = some bs → Expected w key f bs)
    (hins : B.insert s w.table key values = .ok (st, values', s')) : Consistent B w s' := by
  rcases B.insert_records hins with ⟨-, hset⟩ | ⟨-, hsame⟩
  · exact h.set hset hvalues
  · exact h.of_eq hsame

omit [DecidableEq τ] in
theorem Deterministic.contentsOf {key : ν} {fs : List ν} {values : Values ν} (h : Deterministic w key fs values)
    (hsurvives : ∀ f ∈ fs, Survives w key f) (f : ν) (bs : Bytes) (hbs : Core.contentsOf values f = some bs) :
    Expected w key f bs := by
  obtain ⟨it, hit, hc⟩ := Option.bind_eq_some_iff.mp hbs
  exact h.expected hsurvives hit hc

/-- An update with deterministic values. -/
theorem Consistent.update {s s' : σ} (h : Consistent B w s) {key : ν} {fs : List ν} {values values' : Values ν}
    {st : Option Status} (hdet : Deterministic w key fs values) (hsurvives : ∀ f ∈ fs, Survives w key f)
    (hup : B.update s w.table key values = .ok (st, values', s')) : Consistent B w s' := by
  rcases B.update_records hup with ⟨r, hrec, -, hset⟩ | ⟨-, hsame⟩
  · refine h.set hset fun f bs hbs => ?_
    cases hit : values.lookup f with
    | some it =>
      rw [Record.merge_of_lookup hit] at hbs
      exact hdet.expected hsurvives hit hbs
    | none =>
      rw [Record.merge_of_notMem (AList.lookup_eq_none.mp hit)] at hbs
      exact h key r f bs hrec hbs
  · exact h.of_eq hsame

/-- A call of `doInsert` whose attempts spare the iterators. -/
theorem Consistent.attempts {s : σ} (h : Consistent B w s) {key : ν} {values : Values ν} {wakes : List Wakes}
    {c : Insertion ν σ} (hvalues : buildValues w.fields key (fun _ => w.draw) = .ok values)
    (hsurvives : ∀ f ∈ w.fieldnames, Survives w key f)
    (hmeets : Meets (attempt B.toInsertBinding w.retries w.table key) (Spares B.toInsertBinding w.retries w.table key)
      (Insertion.initial s values) wakes)
    (hrun : exec (attempt B.toInsertBinding w.retries w.table key) (Insertion.initial s values) wakes = some c) :
    Consistent B w c.store := by
  have hdet : Deterministic w key w.fieldnames values := deterministic_putAll hvalues
  have hall : (Orderly B.toInsertBinding w.table key values c ∧ SameBytes values c) ∧ Consistent B w c.store := by
    refine exec_invariant_of (I := fun c : Insertion ν σ =>
      (Orderly B.toInsertBinding w.table key values c ∧ SameBytes values c) ∧ Consistent B w c.store)
      (fun c l c' hI hl hs => ?_) ⟨⟨orderly_initial s hvalues, ?_⟩, h⟩ hmeets hrun
    · obtain ⟨⟨hord, hsame⟩, hcons⟩ := hI
      refine ⟨⟨hord.step hs, (SameBytes.attempt_iff hord hsame hs).mpr hl⟩, ?_⟩
      have hnow := hsame.2 (offered_of_attempt hs).1
      rcases store_of_attempt hs with hstore | ⟨st, values', hins⟩
      · rw [hstore]
        exact hcons
      · exact hcons.insert (fun f bs hbs => hdet.contentsOf hsurvives f bs (by rwa [hnow] at hbs)) hins
    · exact ⟨fun r hr => absurd hr List.not_mem_nil, fun _ => rfl⟩
  exact hall.2

omit [DecidableEq τ] [DecidableEq ν] in
/-- Where the deterministic values are empty, only no bytes are expected. -/
theorem eq_nil_of_empty (hempty : w.fieldlength.1 = 0) {key fieldkey : ν} {v : Utf16}
    (hv : w.value key fieldkey = .ok v) : v = [] := by
  have hlen := length_buildDeterministicValue hv
  rw [hempty] at hlen
  exact List.length_eq_zero_iff.mp (by omega)

/-- What the loop of `extend` leaves of an empty field and an empty increment is empty. -/
theorem contents_of_extends_empty {M : ℤ} {read given left : ByteIterator} (e : Extends M read given left)
    {a : ByteArrayByteIterator} (hread : read = .byteArray a) (ha : a.Holds [])
    (hgiven : given = .string (.ofString [])) : left.contents = some [] := by
  obtain ⟨orig, incr, used, spent, hr, hg, hleft, -⟩ := e
  subst hread hgiven
  rw [ByteIterator.toString_byteArray ha] at hr
  obtain ⟨rfl, rfl⟩ : orig = [] ∧ used = (ByteIterator.byteArray a).drain := by
    cases hr
    exact ⟨rfl, rfl⟩
  obtain rfl : incr = [] := by
    cases hg
    rfl
  rw [hleft]
  split_ifs
  · exact ByteIterator.contents_of_holds (ByteIterator.holds_ofString [])
  · have hholds : (ByteIterator.byteArray a).Holds [] := ha
    exact ByteIterator.contents_drain_of_holds hholds

/-- An extend by empty values of a record whose values are empty. -/
theorem Consistent.extend_empty {s s' : σ} (h : Consistent B w s) (hempty : w.fieldlength.1 = 0) {key : ν} {fs : List ν}
    {values values' : Values ν} {st : Option Status} (hdet : Deterministic w key fs values)
    (hext : B.extend s w.table key values w.maxfieldlength = .ok (st, values', s')) : Consistent B w s' := by
  rcases ExtendBinding.extend_cases hext with ⟨-, hsame⟩ | ⟨r, result, result', values₁, s₁, hr, hout, hloop, hsame, hup⟩
  · exact h.of_eq hsame
  · have hs₁ : Consistent B w s₁ := h.of_eq hsame
    obtain ⟨hkept, hextended⟩ := extendLoop_lookup values.keys_nodup hloop
    rcases B.update_records hup with ⟨r', hr', -, hset⟩ | ⟨-, hsame'⟩
    · rw [hsame, hr, Option.some.injEq] at hr'
      subst hr'
      refine hs₁.set hset fun f bs hbs => ?_
      cases hit : result'.lookup f with
      | none =>
        rw [Record.merge_of_notMem (AList.lookup_eq_none.mp hit)] at hbs
        exact h key r f bs hr hbs
      | some it =>
        rw [Record.merge_of_lookup hit] at hbs
        by_cases hf : f ∈ values.keys
        · obtain ⟨read, given, left, ⟨e⟩, hread, hgiven, hleft⟩ := hextended f hf
          obtain ⟨a, bs₀, ha, hholds, hbs₀⟩ := hout.holds f read hread
          obtain ⟨v₀, hv₀, rfl, -⟩ := h key r f bs₀ hr hbs₀
          obtain ⟨-, v, hv, hstring⟩ := hdet f given hgiven
          rw [eq_nil_of_empty hempty hv₀] at hholds
          rw [eq_nil_of_empty hempty hv] at hstring
          have hleft' : it = left := Option.some.inj (hit.symm.trans hleft)
          rw [hleft', contents_of_extends_empty e ha hholds hstring] at hbs
          cases hbs
          exact ⟨[], by rw [← eq_nil_of_empty hempty hv]; exact hv, rfl, rfl⟩
        · rw [hkept f hf] at hit
          obtain ⟨a, bs₀, rfl, hholds, hbs₀⟩ := hout.holds f it hit
          have hc : (ByteIterator.byteArray a).Holds bs₀ := hholds
          obtain rfl : bs₀ = bs := Option.some.inj ((ByteIterator.contents_of_holds hc).symm.trans hbs)
          exact h key r f bs₀ hr hbs₀
    · exact hs₁.of_eq hsame'

/-! ### What is verified -/

/-- What has been read from a consistent store is not reported. -/
theorem verifyRow_ne_unexpectedState {s s' : σ} (h : Consistent B w s) {key : ν} {fields : Option (List ν)}
    {cells : Values ν} {st : Option Status} (hread : B.read s w.table key fields = .ok (st, cells, s'))
    {status : Status} (hverify : w.verifyRow key cells = .ok status) : status ≠ .unexpectedState := by
  have hcells : ∀ entry ∈ cells.entries, ∃ v used, entry.2.toString = .ok (v, used) ∧ w.value key entry.1 = .ok v := by
    rintro ⟨f, it⟩ hmem
    obtain ⟨r, a, bs, hr, hit, hholds, hbs⟩ := B.read_holds hread f it (AList.mem_lookup_iff.mpr hmem)
    obtain ⟨v, hv, -, hdecode⟩ := h key r f bs hr hbs
    refine ⟨v, (ByteIterator.byteArray a).drain, ?_, hv⟩
    show it.toString = .ok (v, (ByteIterator.byteArray a).drain)
    rw [hit, ByteIterator.toString_byteArray hholds, hdecode]
  have hloop : ∀ entries : List (Σ _ : ν, ByteIterator), (∀ entry ∈ entries, entry ∈ cells.entries) →
      w.verifyLoop key entries = .ok .ok := by
    intro entries
    induction entries with
    | nil => exact fun _ => rfl
    | cons entry entries ih =>
      intro hsub
      obtain ⟨v, used, hstring, hv⟩ := hcells entry (hsub entry List.mem_cons_self)
      rw [Integrity.verifyLoop]
      simp only [hstring, hv, bind, Except.bind, if_pos]
      exact ih fun e he => hsub e (List.mem_cons_of_mem _ he)
  rw [Integrity.verifyRow] at hverify
  split at hverify
  · cases hverify
    decide
  · rw [hloop _ fun _ he => he] at hverify
    cases hverify
    decide

/-- The store is consistent, and nothing has been reported. -/
structure Intact (B : FaithfulStore τ ν σ) (w : Integrity τ ν) (c : Checked σ) : Prop where
  /-- The store. -/
  store : Consistent B w c.store
  /-- The reports. -/
  verified : .unexpectedState ∉ c.verified

/-- After a row has been verified. -/
theorem Intact.report {c : Checked σ} (h : Intact B w c) {s : σ} (hs : Consistent B w s) {r : Except Throwable Status}
    (hr : ∀ status, r = .ok status → status ≠ .unexpectedState) : Intact B w (Integrity.report c s r) := by
  cases r with
  | error e => exact ⟨hs, h.verified⟩
  | ok status =>
    refine ⟨hs, fun hmem => ?_⟩
    rcases List.mem_append.mp hmem with hmem | hmem
    · exact h.verified hmem
    · exact hr status rfl (List.mem_singleton.mp hmem).symm

/-- One operation that keeps the values. -/
theorem Intact.step {c c' : Checked σ} {t : Transaction ν} (h : Intact B w c) (hkeeps : Keeps B w c t)
    (hs : transact B w c t = some c') : Intact B w c' := by
  cases t with
  | doInsert key wakes =>
    obtain ⟨hsurvives, hspares⟩ := hkeeps
    rw [transact, Integrity.doInsert] at hs
    cases hvalues : buildValues w.fields key fun _ => w.draw with
    | error e =>
      simp only [hvalues, Option.some.injEq] at hs
      exact hs ▸ h
    | ok values =>
      cases hrun : exec (attempt B.toInsertBinding w.retries w.table key) (Insertion.initial c.store values) wakes with
      | none => simp [hvalues, hrun] at hs
      | some insertion =>
        simp only [hvalues, hrun] at hs
        split_ifs at hs
        cases hs
        exact ⟨h.store.attempts hvalues hsurvives (hspares values hvalues) hrun, h.verified⟩
  | insert key =>
    cases hs
    rw [Integrity.doTransactionInsert]
    cases hvalues : buildValues w.fields key fun _ => w.draw with
    | error e => exact h
    | ok values =>
      have hdet : Deterministic w key w.fieldnames values := deterministic_putAll hvalues
      dsimp only
      split
      · exact h
      · next st values' s hins => exact ⟨h.store.insert (hdet.contentsOf hkeeps) hins, h.verified⟩
  | update key written =>
    cases hs
    rw [Integrity.doTransactionUpdate]
    cases hvalues : w.valuesToWrite key written with
    | error e => exact h
    | ok values =>
      dsimp only
      split
      · exact h
      · next st values' s hup => exact ⟨h.store.update (deterministic_valuesToWrite hvalues) hkeeps hup, h.verified⟩
  | readModifyWrite key chosen written =>
    cases hs
    rw [Integrity.doTransactionReadModifyWrite]
    split
    · next fields values hfields hvalues =>
      split
      · exact h
      · next st cells s hread =>
        have hs : Consistent B w s := h.store.of_eq (B.read_records hread)
        split
        · exact ⟨hs, h.verified⟩
        · next st' values' s' hup =>
          exact h.report (hs.update (deterministic_valuesToWrite hvalues) hkeeps hup)
            fun status => verifyRow_ne_unexpectedState h.store hread
    · exact h
  | extend key written =>
    cases hs
    rw [Integrity.doTransactionExtend]
    cases hvalues : w.valuesToExtend key written with
    | error e => exact h
    | ok values =>
      dsimp only
      split
      · exact h
      · next st values' s hext =>
        rcases hkeeps with hempty | hfails
        · exact ⟨h.store.extend_empty hempty (deterministic_valuesToExtend hvalues) hext, h.verified⟩
        · refine ⟨h.store.of_eq ?_, h.verified⟩
          rcases ExtendBinding.extend_cases hext with ⟨-, hsame⟩ | ⟨r, result, result', values₁, s₁, -, -, -, hsame, hup⟩
          · exact hsame
          · exact (B.update_fails hup (hfails values hvalues st values' s hext)).trans hsame
  | read key chosen =>
    cases hs
    rw [Integrity.doTransactionRead]
    cases hfields : w.fieldsToRead (some w.fieldnames) chosen with
    | error e => exact h
    | ok fields =>
      dsimp only
      split
      · exact h
      · next st cells s hread =>
        exact h.report (h.store.of_eq (B.read_records hread)) fun status => verifyRow_ne_unexpectedState h.store hread

/-- **The check is sound**: on a store whose records are consistent, a new one for example,
`verifyRow` reports `UNEXPECTED_STATE` in no run of operations that keep the values as they are
to be. -/
theorem verifyRow_sound {s : σ} (hs : Consistent B w s) {ts : List (Transaction ν)} {c : Checked σ}
    (hkeeps : Meets (transact B w) (Keeps B w) ⟨s, []⟩ ts) (hrun : exec (transact B w) ⟨s, []⟩ ts = some c) :
    .unexpectedState ∉ c.verified := by
  have hinit : Intact B w ⟨s, []⟩ := ⟨hs, List.not_mem_nil⟩
  exact (exec_invariant_of (fun _ _ _ h hk hstep => h.step hk hstep) hinit hkeeps hrun).verified

omit [DecidableEq τ] [DecidableEq ν] in
/-- The values of ASCII names survive; the keys that `buildKeyName` makes are ASCII. -/
theorem survives_of_ascii {key fieldkey : ν} (hkey : AsciiString (w.string key)) (hfield : AsciiString (w.string fieldkey)) :
    Survives w key fieldkey := fun _ hv => decode_toBytes (asciiString_buildDeterministicValue hkey hfield hv)

open YcsbIvs.RocksDB

/-- The key `user0`. -/
def keyUser0 : Name := ⟨[0x75, 0x73, 0x65, 0x72, 0x30], rfl⟩

/-- The field `field0`. -/
def field0 : Name := ⟨[0x66, 0x69, 0x65, 0x6C, 0x64, 0x30], rfl⟩

/-- One field of eight bytes. -/
def integrityEight : Integrity Utf16 Name where
  table := tableT
  fieldnames := [field0]
  string := Subtype.val
  fieldlength := ⟨8, by decide⟩
  maxfieldlength := 1600000
  readallfields := true
  writeallfields := true
  retries := ⟨0, 3⟩

theorem consistent_newStore : Consistent (faithfulStore keptOrder) integrityEight (newStore fun _ => false) := by
  intro key r f bs hrec
  have hnone : (newStore fun _ => false).1.records integrityEight.table key = none := rfl
  rw [show (faithfulStore keptOrder).records (newStore fun _ => false) = (newStore fun _ => false).1.records from rfl,
    hnone] at hrec
  cases hrec

/-- An insert, an update and a read. -/
theorem verifyRow_sound_eight :
    ∃ c, exec (transact (faithfulStore keptOrder) integrityEight) ⟨newStore fun _ => false, []⟩
        [.insert keyUser0, .update keyUser0 0, .read keyUser0 0] = some c ∧
      c.verified.length = 1 ∧ .unexpectedState ∉ c.verified := by
  have hfinal : (exec (transact (faithfulStore keptOrder) integrityEight) ⟨newStore fun _ => false, []⟩
      [.insert keyUser0, .update keyUser0 0, .read keyUser0 0]).map (fun c => c.verified.length) = some 1 := by
    decide +kernel
  obtain ⟨c, hrun, hlen⟩ := Option.map_eq_some_iff.mp hfinal
  have hsurvives : Survives integrityEight keyUser0 field0 :=
    survives_of_ascii (asciiString_of_all rfl) (asciiString_of_all rfl)
  have hall : ∀ f ∈ [field0], Survives integrityEight keyUser0 f := by
    intro f hf
    rw [List.mem_singleton.mp hf]
    exact hsurvives
  have hkeeps : Meets (transact (faithfulStore keptOrder) integrityEight)
      (Keeps (faithfulStore keptOrder) integrityEight) ⟨newStore fun _ => false, []⟩
      [.insert keyUser0, .update keyUser0 0, .read keyUser0 0] :=
    ⟨hall, fun _ _ => ⟨hall, fun _ _ => ⟨trivial, fun _ _ => trivial⟩⟩⟩
  exact ⟨c, hrun, hlen, verifyRow_sound consistent_newStore hkeeps hrun⟩

/-- An insert, an extend and a read: the field holds its value twice. -/
theorem verifyRow_unexpected :
    ∃ c, exec (transact (faithfulStore keptOrder) integrityEight) ⟨newStore fun _ => false, []⟩
        [.insert keyUser0, .extend keyUser0 0, .read keyUser0 0] = some c ∧ .unexpectedState ∈ c.verified := by
  have hfinal : (exec (transact (faithfulStore keptOrder) integrityEight) ⟨newStore fun _ => false, []⟩
      [.insert keyUser0, .extend keyUser0 0, .read keyUser0 0]).map Checked.verified = some [.unexpectedState] := by
    decide +kernel
  obtain ⟨c, hrun, hverified⟩ := Option.map_eq_some_iff.mp hfinal
  exact ⟨c, hrun, by rw [hverified]; exact List.mem_cons_self⟩

end YcsbIvs.Workloads
