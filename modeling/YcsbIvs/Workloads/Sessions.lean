import YcsbIvs.Workloads.DataIntegrity
import YcsbIvs.Workloads.Transactions

/-!
# What a session finds in its store

Two phases of one benchmark: records are loaded into an empty table, and then any number of threads do transactions on them, in any order of their calls of
the store. What is kept all the while (`Kept`):

- the record that an operation is about to read, update, extend or scan from is there;
- every record of the table has all of the workload's fields and no others, and none of them is longer than the longest length drawn, or than
  `maxfieldlength - 1`, whatever is extended;
- the records there are have been loaded or inserted, and those of other tables are left alone.

What it takes (`Orderly`): an insert succeeds, the key that `keychooser` gives has been loaded if it is below `recordcount`, and the numbers of the inserted
keys are acknowledged as `lastValue()` needs them.
-/

namespace YcsbIvs.Workloads

open YcsbIvs.Foundations YcsbIvs.Core YcsbIvs.Generator YcsbIvs.Extend
open YcsbIvs.Generator.AcknowledgedCounterGenerator (Label NoOverflow OldestFirst)

variable {τ ν σ : Type} [DecidableEq τ] [DecidableEq ν]

/-! ### Records and values -/

namespace CoreWorkload

variable (w : CoreWorkload τ ν) (L : ℤ)

/-- The length that no field exceeds, when none longer than `L` is drawn. -/
def bound : ℤ := max L (w.maxfieldlength - 1)

/-- A record with the fields of the workload, none of them too long. -/
structure Whole (r : Record ν) : Prop where
  /-- The fields. -/
  fields : ∀ f, (r f).isSome ↔ f ∈ w.fields.fieldnames
  /-- Their lengths. -/
  short : ∀ f bs, r f = some bs → (bs.length : ℤ) ≤ w.bound L

/-- Values for some fields of the workload, none of them too long. -/
structure Fits (values : Values ν) : Prop where
  /-- The fields. -/
  fields : ∀ f ∈ values, f ∈ w.fields.fieldnames
  /-- Their lengths. -/
  short : ∀ f it bs, values.lookup f = some it → it.contents = some bs → (bs.length : ℤ) ≤ w.bound L

/-- Values for all of them. -/
structure FitsAll (values : Values ν) : Prop extends w.Fits L values where
  /-- No field is left out. -/
  all : ∀ f ∈ w.fields.fieldnames, f ∈ values

/-- No longer length is drawn for a value. -/
def Short (d : ℕ → Draw) : Prop := ∀ i < w.fields.fieldnames.length, asInt (d i).fieldlength ≤ L

instance (d : ℕ → Draw) : Decidable (w.Short L d) := inferInstanceAs (Decidable (∀ i < _, _))

end CoreWorkload

open CoreWorkload

variable {w : CoreWorkload τ ν} {L : ℤ}

omit [DecidableEq τ] in
/-- Values written over a record. -/
theorem CoreWorkload.Whole.merge {r : Record ν} (h : w.Whole L r) {values : Values ν} (hv : w.Fits L values) (hread : Readable values) :
    w.Whole L (r.merge values) := by
  constructor
  · intro f
    cases hit : values.lookup f with
    | none => rw [Record.merge_of_notMem (AList.lookup_eq_none.mp hit), h.fields]
    | some it =>
      obtain ⟨bs, hbs⟩ := hread f it hit
      have hmem : f ∈ values := AList.lookup_isSome.mp (by rw [hit]; rfl)
      rw [Record.merge_of_lookup hit, hbs]
      exact ⟨fun _ => hv.fields f hmem, fun _ => rfl⟩
  · intro f bs hbs
    cases hit : values.lookup f with
    | none =>
      rw [Record.merge_of_notMem (AList.lookup_eq_none.mp hit)] at hbs
      exact h.short f bs hbs
    | some it =>
      rw [Record.merge_of_lookup hit] at hbs
      exact hv.short f it bs hit hbs

omit [DecidableEq τ] in
/-- A record made of values for all fields. -/
theorem CoreWorkload.FitsAll.whole {values : Values ν} (hv : w.FitsAll L values) (hread : Readable values) : w.Whole L (contentsOf values) := by
  constructor
  · intro f
    constructor
    · intro hsome
      obtain ⟨bs, hbs⟩ := Option.isSome_iff_exists.mp hsome
      obtain ⟨it, hit, -⟩ := Option.bind_eq_some_iff.mp hbs
      exact hv.fields f (AList.lookup_isSome.mp (by rw [hit]; rfl))
    · intro hf
      obtain ⟨it, hit⟩ := Option.isSome_iff_exists.mp (AList.lookup_isSome.mpr (hv.all f hf))
      obtain ⟨bs, hbs⟩ := hread f it hit
      rw [contentsOf, hit, Option.bind_some, hbs]
      rfl
  · intro f bs hbs
    obtain ⟨it, hit, hc⟩ := Option.bind_eq_some_iff.mp hbs
    exact hv.short f it bs hit hc

omit [DecidableEq τ] in
/-- What the loop of an `extend` leaves to be written over a record. -/
theorem CoreWorkload.Whole.leftBy {r : Record ν} (h : w.Whole L r) {values result : Values ν} (hleft : LeftBy w.maxfieldlength r values result) :
    w.Fits L result := by
  constructor
  · intro f hf
    obtain ⟨it, hit⟩ := Option.isSome_iff_exists.mp (AList.lookup_isSome.mpr hf)
    refine (h.fields f).mp ?_
    by_cases hmem : f ∈ values
    · obtain ⟨bs, -, hbs, -⟩ := hleft.named f hmem
      rw [hbs]
      rfl
    · obtain ⟨bs, hbs, -⟩ := hleft.other f hmem it hit
      rw [hbs]
      rfl
  · intro f it bs hit hc
    by_cases hmem : f ∈ values
    · obtain ⟨bs₀, it', hbs₀, hit', hc'⟩ := hleft.named f hmem
      obtain rfl : it' = it := Option.some.inj (hit'.symm.trans hit)
      rw [hc, Option.some.injEq] at hc'
      have hnonneg := h.short f bs₀ hbs₀
      rw [hc']
      split_ifs with hlt
      · -- joined below the cap
        rw [List.length_append, length_toBytes, length_toBytes, bound]
        push_cast
        omega
      · -- used up at the cap
        rw [List.length_nil]
        omega
    · obtain ⟨bs₁, hbs₁, hc₁⟩ := hleft.other f hmem it hit
      obtain rfl : bs₁ = bs := Option.some.inj (hc₁.symm.trans hc)
      exact h.short f bs₁ hbs₁

omit [DecidableEq τ] in
/-- The values that are built for all the fields. -/
theorem fitsAll_buildValues {key : ν} {d : ℕ → Draw} (hd : w.Short L d) {values : Values ν} (h : buildValues w.fields key d = .ok values) :
    w.FitsAll L values := by
  obtain ⟨hout, hin⟩ := Fields.putAll_lookup h
  refine ⟨⟨fun f hf => ?_, fun f it bs hit hc => ?_⟩, fun f hf => ?_⟩
  · by_contra hno
    have hnone := hout f hno
    rw [AList.lookup_empty] at hnone
    exact absurd hf (AList.lookup_eq_none.mp hnone)
  · have hmem : f ∈ w.fields.fieldnames := by
      by_contra hno
      rw [hout f hno, AList.lookup_empty] at hit
      cases hit
    obtain ⟨i, it', hi, hdata, hit'⟩ := hin f hmem
    obtain rfl : it' = it := Option.some.inj (hit'.symm.trans hit)
    have hlen := (Fields.data_holds hdata hc).2.1
    have hle := hd i (List.getElem?_eq_some_iff.mp hi).1
    rw [bound]
    omega
  · obtain ⟨i, it, -, -, hit⟩ := hin f hf
    exact AList.lookup_isSome.mp (by rw [hit]; rfl)

omit [DecidableEq τ] in
/-- The values that a transaction writes. -/
theorem fits_valuesToWrite {key : ν} {d : TransactionDraw} (hd : w.Short L d.values) {values : Values ν}
    (h : w.valuesToWrite key d = .ok values) : w.Fits L values := by
  rw [valuesToWrite] at h
  split_ifs at h
  · exact (fitsAll_buildValues hd h).toFits
  · refine ⟨fun f hf => ?_, fun f it bs hit hc => ?_⟩
    · obtain ⟨it, hit⟩ := Option.isSome_iff_exists.mp (AList.lookup_isSome.mpr hf)
      exact List.mem_of_getElem? (Fields.putOne_lookup h hit).1
    · obtain ⟨hname, hdata⟩ := Fields.putOne_lookup h hit
      have hlen := (Fields.data_holds hdata hc).2.1
      have hle := hd 0 (Nat.zero_lt_of_lt (List.getElem?_eq_some_iff.mp hname).1)
      rw [bound]
      omega

/-! ### What is kept -/

section Store

variable (B : FaithfulStore τ ν σ) (w : CoreWorkload τ ν) (L : ℤ)

/-- There is a record. -/
def Present (s : σ) (key : ν) : Prop := ∃ r, B.records s w.table key = some r

/-- The records of the table are whole. -/
def AllWhole (s : σ) : Prop := ∀ key r, B.records s w.table key = some r → w.Whole L r

/-- From `s` to `s'` no record is lost and those that are added have new keys; the other tables stay as they are. -/
structure Grows (new : ν → Prop) (s s' : σ) : Prop where
  /-- None is lost. -/
  kept : ∀ key, Present B w s key → Present B w s' key
  /-- Those that are added. -/
  added : ∀ key, Present B w s' key → Present B w s key ∨ new key
  /-- The other tables. -/
  others : ∀ table ≠ w.table, B.records s' table = B.records s table

/-- The key that an operation takes from the store. -/
def Pending.key : Pending ν → Option ν
  | .read key _ | .scan key _ _ | .update key _ | .readModifyWrite key _ _ | .extend key _ => some key
  | .insert _ _ => none

/-- What an operation has still to write. -/
def Pending.Fits : Pending ν → Prop
  | .update _ values | .readModifyWrite _ _ values => w.Fits L values
  | .insert _ values => w.FitsAll L values
  | .read _ _ | .scan _ _ _ | .extend _ _ => True

/-- A call of the store goes from `s` to `s'`: it leaves the records as they are, or writes one that is whole, over one that is there or with the key of
an insert. -/
inductive Writes (inserted : Option ν) (s s' : σ) : Prop where
  /-- Nothing is written. -/
  | nothing (h : B.records s' = B.records s)
  /-- A record is. -/
  | record (key : ν) (r : Record ν) (h : B.records s' = (B.records s).set w.table key (some r)) (hr : w.Whole L r)
      (hkey : Present B w s key ∨ inserted = some key)

/-- What holds during a `doInsert` that began in `s`. -/
structure Inserting (s : σ) (key : ν) (values : Values ν) (c : Insertion ν σ) : Prop where
  /-- The iterators are in order. -/
  orderly : Orderly B.toInsertBinding w.table key values c
  /-- The values fit. -/
  fits : w.FitsAll L c.values
  /-- The records are whole. -/
  whole : AllWhole B w L c.store
  /-- Only the key's record is new. -/
  grows : Grows B w (fun key' => key' = key) s c.store

end Store

section Kept

variable {B : FaithfulStore τ ν σ} {s s' : σ} {inserted : Option ν}

theorem Grows.refl (s : σ) (new : ν → Prop) : Grows B w new s s := ⟨fun _ h => h, fun _ h => .inl h, fun _ _ => rfl⟩

theorem Grows.trans {new new' : ν → Prop} {s₁ s₂ s₃ : σ} (h : Grows B w new s₁ s₂) (h' : Grows B w new' s₂ s₃) :
    Grows B w (fun key => new key ∨ new' key) s₁ s₃ := by
  refine ⟨fun key hkey => h'.kept key (h.kept key hkey), fun key hkey => ?_, fun table hne => (h'.others table hne).trans (h.others table hne)⟩
  rcases h'.added key hkey with hkey | hnew
  · exact (h.added key hkey).imp_right .inl
  · exact .inr (.inr hnew)

theorem Grows.mono {new new' : ν → Prop} (h : Grows B w new s s') (hnew : ∀ key, new key → new' key) : Grows B w new' s s' :=
  ⟨h.kept, fun key hkey => (h.added key hkey).imp_right (hnew key), h.others⟩

theorem Writes.grows (h : Writes B w L inserted s s') : Grows B w (fun key => inserted = some key) s s' := by
  cases h with
  | nothing h => exact ⟨fun _ ⟨r, hr⟩ => ⟨r, by rw [h, hr]⟩, fun _ ⟨r, hr⟩ => .inl ⟨r, by rw [← h, hr]⟩, fun _ _ => by rw [h]⟩
  | record key r h _ hkey =>
    refine ⟨fun key' ⟨r', hr'⟩ => ?_, fun key' ⟨r', hr'⟩ => ?_, fun table hne => ?_⟩
    · by_cases heq : key' = key
      · exact ⟨r, by rw [h, heq, Records.set_self]⟩
      · exact ⟨r', by rw [h, Records.set_of_ne _ _ fun hc => heq hc.2, hr']⟩
    · by_cases heq : key' = key
      · exact heq ▸ hkey
      · rw [h, Records.set_of_ne _ _ fun hc => heq hc.2] at hr'
        exact .inl ⟨r', hr'⟩
    · funext key'
      rw [h, Records.set_of_ne _ _ fun hc => hne hc.1]

theorem Writes.allWhole (h : Writes B w L inserted s s') (hs : AllWhole B w L s) : AllWhole B w L s' := by
  intro key r hr
  cases h with
  | nothing h => exact hs key r (by rw [← hr, h])
  | record key' r' h hr' _ =>
    rw [h] at hr
    by_cases heq : key = key'
    · rw [heq, Records.set_self, Option.some.injEq] at hr
      exact hr ▸ hr'
    · rw [Records.set_of_ne _ _ fun hc => heq hc.2] at hr
      exact hs key r hr

/-- An update of values that fit. -/
theorem writes_update (hs : AllWhole B w L s) {key : ν} {values values' : Values ν} {st : Option Status} (hv : w.Fits L values)
    (h : B.update s w.table key values = .ok (st, values', s')) : Writes B w L inserted s s' := by
  rcases B.update_records h with ⟨r, hr, hread, hset⟩ | ⟨-, hsame⟩
  · exact .record key _ hset ((hs key r hr).merge hv hread) (.inl ⟨r, hr⟩)
  · exact .nothing hsame

/-- An insert of values for all the fields. -/
theorem writes_insert {key : ν} {values values' : Values ν} {st : Option Status} (hv : w.FitsAll L values)
    (h : B.insert s w.table key values = .ok (st, values', s')) : Writes B w L (some key) s s' := by
  rcases B.insert_records h with ⟨hread, hset⟩ | ⟨-, hsame⟩
  · exact .record key _ hset (hv.whole hread) (.inr rfl)
  · exact .nothing hsame

/-- The first half of an `extend`. -/
theorem readHalf_leaves (hs : AllWhole B w L s) {key : ν} {values values' result : Values ν} {st : Option Status}
    (h : readHalf B.toExtendBinding s w.table key values w.maxfieldlength = .ok (st, values', result, s')) :
    B.records s' = B.records s ∧ (st = some .ok → w.Fits L result) := by
  rw [readHalf] at h
  cases hread : B.read s w.table key (some values.keys) with
  | error e => simp [hread, bind, Except.bind] at h
  | ok o =>
    obtain ⟨st₀, result₀, s₀⟩ := o
    simp only [hread, bind, Except.bind] at h
    split_ifs at h with hst
    · cases hloop : extendLoop w.maxfieldlength values.keys values result₀ with
      | error e => simp [hloop] at h
      | ok o =>
        simp only [hloop, Except.ok.injEq, Prod.mk.injEq] at h
        obtain ⟨rfl, -, rfl, rfl⟩ := h
        refine ⟨B.read_records hread, fun _ => ?_⟩
        subst hst
        obtain ⟨r, hr, hreads⟩ := B.read_ok hread
        exact (hs key r hr).leftBy (leftBy_of_loop hreads hloop)
    · simp only [Except.ok.injEq, Prod.mk.injEq] at h
      obtain ⟨rfl, -, -, rfl⟩ := h
      exact ⟨B.read_records hread, fun hc => absurd hc hst⟩

/-- **What a call of the store does**, and leaves to be done: it writes a whole record or none, and what is left is for the same key and fits. -/
theorem perform_spec (hs : AllWhole B w L s) (p : Pending ν) (hp : p.Fits w L) :
    Writes B w L (p.finishes.map w.keyname) s (p.perform B w s).1 ∧ ∀ p' ∈ (p.perform B w s).2, p'.key = p.key ∧ p'.Fits w L := by
  cases p with
  | read key fields =>
    rw [Pending.perform]
    cases h : B.read s w.table key fields with
    | error e => exact ⟨.nothing rfl, fun _ hp' => nomatch hp'⟩
    | ok o => exact ⟨.nothing (B.read_records h), fun _ hp' => nomatch hp'⟩
  | scan key recordcount fields => exact ⟨.nothing rfl, fun _ hp' => nomatch hp'⟩
  | update key values =>
    rw [Pending.perform]
    cases h : B.update s w.table key values with
    | error e => exact ⟨.nothing rfl, fun _ hp' => nomatch hp'⟩
    | ok o => exact ⟨writes_update hs hp h, fun _ hp' => nomatch hp'⟩
  | readModifyWrite key fields values =>
    rw [Pending.perform]
    cases h : B.read s w.table key fields with
    | error e => exact ⟨.nothing rfl, fun _ hp' => nomatch hp'⟩
    | ok o =>
      refine ⟨.nothing (B.read_records h), fun p' hp' => ?_⟩
      cases hp'
      exact ⟨rfl, hp⟩
  | extend key values =>
    rw [Pending.perform]
    cases h : readHalf B.toExtendBinding s w.table key values w.maxfieldlength with
    | error e => exact ⟨.nothing rfl, fun _ hp' => nomatch hp'⟩
    | ok o =>
      obtain ⟨st, values', result, s₀⟩ := o
      obtain ⟨hsame, hfits⟩ := readHalf_leaves hs h
      split
      · next heq =>
        simp only [Except.ok.injEq, Prod.mk.injEq] at heq
        obtain ⟨rfl, -, rfl, rfl⟩ := heq
        refine ⟨.nothing hsame, fun p' hp' => ?_⟩
        cases hp'
        exact ⟨rfl, hfits rfl⟩
      · next heq =>
        simp only [Except.ok.injEq, Prod.mk.injEq] at heq
        obtain ⟨-, -, -, rfl⟩ := heq
        exact ⟨.nothing hsame, fun _ hp' => nomatch hp'⟩
      · next heq => cases heq
  | insert keynum values =>
    rw [Pending.perform]
    cases h : B.insert s w.table (w.keyname keynum) values with
    | error e => exact ⟨.nothing rfl, fun _ hp' => nomatch hp'⟩
    | ok o => exact ⟨writes_insert hp h, fun _ hp' => nomatch hp'⟩

omit [DecidableEq τ] in
/-- What `begin` makes is for the key with the number it has been given, and fits. -/
theorem begin_spec {keynum : ℤ} {d : TransactionDraw} (hd : w.Short L d.values) {op : Operation} {p : Pending ν} (h : w.begin keynum d op = .ok p) :
    p.Fits w L ∧ (∀ key ∈ p.key, key = w.keyname keynum) ∧
      (op = .insert → ∃ values, p = .insert keynum values) := by
  cases op with
  | read =>
    obtain ⟨fields, -, h⟩ := bind_inv h
    cases h
    exact ⟨trivial, fun key hkey => (Option.some.inj hkey).symm, fun hop => (nomatch hop)⟩
  | scan =>
    obtain ⟨fields, -, h⟩ := bind_inv h
    cases h
    exact ⟨trivial, fun key hkey => (Option.some.inj hkey).symm, fun hop => (nomatch hop)⟩
  | update =>
    obtain ⟨values, hv, h⟩ := bind_inv h
    cases h
    exact ⟨fits_valuesToWrite hd hv, fun key hkey => (Option.some.inj hkey).symm, fun hop => (nomatch hop)⟩
  | extend =>
    obtain ⟨values, -, h⟩ := bind_inv h
    cases h
    exact ⟨trivial, fun key hkey => (Option.some.inj hkey).symm, fun hop => (nomatch hop)⟩
  | insert =>
    obtain ⟨values, hv, h⟩ := bind_inv h
    cases h
    exact ⟨fitsAll_buildValues hd hv, fun key hkey => (nomatch hkey), fun _ => ⟨values, rfl⟩⟩
  | readModifyWrite =>
    obtain ⟨fields, -, h⟩ := bind_inv h
    obtain ⟨values, hv, h⟩ := bind_inv h
    cases h
    exact ⟨fits_valuesToWrite hd hv, fun key hkey => (Option.some.inj hkey).symm, fun hop => (nomatch hop)⟩

/-! ### Loading -/

omit [DecidableEq τ] in
/-- An insert that fails leaves the iterators as they were or used up. -/
theorem CoreWorkload.FitsAll.drained {values values' : Values ν} {drains : ν → Bool} (hv : w.FitsAll L values)
    (hholds : ∀ f it bs, values.lookup f = some it → it.contents = some bs → it.Holds bs)
    (h : ∀ f, values'.lookup f = (values.lookup f).map fun it => if drains f then it.drain else it) : w.FitsAll L values' := by
  have hmem : ∀ f, f ∈ values' ↔ f ∈ values := fun f => by
    rw [← AList.lookup_isSome, h f, Option.isSome_map, AList.lookup_isSome]
  refine ⟨⟨fun f hf => hv.fields f ((hmem f).mp hf), fun f it bs hit hc => ?_⟩, fun f hf => (hmem f).mpr (hv.all f hf)⟩
  rw [h f] at hit
  obtain ⟨it₀, hit₀, rfl⟩ := Option.map_eq_some_iff.mp hit
  split_ifs at hc
  · cases hc₀ : it₀.contents with
    | none =>
      rw [ByteIterator.contents_drain_of_none hc₀, hc₀] at hc
      cases hc
    | some bs₀ =>
      -- a used up iterator gives no bytes, and there may be more
      rw [ByteIterator.contents_drain_of_holds (hholds f it₀ bs₀ hit₀ hc₀), Option.some.injEq] at hc
      have hle := hv.short f it₀ bs₀ hit₀ hc₀
      rw [← hc, List.length_nil]
      omega
  · exact hv.short f it₀ bs hit₀ hc

theorem Inserting.step {key : ν} {values : Values ν} {c c' : Insertion ν σ} {wakes : Wakes} (h : Inserting B w L s key values c)
    (hs : attempt B.toInsertBinding w.retries w.table key c wakes = some c') : Inserting B w L s key values c' := by
  have hout := (offered_of_attempt hs).1
  have hord := h.orderly.step hs
  rw [attempt, hout] at hs
  cases hins : B.insert c.store w.table key c.values with
  | error e =>
    simp only [hins, Option.some.injEq] at hs
    subst hs
    exact ⟨hord, h.fits, h.whole, h.grows⟩
  | ok o =>
    obtain ⟨st, values', s₁⟩ := o
    simp only [hins, Option.some.injEq] at hs
    subst hs
    have hwrites := writes_insert h.fits hins
    exact ⟨hord, h.fits.drained h.orderly.holds (B.insert_values hins), hwrites.allWhole h.whole,
      (h.grows.trans hwrites.grows).mono fun key' hkey' => hkey'.elim id fun heq => (Option.some.inj heq).symm⟩

/-- A record that is loaded. -/
theorem loadRecord_spec {r : LoadedRecord} (hd : w.Short L r.draws) (hs : AllWhole B w L s) (h : loadRecord B w s r = some s') :
    AllWhole B w L s' ∧ Grows B w (fun key => key = w.keyname r.keynum) s s' ∧ Present B w s' (w.keyname r.keynum) := by
  obtain ⟨values, hvalues, h⟩ := Option.bind_eq_some_iff.mp h
  obtain ⟨c, hrun, h⟩ := Option.bind_eq_some_iff.mp h
  replace hvalues : buildValues w.fields (w.keyname r.keynum) r.draws = .ok values := by
    cases hb : buildValues w.fields (w.keyname r.keynum) r.draws with
    | error e => simp [hb, Except.toOption] at hvalues
    | ok v =>
      rw [hb] at hvalues
      rw [Option.some.inj hvalues]
  have hinit : Inserting B w L s (w.keyname r.keynum) values (Insertion.initial s values) :=
    ⟨orderly_initial s hvalues, fitsAll_buildValues hd hvalues, hs, .refl s _⟩
  have hc := exec_invariant (fun _ _ _ hI hstep => hI.step hstep) hinit hrun
  split at h
  · next hout =>
    obtain rfl : c.store = s' := Option.some.inj h
    obtain ⟨record, -, hrec, -⟩ := hc.orderly.stored hout
    exact ⟨hc.whole, hc.grows, record, hrec⟩
  · cases h

/-- **What a load leaves**: the records that are loaded are there, with those that were, and they are whole. -/
theorem load_spec {loaded : List LoadedRecord} (hd : ∀ r ∈ loaded, w.Short L r.draws) (hs : AllWhole B w L s) (h : load B w s loaded = some s') :
    AllWhole B w L s' ∧ Grows B w (fun key => ∃ r ∈ loaded, key = w.keyname r.keynum) s s' ∧ ∀ r ∈ loaded, Present B w s' (w.keyname r.keynum) := by
  induction loaded generalizing s with
  | nil =>
    cases h
    exact ⟨hs, .refl _ _, fun r hr => absurd hr List.not_mem_nil⟩
  | cons r loaded ih =>
    obtain ⟨s₁, hone, hrest⟩ := exec_cons h
    obtain ⟨hwhole, hgrows, hthere⟩ := loadRecord_spec (hd r List.mem_cons_self) hs hone
    obtain ⟨hwhole', hgrows', hall⟩ := ih (fun r' hr' => hd r' (List.mem_cons_of_mem r hr')) hwhole hrest
    refine ⟨hwhole', (hgrows.trans hgrows').mono fun key hkey => ?_, fun r' hr' => ?_⟩
    · rcases hkey with heq | ⟨r', hr', heq⟩
      · exact ⟨r, List.mem_cons_self, heq⟩
      · exact ⟨r', List.mem_cons_of_mem r hr', heq⟩
    · rcases List.mem_cons.mp hr' with rfl | hr'
      · exact hgrows'.kept _ hthere
      · exact hall r' hr'

end Kept

/-! ### Transactions -/

omit [DecidableEq τ] [DecidableEq ν] in
/-- A step of the generator ends no insert. -/
theorem finished_of_gen {c c' : Inserts} {l : Label} (h : insertStep c (.gen l) = some c') : c'.finished = c.finished := by
  cases l with
  | mark keynum =>
    rw [insertStep] at h
    split_ifs at h
    obtain ⟨g, -, rfl⟩ := Option.map_eq_some_iff.mp h
    rfl
  | nextValue | tryLock | scan | publish | unlock =>
    rw [insertStep] at h
    · obtain ⟨g, -, rfl⟩ := Option.map_eq_some_iff.mp h
      rfl
    · intro _ hmark
      cases hmark

theorem finished_of_finish {c c' : Inserts} {keynum : ℤ} (h : insertStep c (.finish keynum) = some c') : c'.finished = keynum :: c.finished := by
  rw [insertStep] at h
  split_ifs at h
  cases h
  rfl

section Run

variable (B : FaithfulStore τ ν σ) (w : CoreWorkload τ ν) (L : ℤ)

/-- The call of an insert succeeds. -/
def Pending.succeeds (s : σ) : Pending ν → Bool
  | .insert keynum values =>
    match B.insert s w.table (w.keyname keynum) values with
    | .ok (some st, _, _) => st.isOk
    | _ => false
  | _ => true

/-- What is asked of a step, when the records with the numbers `loaded` have been loaded. -/
def Undisturbed (loaded : List ℤ) (c : Session ν σ) : Act → Prop
  | .begin operation d =>
    w.Short L d.values ∧
      if Operation.ofName operation = .insert then
        NoOverflow c.inserts.gen .nextValue ∧
          (w.begin c.inserts.gen.toCounterGenerator.nextValue.1 d .insert).toOption.isSome
      else
        (w.exponential = true → 0 ≤ asInt d.key) ∧
          ∀ keynum ∈ nextKeynumRound w.exponential c.inserts.gen.lastValue d.key, keynum < w.keys.recordcount → keynum ∈ loaded
  | .perform n => ∀ p ∈ c.pending[n]?, p.succeeds B w c.store
  | .acknowledge l => NoOverflow c.inserts.gen l ∧ OldestFirst c.inserts.gen l

instance (loaded : List ℤ) (c : Session ν σ) : (act : Act) → Decidable (Undisturbed B w L loaded c act)
  | .begin operation _ => inferInstanceAs (Decidable (_ ∧ if Operation.ofName operation = .insert then _ else _))
  | .perform n => inferInstanceAs (Decidable (∀ p ∈ c.pending[n]?, p.succeeds B w c.store = true))
  | .acknowledge _ => inferInstanceAs (Decidable (_ ∧ _))

/-- What holds of a session that began with the store `s₀`. -/
structure Kept (s₀ : σ) (c : Session ν σ) : Prop where
  /-- The numbers of the keys are in order. -/
  inserts : InsertsSound w.keys.recordcount c.inserts
  /-- The records are whole. -/
  whole : AllWhole B w L c.store
  /-- What is new has been inserted. -/
  grows : Grows B w (fun key => ∃ k ∈ c.inserts.finished, key = w.keyname k) s₀ c.store
  /-- What has been inserted is there. -/
  finished : ∀ k ∈ c.inserts.finished, Present B w c.store (w.keyname k)
  /-- The operations under way have what they need. -/
  pending : ∀ p ∈ c.pending, p.Fits w L ∧ ∀ key ∈ p.key, Present B w c.store key

variable {B w L}

/-- The key that `nextKeynum` gives is there. -/
theorem Kept.present {s₀ : σ} {c : Session ν σ} (h : Kept B w L s₀ c) {loaded : List ℤ}
    (hloaded : ∀ k ∈ loaded, Present B w s₀ (w.keyname k)) (hstart : FitsLong (w.keys.recordcount - 2 ^ 31)) {d keynum : ℤ}
    (hd : w.exponential = true → 0 ≤ asInt d) (hk : nextKeynumRound w.exponential c.inserts.gen.lastValue d = some keynum)
    (hin : keynum < w.keys.recordcount → keynum ∈ loaded) : Present B w c.store (w.keyname keynum) := by
  by_cases hlt : keynum < w.keys.recordcount
  · exact h.grows.kept _ (hloaded keynum (hin hlt))
  · have hlim := h.inserts.gen.limit_le
    have hcounter := h.inserts.gen.fits.2.2
    have hle := nextKeynumRound_le (fun hexp => ⟨hd hexp, ?_⟩) hk
    · exact h.finished keynum (h.inserts.given_finished keynum (h.inserts.acked_given keynum
        (h.inserts.gen.upto keynum (by omega) (hle.trans hlim.2.1))))
    · have hpos := hd hexp
      have hint := fitsInt_asInt d
      show FitsLong (c.inserts.gen.limit - asInt d)
      unfold FitsInt FitsLong at *
      omega

/-- One step. -/
theorem Kept.step {s₀ : σ} {c c' : Session ν σ} (h : Kept B w L s₀ c) {loaded : List ℤ}
    (hloaded : ∀ k ∈ loaded, Present B w s₀ (w.keyname k)) (hstart : FitsLong (w.keys.recordcount - 2 ^ 31)) {act : Act}
    (hact : Undisturbed B w L loaded c act) (hs : c.step B w act = some c') : Kept B w L s₀ c' := by
  cases act with
  | begin operation d =>
    obtain ⟨hshort, hact⟩ := hact
    rw [Session.step] at hs
    split_ifs at hact hs with hop
    · -- an insert takes its number
      obtain ⟨hover, hbuilt⟩ := hact
      obtain ⟨inserts, hnext, hs⟩ := Option.bind_eq_some_iff.mp hs
      have hfin := finished_of_gen hnext
      cases hb : w.begin c.inserts.gen.toCounterGenerator.nextValue.1 d .insert with
      | error e => simp [hb, Except.toOption] at hbuilt
      | ok p =>
        rw [hb] at hs
        cases hs
        obtain ⟨hfits, -, hinsert⟩ := begin_spec (L := L) hshort hb
        obtain ⟨values, rfl⟩ := hinsert rfl
        refine ⟨h.inserts.step (l := .gen .nextValue) ⟨hover, trivial⟩ hnext, h.whole, ?_, ?_, fun p hp => ?_⟩
        · rw [hfin]
          exact h.grows
        · rw [hfin]
          exact h.finished
        · rcases List.mem_append.mp hp with hp | hp
          · exact h.pending p hp
          · rw [List.mem_singleton.mp hp]
            exact ⟨hfits, fun key hkey => by cases hkey⟩
    · -- another operation chooses its key
      obtain ⟨hexp, hin⟩ := hact
      obtain ⟨keynum, hround, hs⟩ := Option.map_eq_some_iff.mp hs
      subst hs
      have hpresent := h.present hloaded hstart hexp hround (hin keynum hround)
      cases hb : w.begin keynum d (Operation.ofName operation) with
      | error e => exact h
      | ok p =>
        obtain ⟨hfits, hkey, -⟩ := begin_spec (L := L) hshort hb
        refine ⟨h.inserts, h.whole, h.grows, h.finished, fun p' hp' => ?_⟩
        rcases List.mem_append.mp hp' with hp' | hp'
        · exact h.pending p' hp'
        · rw [List.mem_singleton.mp hp']
          exact ⟨hfits, fun key hmem => hkey key hmem ▸ hpresent⟩
  | perform n =>
    obtain ⟨p, hp, hs⟩ := Option.bind_eq_some_iff.mp hs
    obtain ⟨inserts, hafter, rfl⟩ := Option.map_eq_some_iff.mp hs
    obtain ⟨hfits, hkeys⟩ := h.pending p (List.mem_of_getElem? hp)
    obtain ⟨hwrites, hleft⟩ := perform_spec h.whole p hfits
    have hpending : ∀ p' ∈ c.pending.eraseIdx n ++ (p.perform B w c.store).2.toList,
        p'.Fits w L ∧ ∀ key ∈ p'.key, Present B w (p.perform B w c.store).1 key := by
      intro p' hp'
      rcases List.mem_append.mp hp' with hp' | hp'
      · obtain ⟨hfits', hkeys'⟩ := h.pending p' (List.mem_of_mem_eraseIdx hp')
        exact ⟨hfits', fun key hkey => hwrites.grows.kept key (hkeys' key hkey)⟩
      · obtain ⟨hsame, hfits'⟩ := hleft p' (Option.mem_toList.mp hp')
        exact ⟨hfits', fun key hkey => hwrites.grows.kept key (hkeys key (hsame ▸ hkey))⟩
    cases hf : p.finishes with
    | none =>
      rw [hf] at hafter hwrites
      cases hafter
      refine ⟨h.inserts, hwrites.allWhole h.whole, ?_, fun k hk => hwrites.grows.kept _ (h.finished k hk), hpending⟩
      exact (h.grows.trans hwrites.grows).mono fun key hkey => hkey.elim id fun heq => by cases heq
    | some keynum =>
      rw [hf] at hafter hwrites
      have hfin := finished_of_finish hafter
      refine ⟨h.inserts.step (l := .finish keynum) trivial hafter, hwrites.allWhole h.whole, ?_, fun k hk => ?_, hpending⟩
      · rw [hfin]
        refine (h.grows.trans hwrites.grows).mono fun key hkey => ?_
        rcases hkey with ⟨k, hk, heq⟩ | heq
        · exact ⟨k, List.mem_cons_of_mem keynum hk, heq⟩
        · exact ⟨keynum, List.mem_cons_self, (Option.some.inj heq).symm⟩
      · rw [hfin] at hk
        rcases List.mem_cons.mp hk with rfl | hk
        · -- the insert has succeeded
          cases p with
          | insert keynum' values =>
            obtain rfl : keynum' = k := Option.some.inj hf
            have hok := hact _ hp
            rw [Pending.succeeds] at hok
            split at hok
            · next st values' s hins =>
              refine ⟨contentsOf values, ?_⟩
              rw [Pending.perform, hins]
              exact (B.insert_ok hins hok).2
            · cases hok
          | read | scan | update | readModifyWrite | extend => cases hf
        · exact hwrites.grows.kept _ (h.finished k hk)
  | acknowledge l =>
    rw [Session.step] at hs
    split_ifs at hs
    obtain ⟨inserts, hgen, rfl⟩ := Option.map_eq_some_iff.mp hs
    have hfin := finished_of_gen hgen
    refine ⟨h.inserts.step (l := .gen l) hact hgen, h.whole, ?_, ?_, h.pending⟩
    · rw [hfin]
      exact h.grows
    · rw [hfin]
      exact h.finished

end Run

open YcsbIvs.RocksDB

/-- The names of keys are ASCII. -/
theorem asciiString_buildKeyName (keynum zeropadding : ℤ) (orderedinserts : Bool) : AsciiString (buildKeyName keynum zeropadding orderedinserts) := by
  rw [buildKeyName]
  refine ((asciiString_of_all rfl).append fun c hc => ?_).append (asciiString_longToString _)
  rw [(List.mem_replicate.mp hc).2]
  decide

theorem wellFormed_of_ascii {s : Utf16} (h : AsciiString s) : WellFormed s = true := by
  rw [← decode_toBytes h]
  exact wellFormed_decode _

/-- One record with one field is loaded, and the fields are at most ten bytes long. -/
def workloadOne : CoreWorkload Utf16 Name where
  table := tableT
  fields := ⟨[field0], Subtype.val, false⟩
  zeropadding := 1
  orderedinserts := true
  keyname keynum := ⟨buildKeyName keynum 1 true, wellFormed_of_ascii (asciiString_buildKeyName keynum 1 true)⟩
  keyname_string _ := rfl
  keys := ⟨1, 0, 1⟩
  exponential := false
  maxfieldlength := 11
  readallfields := true
  readallfieldsbyname := false
  writeallfields := true
  retries := ⟨0, 3⟩

/-- The number of a key and values of three bytes. -/
def drawOf (key : ℤ) : TransactionDraw := ⟨key, 0, 0, 1, fun _ => ⟨3, 3, fun _ => 0⟩⟩

/-- While a record is inserted another is read to be modified; once the first is acknowledged, it is extended. -/
def actsThree : List Act :=
  [.begin "INSERT" (drawOf 0), .begin "READMODIFYWRITE" (drawOf 0), .perform 1, .perform 0, .acknowledge (.mark 1), .acknowledge .tryLock,
    .acknowledge .scan, .acknowledge .scan, .acknowledge .publish, .begin "EXTEND" (drawOf 1), .perform 1]

/-- What is loaded first. -/
def loadedOne : List LoadedRecord := [⟨0, (drawOf 0).values, [.rested]⟩]

end YcsbIvs.Workloads
