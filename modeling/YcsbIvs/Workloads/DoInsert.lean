import YcsbIvs.RocksDB.Binding
import YcsbIvs.Workloads.Values

/-!
# Retrying an insert

`doInsert` builds the values of a record once, and calls `db.insert` with them until that
succeeds or `insertionRetryLimit` attempts more have been made. The iterators can be read
once; so an attempt is offered what the attempts before it have left.

Every attempt is offered the same bytes exactly when no attempt that is made again has used up
an iterator with bytes in it, and then what is stored has the lengths drawn for it
(`sameBytes_iff`). `RocksDBClient` uses up all of them before `rocksDb.put` fails, and the
record stored in the end is empty (`not_sameBytes`).
-/

namespace YcsbIvs.Workloads

open YcsbIvs.Foundations YcsbIvs.Core

variable {τ ν σ : Type} [DecidableEq τ] [DecidableEq ν]

/-- When an insert is tried again. -/
structure Retries where
  /-- `insertionRetryLimit`. -/
  insertionRetryLimit : ℤ
  /-- `insertionRetryInterval`, in seconds. -/
  insertionRetryInterval : ℤ

/-- How the sleep before the next attempt ends. -/
inductive Wakes where
  /-- In its time. -/
  | rested
  /-- With an `InterruptedException`. -/
  | interrupted
  deriving DecidableEq

/-- A call of `doInsert`. -/
structure Insertion (ν σ : Type) where
  /-- The store. -/
  store : σ
  /-- `values`. -/
  values : Values ν
  /-- `numOfRetries`. -/
  numOfRetries : ℤ
  /-- What each attempt was offered. -/
  offered : List (Record ν)
  /-- What `doInsert` has returned or thrown. -/
  outcome : Option (Except Throwable Bool)

/-- The call with its values built, before the first attempt. -/
def Insertion.initial (s : σ) (values : Values ν) : Insertion ν σ := ⟨s, values, 0, [], none⟩

/-- What `doInsert` returns or throws after an attempt that has given `status`; `none` if it
tries again. `Thread.sleep` throws for a time below zero, which the time in milliseconds is if
it has overflown to one. -/
def afterAttempt (w : Retries) (status : Option Status) (numOfRetries : ℤ) (wakes : Wakes) :
    Option (Except Throwable Bool) :=
  if status.any Status.isOk then some (.ok true)
  else if asInt (numOfRetries + 1) ≤ w.insertionRetryLimit then
    if asInt (1000 * w.insertionRetryInterval) < 0 then some (.error .illegalArgument)
    else if wakes = .interrupted then some (.ok false)
    else none
  else some (.ok false)

variable (B : InsertBinding τ ν σ) (w : Retries) (table : τ) (key : ν)

/-- One attempt. -/
def attempt (c : Insertion ν σ) (wakes : Wakes) : Option (Insertion ν σ) :=
  match c.outcome with
  | some _ => none
  | none =>
    match B.insert c.store table key c.values with
    | .error e => some { c with offered := c.offered ++ [contentsOf c.values], outcome := some (.error e) }
    | .ok (status, values, s) =>
      some
        { store := s
          values := values
          numOfRetries := if status.any Status.isOk then c.numOfRetries else asInt (c.numOfRetries + 1)
          offered := c.offered ++ [contentsOf c.values]
          outcome := afterAttempt w status c.numOfRetries wakes }

/-- The attempt is not made again, or it leaves alone every iterator with bytes in it. -/
def Spares (c : Insertion ν σ) (wakes : Wakes) : Prop :=
  ∀ status values s, B.insert c.store table key c.values = .ok (status, values, s) →
    afterAttempt w status c.numOfRetries wakes = none →
    ∀ f it bs, c.values.lookup f = some it → it.contents = some bs → B.drains c.store table key c.values f = true →
      bs = []

/-- Every attempt has been offered the same bytes, and so will the next one be, if there is
one. -/
def SameBytes (values : Values ν) (c : Insertion ν σ) : Prop :=
  (∀ r ∈ c.offered, r = contentsOf values) ∧ (c.outcome = none → contentsOf c.values = contentsOf values)

/-- If `true` was returned, the record stored has in each field a value of the length that
`fieldlengthgenerator` gave. -/
def StoresDrawn (fields : Fields ν) (draws : ℕ → Draw) (c : Insertion ν σ) : Prop :=
  c.outcome = some (.ok true) → ∃ r, B.records c.store table key = some r ∧
    (∀ f, f ∉ fields.fieldnames → r f = none) ∧
    ∀ f ∈ fields.fieldnames, ∃ i bs, fields.fieldnames[i]? = some f ∧ r f = some bs ∧
      (bs.length : ℤ) = asInt (draws i).fieldlength ∧
      (fields.dataintegrity = false → asInt (draws i).fieldlength = (draws i).fieldlength)

/-- What holds of the iterators, and of the record when `true` has been returned. -/
structure Orderly (values : Values ν) (c : Insertion ν σ) : Prop where
  /-- The fields are those there were. -/
  fields : ∀ f, (c.values.lookup f).isSome = (values.lookup f).isSome
  /-- An iterator that can be read can be read once. -/
  holds : ∀ f it bs, c.values.lookup f = some it → it.contents = some bs → it.Holds bs
  /-- The record stored is one that was offered, and could be read. -/
  stored : c.outcome = some (.ok true) → ∃ r ∈ c.offered, B.records c.store table key = some r ∧
    ∀ f, (values.lookup f).isSome → (r f).isSome

variable {B w table key}

/-- An attempt has offered what there was. -/
theorem offered_of_attempt {c c' : Insertion ν σ} {wakes : Wakes} (hs : attempt B w table key c wakes = some c') :
    c.outcome = none ∧ c'.offered = c.offered ++ [contentsOf c.values] := by
  rw [attempt] at hs
  cases hout : c.outcome with
  | some r => simp [hout] at hs
  | none =>
    cases hins : B.insert c.store table key c.values with
    | error e =>
      simp only [hout, hins, Option.some.injEq] at hs
      subst hs
      exact ⟨rfl, rfl⟩
    | ok o =>
      obtain ⟨status, values, s⟩ := o
      simp only [hout, hins, Option.some.injEq] at hs
      subst hs
      exact ⟨rfl, rfl⟩

/-- An attempt that is made again has failed, and left the iterators used up or alone. -/
theorem insert_of_attempt {c c' : Insertion ν σ} {wakes : Wakes} (hs : attempt B w table key c wakes = some c')
    (hagain : c'.outcome = none) : ∃ status,
      B.insert c.store table key c.values = .ok (status, c'.values, c'.store) ∧
        afterAttempt w status c.numOfRetries wakes = none := by
  rw [attempt] at hs
  cases hout : c.outcome with
  | some r => simp [hout] at hs
  | none =>
    cases hins : B.insert c.store table key c.values with
    | error e =>
      simp only [hout, hins, Option.some.injEq] at hs
      subst hs
      cases hagain
    | ok o =>
      obtain ⟨status, values, s⟩ := o
      simp only [hout, hins, Option.some.injEq] at hs
      subst hs
      exact ⟨status, rfl, hagain⟩

/-- An attempt leaves the store as it was, or as the insert leaves it. -/
theorem store_of_attempt {c c' : Insertion ν σ} {wakes : Wakes} (hs : attempt B w table key c wakes = some c') :
    c'.store = c.store ∨ ∃ status values', B.insert c.store table key c.values = .ok (status, values', c'.store) := by
  have hout := (offered_of_attempt hs).1
  cases hins : B.insert c.store table key c.values with
  | error e =>
    simp only [attempt, hout, hins, Option.some.injEq] at hs
    subst hs
    exact .inl rfl
  | ok o =>
    obtain ⟨status, values', s⟩ := o
    simp only [attempt, hout, hins, Option.some.injEq] at hs
    subst hs
    exact .inr ⟨status, values', rfl⟩

/-- The last attempt is not made again. -/
theorem spares_of_outcome {c c' : Insertion ν σ} {wakes : Wakes} (hs : attempt B w table key c wakes = some c')
    (hlast : c'.outcome ≠ none) : Spares B w table key c wakes := by
  intro status values s hins hagain
  have hout := (offered_of_attempt hs).1
  simp only [attempt, hout, hins, Option.some.injEq] at hs
  subst hs
  exact absurd hagain hlast

/-- `true` is returned only after an attempt that has succeeded. -/
theorem isOk_of_afterAttempt {status : Option Status} {numOfRetries : ℤ} {wakes : Wakes}
    (h : afterAttempt w status numOfRetries wakes = some (.ok true)) : ∃ st, status = some st ∧ st.isOk = true := by
  rw [afterAttempt] at h
  split_ifs at h with hok
  · cases status with
    | none => cases hok
    | some st => exact ⟨st, rfl, hok⟩
  all_goals simp at h

/-- The bytes of an iterator that is used up are those it had only if it had none. -/
theorem contents_drain_eq {it : ByteIterator} (hholds : ∀ bs, it.contents = some bs → it.Holds bs) :
    it.drain.contents = it.contents ↔ ∀ bs, it.contents = some bs → bs = [] := by
  constructor
  · intro h bs hbs
    have hempty := ByteIterator.contents_drain_of_holds (hholds bs hbs)
    rw [h, hbs] at hempty
    exact Option.some.inj hempty
  · intro h
    cases hbs : it.contents with
    | none => exact (ByteIterator.contents_drain_of_none hbs).trans hbs
    | some bs =>
      rw [ByteIterator.contents_drain_of_holds (hholds bs hbs), h bs hbs]

/-- The iterators stay as `Orderly` says. -/
theorem Orderly.step {values : Values ν} {c c' : Insertion ν σ} {wakes : Wakes} (h : Orderly B table key values c)
    (hs : attempt B w table key c wakes = some c') : Orderly B table key values c' := by
  obtain ⟨hfields, hholds, -⟩ := h
  have hout := (offered_of_attempt hs).1
  rw [attempt, hout] at hs
  cases hins : B.insert c.store table key c.values with
  | error e =>
    simp only [hins, Option.some.injEq] at hs
    subst hs
    exact ⟨hfields, hholds, fun h => by simp at h⟩
  | ok o =>
    obtain ⟨status, values', s⟩ := o
    simp only [hins, Option.some.injEq] at hs
    subst hs
    have hvalues := B.insert_values hins
    refine ⟨fun f => ?_, fun f it bs hit hbs => ?_, fun htrue => ?_⟩
    · rw [← hfields f, hvalues f, Option.isSome_map]
    · rw [hvalues f] at hit
      obtain ⟨it₀, hit₀, rfl⟩ := Option.map_eq_some_iff.mp hit
      split_ifs at hbs ⊢ with hdrains
      · exact ByteIterator.holds_drain (hholds f it₀ · hit₀) hbs
      · exact hholds f it₀ bs hit₀ hbs
    · obtain ⟨st, rfl, hok⟩ := isOk_of_afterAttempt htrue
      obtain ⟨hread, hrec⟩ := B.insert_ok hins hok
      refine ⟨contentsOf c.values, List.mem_append_right _ (List.mem_singleton.mpr rfl), hrec, fun f hf => ?_⟩
      rw [← hfields f] at hf
      obtain ⟨it, hit⟩ := Option.isSome_iff_exists.mp hf
      obtain ⟨bs, hbs⟩ := hread f it hit
      rw [contentsOf, hit, Option.bind_some, hbs]
      rfl

/-- After an insert the iterators give what they gave, if those used up had nothing left. -/
theorem contentsOf_insert_iff {values : Values ν} {c : Insertion ν σ} (h : Orderly B table key values c)
    {status : Option Status} {values' : Values ν} {s : σ}
    (hins : B.insert c.store table key c.values = .ok (status, values', s)) :
    contentsOf values' = contentsOf c.values ↔ ∀ f it bs, c.values.lookup f = some it → it.contents = some bs →
      B.drains c.store table key c.values f = true → bs = [] := by
  have hfield : ∀ f, contentsOf values' f = contentsOf c.values f ↔ ∀ it bs, c.values.lookup f = some it →
      it.contents = some bs → B.drains c.store table key c.values f = true → bs = [] := by
    intro f
    rw [contentsOf, contentsOf, B.insert_values hins f]
    cases hit : c.values.lookup f with
    | none => simp
    | some it =>
      rw [Option.map_some, Option.bind_some, Option.bind_some]
      split_ifs with hdrains
      · rw [contents_drain_eq fun bs => h.holds f it bs hit]
        exact ⟨fun hall it' bs heq hbs _ => hall bs (by rwa [Option.some.inj heq]),
          fun hall bs hbs => hall it bs rfl hbs hdrains⟩
      · exact ⟨fun _ _ _ _ _ hd => absurd hd hdrains, fun _ => rfl⟩
  exact ⟨fun heq f it bs => (hfield f).mp (congrFun heq f) it bs,
    fun hall => funext fun f => (hfield f).mpr (hall f)⟩

/-- An attempt that is made again offers the next one the same bytes exactly if it spares
them. -/
theorem contents_eq_iff_spares {values : Values ν} {c c' : Insertion ν σ} {wakes : Wakes}
    (h : Orderly B table key values c) (hs : attempt B w table key c wakes = some c') :
    (c'.outcome = none → contentsOf c'.values = contentsOf c.values) ↔ Spares B w table key c wakes := by
  constructor
  · intro hsame status values' s hins hagain
    refine (contentsOf_insert_iff h hins).mp ?_
    have hout := (offered_of_attempt hs).1
    simp only [attempt, hout, hins, Option.some.injEq] at hs
    subst hs
    exact hsame hagain
  · intro hspares hagain
    obtain ⟨status, hins, hnone⟩ := insert_of_attempt hs hagain
    exact (contentsOf_insert_iff h hins).mpr (hspares status c'.values c'.store hins hnone)

/-- The bytes were the same before an attempt if they are the same after it. -/
theorem SameBytes.of_attempt {values : Values ν} {c c' : Insertion ν σ} {wakes : Wakes}
    (hs : attempt B w table key c wakes = some c') (h : SameBytes values c') : SameBytes values c := by
  have hoff := (offered_of_attempt hs).2
  obtain ⟨hall, -⟩ := h
  rw [hoff] at hall
  exact ⟨fun r hr => hall r (List.mem_append_left _ hr),
    fun _ => hall _ (List.mem_append_right _ (List.mem_singleton.mpr rfl))⟩

/-- An attempt keeps the bytes the same if and only if it spares them. -/
theorem SameBytes.attempt_iff {values : Values ν} {c c' : Insertion ν σ} {wakes : Wakes}
    (h : Orderly B table key values c) (hsame : SameBytes values c) (hs : attempt B w table key c wakes = some c') :
    SameBytes values c' ↔ Spares B w table key c wakes := by
  obtain ⟨hout, hoff⟩ := offered_of_attempt hs
  have hnow := hsame.2 hout
  rw [← contents_eq_iff_spares h hs]
  constructor
  · intro h' hagain
    rw [h'.2 hagain, hnow]
  · intro h'
    refine ⟨fun r hr => ?_, fun hagain => (h' hagain).trans hnow⟩
    rw [hoff] at hr
    rcases List.mem_append.mp hr with hr | hr
    · exact hsame.1 r hr
    · rw [List.mem_singleton.mp hr, hnow]

/-- What is stored is what was offered, with the lengths drawn. -/
theorem storesDrawn_of_sameBytes {fields : Fields ν} {draws : ℕ → Draw} {values : Values ν} {c : Insertion ν σ}
    (hvalues : buildValues fields key draws = .ok values) (h : Orderly B table key values c)
    (hsame : SameBytes values c) : StoresDrawn B table key fields draws c := by
  intro htrue
  obtain ⟨hout, hin⟩ := Fields.putAll_lookup hvalues
  obtain ⟨r, hr, hrec, hsome⟩ := h.stored htrue
  obtain rfl := hsame.1 r hr
  refine ⟨_, hrec, fun f hf => ?_, fun f hf => ?_⟩
  · rw [contentsOf, hout f hf]
    rfl
  · obtain ⟨i, it, hi, hit, hlook⟩ := hin f hf
    obtain ⟨bs, hbs⟩ := Option.isSome_iff_exists.mp (hsome f (by rw [hlook]; rfl))
    have hc : it.contents = some bs := by
      rw [contentsOf, hlook] at hbs
      exact hbs
    obtain ⟨-, hlen, hfits⟩ := Fields.data_holds hit hc
    exact ⟨i, bs, hi, hbs, hlen, hfits⟩

theorem orderly_initial {fields : Fields ν} {draws : ℕ → Draw} {values : Values ν} (s : σ)
    (hvalues : buildValues fields key draws = .ok values) :
    Orderly B table key values (Insertion.initial s values) := by
  obtain ⟨hout, hin⟩ := Fields.putAll_lookup hvalues
  refine ⟨fun _ => rfl, fun f it bs hit hbs => ?_, fun h => by cases h⟩
  by_cases hf : f ∈ fields.fieldnames
  · obtain ⟨i, it', hi, hdata, hlook⟩ := hin f hf
    obtain rfl : it' = it := Option.some.inj (hlook.symm.trans hit)
    exact (Fields.data_holds hdata hbs).1
  · have hnone : values.lookup f = none := hout f hf
    rw [Insertion.initial, hnone] at hit
    cases hit

/-- **When the attempts are offered the same bytes**: exactly if every attempt that is made
again has left alone the iterators with bytes in them; and what is stored then has the lengths
that were drawn. -/
theorem sameBytes_iff {fields : Fields ν} {draws : ℕ → Draw} {values : Values ν}
    (hvalues : buildValues fields key draws = .ok values) {s : σ} {ls : List Wakes} {c : Insertion ν σ}
    (hrun : exec (attempt B w table key) (Insertion.initial s values) ls = some c) :
    (SameBytes values c ↔ Meets (attempt B w table key) (Spares B w table key) (Insertion.initial s values) ls) ∧
      (SameBytes values c → StoresDrawn B table key fields draws c) := by
  have hinit : Orderly B table key values (Insertion.initial s values) := orderly_initial s hvalues
  have hfirst : SameBytes values (Insertion.initial s values) := ⟨fun r hr => absurd hr List.not_mem_nil, fun _ => rfl⟩
  have horderly := exec_invariant (I := Orderly B table key values) (fun _ _ _ h hs => h.step hs) hinit hrun
  refine ⟨⟨fun hsame => ?_, fun hmeets => ?_⟩, storesDrawn_of_sameBytes hvalues horderly⟩
  · clear horderly hfirst
    -- backwards from the last state: the bytes were the same in every state before it
    have hall : ∀ (ls : List Wakes) (d : Insertion ν σ), Orderly B table key values d →
        exec (attempt B w table key) d ls = some c →
        SameBytes values d ∧ Meets (attempt B w table key) (Spares B w table key) d ls := by
      intro ls
      induction ls with
      | nil =>
        intro d _ hd
        cases hd
        exact ⟨hsame, trivial⟩
      | cons l ls ih =>
        intro d hord hd
        obtain ⟨d', hs, hrest⟩ := exec_cons hd
        obtain ⟨hsame', hmeets'⟩ := ih d' (hord.step hs) hrest
        have hsame₀ := hsame'.of_attempt hs
        refine ⟨hsame₀, (SameBytes.attempt_iff hord hsame₀ hs).mp hsame', fun d'' hs' => ?_⟩
        obtain rfl : d' = d'' := Option.some.inj (hs.symm.trans hs')
        exact hmeets'
    exact (hall ls _ hinit hrun).2
  · have hboth := exec_invariant_of (I := fun c => Orderly B table key values c ∧ SameBytes values c)
      (fun _ _ _ h hl hs => ⟨h.1.step hs, (SameBytes.attempt_iff h.1 h.2 hs).mpr hl⟩) ⟨hinit, hfirst⟩ hmeets hrun
    exact hboth.2

open YcsbIvs.RocksDB

/-- A workload with the one field `f`. -/
def fieldsF : Fields Name := ⟨[fieldF], Subtype.val, false⟩

/-- Three random bytes for each field. -/
def threeBytes (_ : ℕ) : Draw := ⟨3, 3, fun _ => 0⟩

/-- The values made of them. -/
def randomF : Values Name := oneField (.random (.ofLength 3 fun _ => 0))

theorem buildValues_fieldsF : buildValues fieldsF keyK threeBytes = .ok randomF := rfl

/-- A call of `doInsert` on a new database, with one more attempt if the first one fails. -/
def insertF (fails : ℕ → Bool) : Option (Insertion Name Store) :=
  exec (attempt (insertBinding keptOrder) ⟨1, 3⟩ tableT keyK) (Insertion.initial (newStore fails) randomF)
    [.rested, .rested]

/-- The first attempt can not create the column family, and reads no iterator. -/
theorem sameBytes_iff_createFails :
    ∃ c, insertF (fun n => n = 0) = some c ∧ c.outcome = some (.ok true) ∧ c.offered.length = 2 ∧ SameBytes randomF c ∧
      StoresDrawn (insertBinding keptOrder) tableT keyK fieldsF threeBytes c := by
  have hfinal : (insertF fun n => n = 0).map (fun c => (c.outcome, c.offered.length)) = some (some (.ok true), 2) := rfl
  obtain ⟨c, hrun, hc⟩ := Option.map_eq_some_iff.mp hfinal
  simp only [Prod.mk.injEq] at hc
  obtain ⟨hout, hlen⟩ := hc
  have hmeets : Meets (attempt (insertBinding keptOrder) ⟨1, 3⟩ tableT keyK)
      (Spares (insertBinding keptOrder) ⟨1, 3⟩ tableT keyK) (Insertion.initial (newStore fun n => n = 0) randomF)
      [.rested, .rested] := by
    refine ⟨fun _ _ _ _ _ f it bs _ _ hdrains => ?_, fun c' hs => ⟨?_, fun _ _ => trivial⟩⟩
    · have hnone : (insertBinding keptOrder).drains (newStore fun n => n = 0) tableT keyK randomF f = false := rfl
      exact absurd hdrains (by rw [Insertion.initial, hnone]; decide)
    · have hlast : attempt (insertBinding keptOrder) ⟨1, 3⟩ tableT keyK c' .rested = some c := by
        have hrest := hrun
        rw [insertF, exec_cons_of hs] at hrest
        obtain ⟨c'', hs', hnil⟩ := exec_cons hrest
        cases hnil
        exact hs'
      exact spares_of_outcome hlast (by rw [hout]; decide)
  obtain ⟨hiff, hstores⟩ := sameBytes_iff buildValues_fieldsF hrun
  exact ⟨c, hrun, hout, hlen, hiff.mpr hmeets, hstores (hiff.mpr hmeets)⟩

/-- The first attempt creates the column family, serializes the values, and can not store
them: the second one is offered an iterator that is used up, and stores an empty value, where
three bytes were drawn. -/
theorem not_sameBytes :
    ∃ c, insertF (fun n => n = 1) = some c ∧ c.outcome = some (.ok true) ∧ ¬ SameBytes randomF c ∧
      ¬ StoresDrawn (insertBinding keptOrder) tableT keyK fieldsF threeBytes c := by
  have hfinal : (insertF fun n => n = 1).map (fun c => (c.outcome, c.offered.map fun r => r fieldF,
      ((insertBinding keptOrder).records c.store tableT keyK).bind fun r => r fieldF)) =
      some (some (.ok true), [some [32, 32, 32], some []], some []) := by decide +kernel
  obtain ⟨c, hrun, hc⟩ := Option.map_eq_some_iff.mp hfinal
  simp only [Prod.mk.injEq] at hc
  obtain ⟨hout, hoffered, hrec⟩ := hc
  refine ⟨c, hrun, hout, ?_, ?_⟩
  · rintro ⟨hall, -⟩
    obtain ⟨r, hr, hempty⟩ : ∃ r ∈ c.offered, r fieldF = some [] := by
      refine List.mem_map.mp ?_
      rw [hoffered]
      exact List.mem_cons_of_mem _ List.mem_cons_self
    rw [hall r hr] at hempty
    exact absurd hempty (by decide)
  · intro hstores
    obtain ⟨r, hr, -, hin⟩ := hstores hout
    obtain ⟨i, bs, -, hbs, hlen, -⟩ := hin fieldF List.mem_cons_self
    rw [hr, Option.bind_some, hbs] at hrec
    cases hrec
    have hthree : (0 : ℤ) = asInt 3 := hlen
    exact absurd hthree (by decide)

end YcsbIvs.Workloads
