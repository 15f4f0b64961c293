import YcsbIvs.Core.DB
import YcsbIvs.Foundations.Interned
import YcsbIvs.Foundations.Runs

/-!
# The measurements of all threads

The threads of a client share one `Measurements`: two maps from the names of operations to their measurements, and in each measurement a map from statuses to
counters. All are filled as they are needed: who does not find an entry makes one, and `putIfAbsent` says whether it is the one to use. Between the `get`, the
`putIfAbsent` and the use of the entry other threads do the same (`step`).

No call is lost by that, and none is counted twice (`registered`): a measurement has been given the latencies of all the calls of `measure` that have ended, in the
order in which they did, and the counter of a status is the number of the calls of `reportStatus`, as an `int`.

What a measurement makes of a latency is a parameter: `measure` of a histogram and of the raw values are `synchronized`, and so one step.
-/

namespace YcsbIvs.Measurements.Registry

open YcsbIvs.Foundations YcsbIvs.Core

/-! ### Calls -/

/-- `measurementInterval`. -/
inductive Interval where
  | op | intended | both
  deriving DecidableEq, Repr

/-- An entry of one of the two maps. -/
inductive Slot where
  /-- Of `opToMesurementMap`. -/
  | op (operation : String)
  /-- Of `opToIntendedMesurementMap`. -/
  | intended (operation : String)
  deriving DecidableEq, Repr

/-- The name that the measurement is made with. -/
def Slot.name (interval : Interval) : Slot → String
  | .op operation => operation
  | .intended operation => if interval = .intended then operation else "Intended-" ++ operation

/-- What a measurement is given. -/
inductive Work (ς : Type) where
  /-- `measure(latency)`. -/
  | measure (latency : ℤ)
  /-- `reportStatus(status)`. -/
  | reportStatus (status : ς)
  deriving DecidableEq

/-- A call of `Measurements`. -/
inductive Call (ς : Type) where
  /-- `measure(operation, latency)`. -/
  | measure (operation : String) (latency : ℤ)
  /-- `measureIntended(operation, latency)`. -/
  | measureIntended (operation : String) (latency : ℤ)
  /-- `reportStatus(operation, status)`. -/
  | reportStatus (operation : String) (status : ς)

/-- What is to be done, and by which measurement; nothing if the interval is not asked for. -/
def Call.work {ς : Type} (interval : Interval) : Call ς → Option (Slot × Work ς)
  | .measure operation latency => if interval = .intended then none else some (.op operation, .measure latency)
  | .measureIntended operation latency => if interval = .op then none else some (.intended operation, .measure latency)
  | .reportStatus operation status =>
    some (if interval = .intended then .intended operation else .op operation, .reportStatus status)

/-! ### The maps -/

/-- `OneMeasurement`, with what its class makes of the latencies. -/
structure OneMeasurement (ς μ : Type) [DecidableEq ς] where
  /-- `name`. -/
  name : String
  /-- `returncodes`. -/
  returncodes : Interned ς ℤ
  /-- The fields of the class. -/
  data : μ

/-- A call that has not ended. -/
inductive Pending (ς : Type) where
  /-- About to `get` the measurement. -/
  | get (slot : Slot) (work : Work ς)
  /-- There is none. -/
  | missing (slot : Slot) (work : Work ς)
  /-- It has one. -/
  | found (slot : Slot) (m : ℕ) (work : Work ς)
  /-- There is no counter for the status. -/
  | noCounter (slot : Slot) (m : ℕ) (status : ς)
  /-- It has one. -/
  | counter (slot : Slot) (m : ℕ) (status : ς) (c : ℕ)

/-- The measurements and the calls. -/
structure State (ς μ : Type) [DecidableEq ς] where
  /-- Both maps. -/
  table : Interned Slot (OneMeasurement ς μ)
  /-- The calls that have not ended. -/
  pending : List (Pending ς)
  /-- What has been done, in order. -/
  done : List (Slot × Work ς)

/-- A step of a thread. -/
inductive Label (ς : Type) where
  /-- A call begins. -/
  | call (c : Call ς)
  /-- The `n`th call that has not ended goes on. -/
  | advance (n : ℕ)

variable {ς μ : Type} [DecidableEq ς]

/-- What a step of a call leaves: the maps, and the rest of the call or what has been done. -/
abbrev After (ς μ : Type) [DecidableEq ς] := Interned Slot (OneMeasurement ς μ) × (Pending ς ⊕ Slot × Work ς)

variable (interval : Interval) (construct : String → μ) (record : μ → ℤ → μ)

/-- The entry of a status, made if there is none. -/
def OneMeasurement.putIfAbsent (o : OneMeasurement ς μ) (status : ς) : OneMeasurement ς μ :=
  { o with returncodes := (o.returncodes.putIfAbsent status 0).1 }

/-- `counter.incrementAndGet()`. -/
def OneMeasurement.incrementAndGet (c : ℕ) (o : OneMeasurement ς μ) : OneMeasurement ς μ :=
  { o with returncodes := o.returncodes.modify c fun n => asInt (n + 1) }

/-- The next step of a call. -/
def Pending.advance (table : Interned Slot (OneMeasurement ς μ)) : Pending ς → Option (After ς μ)
  | .get slot work =>
    match table.address slot with
    | some m => some (table, .inl (.found slot m work))
    | none => some (table, .inl (.missing slot work))
  | .missing slot work =>
    let (table, m) := table.putIfAbsent slot ⟨slot.name interval, .empty, construct (slot.name interval)⟩
    some (table, .inl (.found slot m work))
  | .found slot m (.measure latency) =>
    some (table.modify m fun o => { o with data := record o.data latency }, .inr (slot, .measure latency))
  | .found slot m (.reportStatus status) =>
    table.cells[m]?.map fun o =>
      match o.returncodes.address status with
      | some c => (table, .inl (.counter slot m status c))
      | none => (table, .inl (.noCounter slot m status))
  | .noCounter slot m status =>
    table.cells[m]?.map fun o =>
      (table.modify m fun o => o.putIfAbsent status, .inl (.counter slot m status (o.returncodes.putIfAbsent status 0).2))
  | .counter slot m status c => some (table.modify m (OneMeasurement.incrementAndGet c), .inr (slot, .reportStatus status))

/-- One step. -/
def step (s : State ς μ) : Label ς → Option (State ς μ)
  | .call c =>
    match c.work interval with
    | some (slot, work) => some { s with pending := s.pending ++ [.get slot work] }
    | none => some s
  | .advance n =>
    s.pending[n]?.bind fun p => (p.advance interval construct record s.table).map fun
      | (table, .inl p') => ⟨table, s.pending.eraseIdx n ++ [p'], s.done⟩
      | (table, .inr entry) => ⟨table, s.pending.eraseIdx n, s.done ++ [entry]⟩

/-- Before any call. -/
def State.initial : State ς μ := ⟨.empty, [], []⟩

/-- The counts that `exportStatusCounts` writes. -/
def OneMeasurement.exportStatusCounts (o : OneMeasurement ς μ) : List (ς × ℤ) := o.returncodes.entries

/-! ### What is done -/

/-- The latencies that the measurement of a slot has been given. -/
def latencies (done : List (Slot × Work ς)) (slot : Slot) : List ℤ :=
  done.filterMap fun
    | (slot', .measure latency) => if slot' = slot then some latency else none
    | _ => none

/-- How often it has been given a status. -/
def reports (done : List (Slot × Work ς)) (slot : Slot) (status : ς) : ℕ := done.count (slot, .reportStatus status)

/-- A measurement is what has been done makes of a new one. -/
structure Agrees (done : List (Slot × Work ς)) (slot : Slot) (o : OneMeasurement ς μ) : Prop where
  /-- Its name. -/
  name : o.name = slot.name interval
  /-- Its latencies. -/
  data : o.data = (latencies done slot).foldl record (construct (slot.name interval))
  /-- A counter that there is. -/
  counter : ∀ status n, o.returncodes.find status = some n → n = asInt (reports done slot status)
  /-- A counter that there is not. -/
  noCounter : ∀ status, o.returncodes.find status = none → reports done slot status = 0

/-- What a call holds is in the maps. -/
def Pending.Holds (table : Interned Slot (OneMeasurement ς μ)) : Pending ς → Prop
  | .get _ _ | .missing _ _ => True
  | .found slot m _ | .noCounter slot m _ => table.address slot = some m
  | .counter slot m status c => table.address slot = some m ∧ ∀ o ∈ table.find slot, o.returncodes.address status = some c

/-- The maps are what has been done makes of empty ones. -/
structure Accounts (table : Interned Slot (OneMeasurement ς μ)) (done : List (Slot × Work ς)) : Prop where
  /-- Each measurement is right. -/
  agrees : ∀ slot o, table.find slot = some o → Agrees interval construct record done slot o
  /-- Nothing has been done by one that there is not. -/
  absent : ∀ slot, table.find slot = none → ∀ work, (slot, work) ∉ done

/-- What holds of the maps and the calls. -/
structure Registered (s : State ς μ) : Prop where
  /-- The maps are right. -/
  accounts : Accounts interval construct record s.table s.done
  /-- The calls hold what is in them. -/
  holds : ∀ p ∈ s.pending, p.Holds s.table

/-- What a call may hold is still in the maps. -/
def Extends (table table' : Interned Slot (OneMeasurement ς μ)) : Prop :=
  ∀ slot m, table.address slot = some m → table'.address slot = some m ∧
    ∀ o' ∈ table'.find slot, ∃ o ∈ table.find slot, ∀ status c, o.returncodes.address status = some c → o'.returncodes.address status = some c

variable {interval construct record}
variable {done : List (Slot × Work ς)} {slot : Slot} {o : OneMeasurement ς μ} {table table' : Interned Slot (OneMeasurement ς μ)}

/-! ### One measurement -/

omit [DecidableEq ς] in
theorem latencies_append (done new : List (Slot × Work ς)) (slot : Slot) : latencies (done ++ new) slot = latencies done slot ++ latencies new slot :=
  List.filterMap_append

/-- One more call. -/
theorem reports_concat (done : List (Slot × Work ς)) (e : Slot × Work ς) (slot : Slot) (status : ς) :
    reports (done ++ [e]) slot status = reports done slot status + if e = (slot, .reportStatus status) then 1 else 0 := by
  simp only [reports, List.count_append, List.count_singleton, beq_iff_eq]

/-- What others are given. -/
theorem Agrees.append (h : Agrees interval construct record done slot o) {new : List (Slot × Work ς)} (hnew : ∀ e ∈ new, e.1 ≠ slot) :
    Agrees interval construct record (done ++ new) slot o := by
  have hlat : latencies new slot = [] := by
    refine List.filterMap_eq_nil_iff.mpr fun e he => ?_
    have hne := hnew e he
    obtain ⟨slot', work⟩ := e
    cases work with
    | measure latency => exact if_neg hne
    | reportStatus status => rfl
  have hrep : ∀ status, reports (done ++ new) slot status = reports done slot status := by
    intro status
    rw [reports, List.count_append, List.count_eq_zero.mpr fun hmem => hnew _ hmem rfl, Nat.add_zero, reports]
  refine ⟨h.name, ?_, fun status n hn => ?_, fun status hnone => ?_⟩
  · rw [latencies_append, hlat, List.append_nil]
    exact h.data
  · rw [hrep]
    exact h.counter status n hn
  · rw [hrep]
    exact h.noCounter status hnone

/-- One that is made has been given nothing. -/
theorem agrees_new (h : ∀ work, (slot, work) ∉ done) :
    Agrees interval construct record done slot ⟨slot.name interval, .empty, construct (slot.name interval)⟩ := by
  have hlat : latencies done slot = [] := by
    refine List.filterMap_eq_nil_iff.mpr fun e he => ?_
    obtain ⟨slot', work⟩ := e
    cases work with
    | measure latency => exact if_neg fun heq : slot' = slot => h _ (heq ▸ he)
    | reportStatus status => rfl
  refine ⟨rfl, ?_, fun status n hn => ?_, fun status _ => List.count_eq_zero.mpr (h _)⟩
  · rw [hlat]
    rfl
  · cases hn

/-- It is given a latency. -/
theorem Agrees.measure (h : Agrees interval construct record done slot o) (latency : ℤ) :
    Agrees interval construct record (done ++ [(slot, .measure latency)]) slot { o with data := record o.data latency } := by
  have hone : latencies [(slot, (.measure latency : Work ς))] slot = [latency] := by simp [latencies]
  have hrep : ∀ status, reports (done ++ [(slot, .measure latency)]) slot status = reports done slot status := by
    intro status
    rw [reports_concat, if_neg fun heq => (nomatch heq), Nat.add_zero]
  refine ⟨h.name, ?_, fun status n hn => ?_, fun status hnone => ?_⟩
  · rw [latencies_append, hone, List.foldl_append, ← h.data]
    rfl
  · rw [hrep]
    exact h.counter status n hn
  · rw [hrep]
    exact h.noCounter status hnone

/-- It is given an entry for a status. -/
theorem Agrees.putIfAbsent (h : Agrees interval construct record done slot o) (status : ς) :
    Agrees interval construct record done slot (o.putIfAbsent status) := by
  refine ⟨h.name, h.data, fun status' n hn => ?_, fun status' hnone => ?_⟩
  · rw [OneMeasurement.putIfAbsent, Interned.find_putIfAbsent] at hn
    split_ifs at hn with heq
    · cases hfind : o.returncodes.find status with
      | none =>
        rw [hfind] at hn
        rw [heq, h.noCounter status hfind]
        exact (Option.some.inj hn).symm
      | some n' =>
        rw [hfind] at hn
        rw [heq, ← Option.some.inj hn]
        exact h.counter status n' hfind
    · exact h.counter status' n hn
  · rw [OneMeasurement.putIfAbsent, Interned.find_putIfAbsent] at hnone
    split_ifs at hnone
    exact h.noCounter status' hnone

/-- It counts a status. -/
theorem Agrees.increment (h : Agrees interval construct record done slot o) {status : ς} {c : ℕ} (hc : o.returncodes.address status = some c) :
    Agrees interval construct record (done ++ [(slot, .reportStatus status)]) slot (o.incrementAndGet c) := by
  have hlat : latencies [(slot, (.reportStatus status : Work ς))] slot = [] := rfl
  have hself : reports (done ++ [(slot, .reportStatus status)]) slot status = reports done slot status + 1 := by
    rw [reports_concat, if_pos rfl]
  have hother : ∀ status', status' ≠ status → reports (done ++ [(slot, .reportStatus status)]) slot status' = reports done slot status' := by
    intro status' hne
    rw [reports_concat, if_neg fun heq => hne (Work.reportStatus.inj (Prod.mk.inj heq).2).symm, Nat.add_zero]
  refine ⟨h.name, ?_, fun status' n hn => ?_, fun status' hnone => ?_⟩
  · rw [latencies_append, hlat, List.append_nil]
    exact h.data
  · rw [OneMeasurement.incrementAndGet, Interned.find_modify hc] at hn
    split_ifs at hn with heq
    · obtain ⟨n', hn', rfl⟩ := Option.map_eq_some_iff.mp hn
      rw [heq, hself, h.counter status n' hn', Nat.cast_succ, asInt_asInt_add]
    · rw [hother status' heq]
      exact h.counter status' n hn
  · rw [OneMeasurement.incrementAndGet, Interned.find_modify hc] at hnone
    split_ifs at hnone with heq
    · rw [Interned.find_of_address hc] at hnone
      obtain ⟨n', hn'⟩ := Interned.cells_of_address hc
      rw [hn'] at hnone
      cases hnone
    · rw [hother status' heq]
      exact h.noCounter status' hnone

/-! ### The maps -/

theorem Extends.refl (table : Interned Slot (OneMeasurement ς μ)) : Extends table table :=
  fun _ _ haddr => ⟨haddr, fun o ho => ⟨o, ho, fun _ _ h => h⟩⟩

/-- A new entry takes nothing from a call. -/
theorem extends_putIfAbsent (table : Interned Slot (OneMeasurement ς μ)) (slot : Slot) (o : OneMeasurement ς μ) :
    Extends table (table.putIfAbsent slot o).1 := by
  intro slot' m haddr
  refine ⟨Interned.address_putIfAbsent haddr, fun o' ho' => ⟨o', ?_, fun _ _ h => h⟩⟩
  obtain ⟨o₀, ho₀⟩ := Interned.cells_of_address haddr
  rw [← Interned.find_of_address haddr] at ho₀
  rw [Interned.find_putIfAbsent] at ho'
  split_ifs at ho' with heq
  · rw [heq] at ho₀
    rw [ho₀] at ho'
    rw [heq, ho₀]
    exact ho'
  · exact ho'

/-- Nor does a change that takes no counter away. -/
theorem extends_modify {m : ℕ} (haddr : table.address slot = some m) {f : OneMeasurement ς μ → OneMeasurement ς μ}
    (hf : ∀ o status c, o.returncodes.address status = some c → (f o).returncodes.address status = some c) : Extends table (table.modify m f) := by
  intro slot' m' haddr'
  refine ⟨haddr', fun o' ho' => ?_⟩
  rw [Option.mem_def, Interned.find_modify haddr] at ho'
  split_ifs at ho' with heq
  · obtain ⟨o, ho, rfl⟩ := Option.map_eq_some_iff.mp ho'
    exact ⟨o, by rw [heq]; exact ho, hf o⟩
  · exact ⟨o', ho', fun _ _ h => h⟩

/-- A call goes on holding what it held. -/
theorem Pending.Holds.mono {p : Pending ς} (h : p.Holds table) (hext : Extends table table') : p.Holds table' := by
  cases p with
  | get slot work => trivial
  | missing slot work => trivial
  | found slot m work => exact (hext slot m h).1
  | noCounter slot m status => exact (hext slot m h).1
  | counter slot m status c =>
    obtain ⟨haddr, hc⟩ := hext slot m h.1
    refine ⟨haddr, fun o' ho' => ?_⟩
    obtain ⟨o, ho, hkeep⟩ := hc o' ho'
    exact hkeep status c (h.2 o ho)

/-- A measurement is made. -/
theorem Accounts.putIfAbsent (h : Accounts interval construct record table done) (slot : Slot) :
    Accounts interval construct record (table.putIfAbsent slot ⟨slot.name interval, .empty, construct (slot.name interval)⟩).1 done := by
  constructor
  · intro slot' o ho
    rw [Interned.find_putIfAbsent] at ho
    split_ifs at ho with heq
    · cases hfind : table.find slot with
      | none =>
        rw [hfind, Option.getD_none, Option.some.injEq] at ho
        rw [heq, ← ho]
        exact agrees_new (h.absent slot hfind)
      | some o₀ =>
        rw [hfind, Option.getD_some, Option.some.injEq] at ho
        rw [heq, ← ho]
        exact h.agrees slot o₀ hfind
    · exact h.agrees slot' o ho
  · intro slot' hnone
    rw [Interned.find_putIfAbsent] at hnone
    split_ifs at hnone
    exact h.absent slot' hnone

/-- A measurement is changed, and has been given so much more. -/
theorem Accounts.modify (h : Accounts interval construct record table done) {m : ℕ} (haddr : table.address slot = some m)
    {f : OneMeasurement ς μ → OneMeasurement ς μ} {new : List (Slot × Work ς)} (hnew : ∀ e ∈ new, e.1 = slot)
    (hf : ∀ o, table.find slot = some o → Agrees interval construct record done slot o →
      Agrees interval construct record (done ++ new) slot (f o)) :
    Accounts interval construct record (table.modify m f) (done ++ new) := by
  constructor
  · intro slot' o ho
    rw [Interned.find_modify haddr] at ho
    split_ifs at ho with heq
    · obtain ⟨o₀, ho₀, rfl⟩ := Option.map_eq_some_iff.mp ho
      rw [heq]
      exact hf o₀ ho₀ (h.agrees slot o₀ ho₀)
    · exact (h.agrees slot' o ho).append fun e he hc => heq (hc.symm.trans (hnew e he))
  · intro slot' hnone work hmem
    rw [Interned.find_eq_none_iff] at hnone
    rcases List.mem_append.mp hmem with hmem | hmem
    · exact h.absent slot' (Interned.find_eq_none_iff.mpr hnone) work hmem
    · obtain rfl : slot' = slot := hnew _ hmem
      cases hnone.symm.trans haddr

/-! ### Steps -/

/-- **What a step of a call does**: it keeps what the other calls hold, and the maps are right after it, with what it has done. -/
theorem advance_spec (h : Accounts interval construct record table done) {p : Pending ς} (hp : p.Holds table) {r : Pending ς ⊕ Slot × Work ς}
    (hs : p.advance interval construct record table = some (table', r)) :
    Extends table table' ∧ (∀ p', r = .inl p' → p'.Holds table' ∧ Accounts interval construct record table' done) ∧
      ∀ e, r = .inr e → Accounts interval construct record table' (done ++ [e]) := by
  have hnil : ∀ {m : ℕ} {f : OneMeasurement ς μ → OneMeasurement ς μ} {slot}, table.address slot = some m →
      (∀ o, Agrees interval construct record done slot o → Agrees interval construct record done slot (f o)) →
      Accounts interval construct record (table.modify m f) done := by
    intro m f slot haddr hf
    have hmod : Accounts interval construct record (table.modify m f) (done ++ []) :=
      h.modify haddr (fun e he => absurd he List.not_mem_nil) fun o _ ho => by
        rw [List.append_nil]
        exact hf o ho
    rwa [List.append_nil] at hmod
  cases p with
  | get slot work =>
    rw [Pending.advance] at hs
    split at hs
    · next m haddr =>
      cases hs
      exact ⟨.refl table, fun p' hp' => by cases hp'; exact ⟨haddr, h⟩, fun e he => by cases he⟩
    · cases hs
      exact ⟨.refl table, fun p' hp' => by cases hp'; exact ⟨trivial, h⟩, fun e he => by cases he⟩
  | missing slot work =>
    cases hs
    exact ⟨extends_putIfAbsent table slot _, fun p' hp' => by
      cases hp'
      exact ⟨Interned.address_putIfAbsent_self table slot _, h.putIfAbsent slot⟩, fun e he => by cases he⟩
  | found slot m work =>
    cases work with
    | measure latency =>
      cases hs
      refine ⟨extends_modify hp fun _ _ _ hc => hc, fun p' hp' => (nomatch hp'), fun e he => ?_⟩
      cases he
      exact h.modify hp (fun e he => by rw [List.mem_singleton.mp he]) fun o _ ho => ho.measure latency
    | reportStatus status =>
      obtain ⟨o, ho, hs⟩ := Option.map_eq_some_iff.mp hs
      have hfind : table.find slot = some o := (Interned.find_of_address hp).trans ho
      split at hs
      · next c hc =>
        cases hs
        exact ⟨.refl table, fun p' hp' => by
          cases hp'
          exact ⟨⟨hp, fun o' ho' => by rwa [Option.some.inj (ho'.symm.trans hfind)]⟩, h⟩, fun e he => by cases he⟩
      · cases hs
        exact ⟨.refl table, fun p' hp' => by cases hp'; exact ⟨hp, h⟩, fun e he => by cases he⟩
  | noCounter slot m status =>
    obtain ⟨o, ho, hs⟩ := Option.map_eq_some_iff.mp hs
    cases hs
    have hfind : table.find slot = some o := (Interned.find_of_address hp).trans ho
    refine ⟨extends_modify hp fun o' status' c hc => Interned.address_putIfAbsent hc, fun p' hp' => ?_, fun e he => by cases he⟩
    cases hp'
    refine ⟨⟨hp, fun o' ho' => ?_⟩, hnil hp fun o' ho' => ho'.putIfAbsent status⟩
    rw [Option.mem_def, Interned.find_modify hp, if_pos rfl, hfind] at ho'
    rw [← Option.some.inj ho']
    exact Interned.address_putIfAbsent_self o.returncodes status 0
  | counter slot m status c =>
    cases hs
    refine ⟨extends_modify hp.1 fun _ _ _ hc => hc, fun p' hp' => (nomatch hp'), fun e he => ?_⟩
    cases he
    exact h.modify hp.1 (fun e he => by rw [List.mem_singleton.mp he]) fun o ho hagrees => hagrees.increment (hp.2 o ho)

theorem Registered.step {s s' : State ς μ} {l : Label ς} (h : Registered interval construct record s)
    (hs : step interval construct record s l = some s') : Registered interval construct record s' := by
  cases l with
  | call c =>
    rw [Registry.step] at hs
    split at hs
    · next slot work _ =>
      cases hs
      refine ⟨h.accounts, fun p hp => ?_⟩
      rcases List.mem_append.mp hp with hp | hp
      · exact h.holds p hp
      · rw [List.mem_singleton.mp hp]
        trivial
    · cases hs
      exact h
  | advance n =>
    obtain ⟨p, hp, hs⟩ := Option.bind_eq_some_iff.mp hs
    obtain ⟨⟨table, r⟩, hadv, hs⟩ := Option.map_eq_some_iff.mp hs
    obtain ⟨hext, hleft, hdone⟩ := advance_spec h.accounts (h.holds p (List.mem_of_getElem? hp)) hadv
    have hrest : ∀ p' ∈ s.pending.eraseIdx n, p'.Holds table := fun p' hp' => (h.holds p' (List.mem_of_mem_eraseIdx hp')).mono hext
    cases r with
    | inl p' =>
      cases hs
      obtain ⟨hholds, hacc⟩ := hleft p' rfl
      refine ⟨hacc, fun p'' hp'' => ?_⟩
      rcases List.mem_append.mp hp'' with hp'' | hp''
      · exact hrest p'' hp''
      · rw [List.mem_singleton.mp hp'']
        exact hholds
    | inr e =>
      cases hs
      exact ⟨hdone e rfl, hrest⟩

theorem registered_initial : Registered interval construct record (State.initial : State ς μ) :=
  ⟨⟨fun _ _ h => (nomatch h), fun _ _ _ h => absurd h List.not_mem_nil⟩, fun _ h => absurd h List.not_mem_nil⟩

/-- Two threads report the same status, and neither finds a measurement or a counter. -/
def twoReports : List (Label Status) :=
  List.replicate 2 (.call (.reportStatus "READ" .ok)) ++ List.replicate 10 (.advance 0)

end YcsbIvs.Measurements.Registry
