import YcsbIvs.Core.DB
import YcsbIvs.Foundations.Words
import Mathlib.Logic.Function.Basic

/-!
# The wrapper that measures

The client calls its database through a `DBWrapper`. It notes the time, lets the wrapped database carry out the operation, notes the time again, and tells the
`Measurements` how long it took and which status came back: under the name of the operation, or, if it failed, under a name that may have that of the status in it.

A test for `null` guards nothing there: where a status is `null`, the wrapper asks it for its name and throws, though what calls it (`CoreWorkload.doInsert`) takes `null` for a failure.
So **the wrapper is transparent just if the status is not `null`, and the measurements take it and the latency** (`transparent_iff`). They do not
take a latency that they throw an `ArrayIndexOutOfBoundsException` for, which is caught, as a histogram does for a negative one.

What a measurement is told is kept; what it throws is a parameter (`MeasurementType`). The database may throw anything, and do anything to its state, which holds the maps it
is handed.
-/

namespace YcsbIvs.Core.Wrapping

open YcsbIvs.Foundations

/-! ### Statuses -/

/-- A `Status`: one of the constants, or a new one. -/
inductive AnyStatus where
  /-- A constant. -/
  | constant (st : Status)
  /-- `new Status(name, description)`. -/
  | new (name description : Option String)
  deriving DecidableEq

/-- The name of a constant. -/
def constantName : Status → String
  | .ok => "OK"
  | .error => "ERROR"
  | .notFound => "NOT_FOUND"
  | .notImplemented => "NOT_IMPLEMENTED"
  | .unexpectedState => "UNEXPECTED_STATE"
  | .badRequest => "BAD_REQUEST"
  | .forbidden => "FORBIDDEN"
  | .serviceUnavailable => "SERVICE_UNAVAILABLE"
  | .batchedOk => "BATCHED_OK"

/-- `getName()`. -/
def AnyStatus.getName : AnyStatus → Option String
  | .constant st => some (constantName st)
  | .new name _ => name

/-- `isOk()`, which compares objects: a new status is not one of the constants. -/
def AnyStatus.isOk : AnyStatus → Bool
  | .constant st => st.isOk
  | .new _ _ => false

/-! ### Measurements -/

/-- A `OneMeasurement`: what it has been told. -/
structure OneMeasurement where
  /-- `getName()`. -/
  name : String
  /-- The latencies it has taken. -/
  latencies : List ℤ
  /-- The statuses that have been reported. -/
  returncodes : List AnyStatus

/-- What the objects of a `measurementtype` throw. -/
structure MeasurementType where
  /-- The constructor. -/
  construct : String → Option Throwable
  /-- `measure(latency)`. -/
  measure : OneMeasurement → ℤ → Option Throwable

/-- `measurement.interval`. -/
inductive MeasurementInterval where
  /-- `op`. -/
  | op
  /-- `intended`. -/
  | intended
  /-- `both`. -/
  | both
  deriving DecidableEq

/-- Measurements by name. -/
abbrev MeasurementMap := String → Option OneMeasurement

/-- The state of `Measurements`. -/
structure Measurements where
  /-- `opToMesurementMap`. -/
  opToMesurementMap : MeasurementMap
  /-- `opToIntendedMesurementMap`. -/
  opToIntendedMesurementMap : MeasurementMap

/-- `getOpMeasurement(operation)` and `getOpIntendedMeasurement(operation)`, each in its map: one that is not there is made, under `name`. -/
def getMeasurement (type : MeasurementType) (map : MeasurementMap) (operation name : String) : Except Throwable (OneMeasurement × MeasurementMap) :=
  match map operation with
  | some m => .ok (m, map)
  | none =>
    match type.construct name with
    | some t => .error t
    | none => .ok (⟨name, [], []⟩, Function.update map operation (some ⟨name, [], []⟩))

/-- What the catch clause leaves. -/
def uncaught (t : Throwable) : Option Throwable := if t = .arrayIndexOutOfBounds then none else some t

/-- The second half of `measure` and of `measureIntended`: what it throws, and the map after it. -/
def measureIn (type : MeasurementType) (map : MeasurementMap) (operation name : String) (latency : ℤ) : Option Throwable × MeasurementMap :=
  match getMeasurement type map operation name with
  | .error t => (uncaught t, map)
  | .ok (m, map) =>
    match type.measure m latency with
    | some t => (uncaught t, map)
    | none => (none, Function.update map operation (some { m with latencies := m.latencies ++ [latency] }))

/-- `reportStatus(operation, status)` in a map. -/
def reportIn (type : MeasurementType) (map : MeasurementMap) (operation : String) (status : Option AnyStatus) : Option Throwable × MeasurementMap :=
  match getMeasurement type map operation operation with
  | .error t => (some t, map)
  | .ok (m, map) =>
    match status with
    -- there are no `null` keys in a `ConcurrentHashMap`
    | none => (some .nullPointer, map)
    | some status => (none, Function.update map operation (some { m with returncodes := m.returncodes ++ [status] }))

/-! ### The wrapper -/

/-- A call of the wrapped database: what it returns or throws, and what it does to the state. -/
abbrev Operation (σ ε : Type) := σ → Except ε (Option AnyStatus) × σ

/-- A `DB`; `ρ` are references to sets, maps and vectors. -/
structure DB (σ ρ ε : Type) where
  /-- `read`. -/
  read : String → String → ρ → ρ → Operation σ ε
  /-- `scan`. -/
  scan : String → String → ℤ → ρ → ρ → Operation σ ε
  /-- `update`. -/
  update : String → String → ρ → Operation σ ε
  /-- `extend`. -/
  extend : String → String → ρ → ℤ → Operation σ ε
  /-- `insert`. -/
  insert : String → String → ρ → Operation σ ε
  /-- `delete`. -/
  delete : String → String → Operation σ ε

/-- `DBWrapper`, with the settings of its `Measurements`. -/
structure DBWrapper (σ ρ ε : Type) where
  /-- The wrapped database. -/
  db : DB σ ρ ε
  /-- `measurementType`. -/
  measurementType : MeasurementType
  /-- `measurementInterval`. -/
  measurementInterval : MeasurementInterval
  /-- `reportlatencyforeacherror`. -/
  reportLatencyForEachError : Bool
  /-- `latencytrackederrors`. -/
  latencyTrackedErrors : List String

/-- The times a call reads. -/
structure Times where
  /-- The intended start of the thread, or zero. -/
  time : ℤ
  /-- The clock, where that is zero. -/
  now : ℤ
  /-- `st`. -/
  st : ℤ
  /-- `en`. -/
  en : ℤ

/-- Something is thrown by the wrapped database, or besides. -/
inductive Thrown (ε : Type) where
  /-- By the database. -/
  | wrapped (e : ε)
  /-- By the wrapper or the measurements. -/
  | own (t : Throwable)
  deriving DecidableEq

/-- A method that returns nothing: what it throws, and what it leaves. -/
abbrev Step := Measurements → Option Throwable × Measurements

/-- Two of them, one after the other. -/
def andThen (first second : Step) : Step := fun m =>
  match first m with
  | (some t, m) => (some t, m)
  | (none, m) => second m

/-- `(int) ((en - st) / 1000)`. -/
def micros (st en : ℤ) : ℤ := asInt ((asLong (en - st)).tdiv 1000)

/-- `result.getName()`. -/
def nameOf : Option AnyStatus → Except Throwable (Option String)
  | none => .error .nullPointer
  | some st => .ok st.getName

namespace DBWrapper

variable {σ ρ ε : Type} (w : DBWrapper σ ρ ε)

/-- `getIntendedStartTimeNs()`. -/
def getIntendedStartTimeNs (times : Times) : ℤ :=
  if w.measurementInterval = .op then 0 else if times.time = 0 then times.now else times.time

/-- `Measurements.measure(operation, latency)`. -/
def measureOp (operation : String) (latency : ℤ) : Step := fun m =>
  if w.measurementInterval = .intended then (none, m)
  else
    let (t, map) := measureIn w.measurementType m.opToMesurementMap operation operation latency
    (t, { m with opToMesurementMap := map })

/-- The name a measurement is made under in `getOpIntendedMeasurement(operation)`. -/
def intendedName (operation : String) : String := if w.measurementInterval = .intended then operation else "Intended-" ++ operation

/-- `Measurements.measureIntended(operation, latency)`. -/
def measureIntended (operation : String) (latency : ℤ) : Step := fun m =>
  if w.measurementInterval = .op then (none, m)
  else
    let (t, map) := measureIn w.measurementType m.opToIntendedMesurementMap operation (w.intendedName operation) latency
    (t, { m with opToIntendedMesurementMap := map })

/-- `Measurements.reportStatus(operation, status)`. -/
def reportStatus (operation : String) (status : Option AnyStatus) : Step := fun m =>
  if w.measurementInterval = .intended then
    let (t, map) := reportIn w.measurementType m.opToIntendedMesurementMap operation status
    (t, { m with opToIntendedMesurementMap := map })
  else
    let (t, map) := reportIn w.measurementType m.opToMesurementMap operation status
    (t, { m with opToMesurementMap := map })

/-- The first half of `measure`: the name a latency is measured under. -/
def measurementName (op : String) (result : Option AnyStatus) : Except Throwable String :=
  -- `result == null || !result.isOk()`
  if result.all fun st => !st.isOk then do
    if w.reportLatencyForEachError then .ok (op ++ "-" ++ (← nameOf result).getD "null")
    else
      let name ← nameOf result
      if name.any fun name => name ∈ w.latencyTrackedErrors then .ok (op ++ "-" ++ (← nameOf result).getD "null")
      else .ok (op ++ "-FAILED")
  else .ok op

/-- `measure(op, result, ist, st, en)`. -/
def measure (op : String) (result : Option AnyStatus) (ist st en : ℤ) : Step :=
  match w.measurementName op result with
  | .error t => fun m => (some t, m)
  | .ok measurementName => andThen (w.measureOp measurementName (micros st en)) (w.measureIntended measurementName (micros ist en))

/-- The body of each operation. -/
def operation (op : String) (call : Operation σ ε) (times : Times) (s : σ) (m : Measurements) : Except (Thrown ε) (Option AnyStatus) × σ × Measurements :=
  let ist := w.getIntendedStartTimeNs times
  match call s with
  | (.error e, s) => (.error (.wrapped e), s, m)
  | (.ok res, s) =>
    match andThen (w.measure op res ist times.st times.en) (w.reportStatus op res) m with
    | (some t, m) => (.error (.own t), s, m)
    | (none, m) => (.ok res, s, m)

/-- `read(table, key, fields, result)`. -/
def read (table key : String) (fields result : ρ) := w.operation "READ" (w.db.read table key fields result)

/-- `scan(table, startkey, recordcount, fields, result)`. -/
def scan (table startkey : String) (recordcount : ℤ) (fields result : ρ) := w.operation "SCAN" (w.db.scan table startkey recordcount fields result)

/-- `update(table, key, values)`. -/
def update (table key : String) (values : ρ) := w.operation "UPDATE" (w.db.update table key values)

/-- `extend(table, key, values, maxfieldlength)`. -/
def extend (table key : String) (values : ρ) (maxfieldlength : ℤ) := w.operation "EXTEND" (w.db.extend table key values maxfieldlength)

/-- `insert(table, key, values)`. -/
def insert (table key : String) (values : ρ) := w.operation "INSERT" (w.db.insert table key values)

/-- `delete(table, key)`. -/
def delete (table key : String) := w.operation "DELETE" (w.db.delete table key)

/-- The map the statuses are in. -/
def statusMap (m : Measurements) : MeasurementMap :=
  if w.measurementInterval = .intended then m.opToIntendedMesurementMap else m.opToMesurementMap

end DBWrapper

/-- A call of an operation. -/
inductive Call (ρ : Type) where
  /-- `read(table, key, fields, result)`. -/
  | read (table key : String) (fields result : ρ)
  /-- `scan(table, startkey, recordcount, fields, result)`. -/
  | scan (table startkey : String) (recordcount : ℤ) (fields result : ρ)
  /-- `update(table, key, values)`. -/
  | update (table key : String) (values : ρ)
  /-- `extend(table, key, values, maxfieldlength)`. -/
  | extend (table key : String) (values : ρ) (maxfieldlength : ℤ)
  /-- `insert(table, key, values)`. -/
  | insert (table key : String) (values : ρ)
  /-- `delete(table, key)`. -/
  | delete (table key : String)

namespace Call

variable {σ ρ ε : Type}

/-- What it is measured as. -/
def name : Call ρ → String
  | .read .. => "READ"
  | .scan .. => "SCAN"
  | .update .. => "UPDATE"
  | .extend .. => "EXTEND"
  | .insert .. => "INSERT"
  | .delete .. => "DELETE"

/-- The call, of the wrapped database. -/
def wrapped (db : DB σ ρ ε) : Call ρ → Operation σ ε
  | .read table key fields result => db.read table key fields result
  | .scan table startkey recordcount fields result => db.scan table startkey recordcount fields result
  | .update table key values => db.update table key values
  | .extend table key values maxfieldlength => db.extend table key values maxfieldlength
  | .insert table key values => db.insert table key values
  | .delete table key => db.delete table key

/-- The call, of the wrapper. -/
def run (w : DBWrapper σ ρ ε) (times : Times) : Call ρ → σ → Measurements → Except (Thrown ε) (Option AnyStatus) × σ × Measurements
  | .read table key fields result => w.read table key fields result times
  | .scan table startkey recordcount fields result => w.scan table startkey recordcount fields result times
  | .update table key values => w.update table key values times
  | .extend table key values maxfieldlength => w.extend table key values maxfieldlength times
  | .insert table key values => w.insert table key values times
  | .delete table key => w.delete table key times

theorem run_eq (w : DBWrapper σ ρ ε) (times : Times) (call : Call ρ) : call.run w times = w.operation call.name (call.wrapped w.db) times := by
  cases call <;> rfl

end Call

/-! ### Transparency -/

/-- The latencies a map has under a name. -/
def latenciesOf (map : MeasurementMap) (operation : String) : List ℤ := (map operation).elim [] OneMeasurement.latencies

/-- The statuses. -/
def returncodesOf (map : MeasurementMap) (operation : String) : List AnyStatus := (map operation).elim [] OneMeasurement.returncodes

/-- What a map has under a name is one more, if it is of those that are kept. -/
def OneMore {α : Type} (kept : Prop) [Decidable kept] (before after : String → List α) (name : String) (a : α) : Prop :=
  ∀ n, after n = before n ++ if kept ∧ n = name then [a] else []

/-- One latency is recorded, from the start and from the intended start as far as these are kept, and one status. -/
structure RecordsOnce {σ ρ ε : Type} (w : DBWrapper σ ρ ε) (op : String) (result : Option AnyStatus) (times : Times) (m m' : Measurements) : Prop where
  /-- The latency, under the name that goes with the status. -/
  latency : ∃ name, (result ≠ none → w.measurementName op result = .ok name) ∧
    OneMore (w.measurementInterval ≠ .intended) (latenciesOf m.opToMesurementMap) (latenciesOf m'.opToMesurementMap) name (micros times.st times.en) ∧
    OneMore (w.measurementInterval ≠ .op) (latenciesOf m.opToIntendedMesurementMap) (latenciesOf m'.opToIntendedMesurementMap) name
      (micros (w.getIntendedStartTimeNs times) times.en)
  /-- The status, under the name of the operation. -/
  status : ∃ st, (result ≠ none → result = some st) ∧
    OneMore (w.measurementInterval ≠ .intended) (returncodesOf m.opToMesurementMap) (returncodesOf m'.opToMesurementMap) op st ∧
    OneMore (w.measurementInterval = .intended) (returncodesOf m.opToIntendedMesurementMap) (returncodesOf m'.opToIntendedMesurementMap) op st

/-- The wrapper returns, throws and does what the wrapped database does, and records what it returns. -/
structure Transparent {σ ρ ε : Type} (w : DBWrapper σ ρ ε) (call : Call ρ) (times : Times) (s : σ) (m : Measurements) : Prop where
  /-- What it returns or throws. -/
  outcome : (call.run w times s m).1 = (call.wrapped w.db s).1.mapError .wrapped
  /-- What it does. -/
  effects : (call.run w times s m).2.1 = (call.wrapped w.db s).2
  /-- What it records. -/
  records : ∀ result, (call.wrapped w.db s).1 = .ok result → RecordsOnce w call.name result times m (call.run w times s m).2.2

/-- A map has a measurement for the name, or can have one. -/
def Constructible (type : MeasurementType) (map : MeasurementMap) (operation name : String) : Prop := map operation = none → type.construct name = none

/-- It takes the latency. -/
def Takes (type : MeasurementType) (map : MeasurementMap) (operation name : String) (latency : ℤ) : Prop :=
  Constructible type map operation name ∧ type.measure ((map operation).getD ⟨name, [], []⟩) latency = none

/-- **The measurements take a status that is not `null`, and its latencies.** -/
structure Accepts {σ ρ ε : Type} (w : DBWrapper σ ρ ε) (op : String) (st : AnyStatus) (times : Times) (m : Measurements) : Prop where
  /-- The latency. -/
  latency : ∀ name, w.measurementName op (some st) = .ok name → w.measurementInterval ≠ .intended →
    Takes w.measurementType m.opToMesurementMap name name (micros times.st times.en)
  /-- The latency from the intended start. -/
  intended : ∀ name, w.measurementName op (some st) = .ok name → w.measurementInterval ≠ .op →
    Takes w.measurementType m.opToIntendedMesurementMap name (w.intendedName name) (micros (w.getIntendedStartTimeNs times) times.en)
  /-- The status. -/
  status : Constructible w.measurementType (w.statusMap m) op op

/-! ### What is recorded in a map -/

section Maps

variable {type : MeasurementType} {map : MeasurementMap} {operation name : String} {latency : ℤ}

theorem getMeasurement_of_constructible (h : Constructible type map operation name) :
    getMeasurement type map operation name =
      .ok ((map operation).getD ⟨name, [], []⟩, Function.update map operation (some ((map operation).getD ⟨name, [], []⟩))) := by
  rw [getMeasurement]
  cases hm : map operation with
  | some m =>
    have hsame : Function.update map operation (some m) = map := by rw [← hm, Function.update_eq_self]
    rw [Option.getD_some, hsame]
  | none =>
    rw [h hm]
    rfl

theorem getMeasurement_of_not (h : ¬ Constructible type map operation name) : ∃ t, getMeasurement type map operation name = .error t := by
  obtain ⟨hm, hconstruct⟩ := Classical.not_imp.mp h
  obtain ⟨t, ht⟩ := Option.ne_none_iff_exists'.mp hconstruct
  exact ⟨t, by rw [getMeasurement, hm, ht]⟩

@[simp] theorem latenciesOf_update (m : OneMeasurement) (n : String) :
    latenciesOf (Function.update map operation (some m)) n = if n = operation then m.latencies else latenciesOf map n := by
  rw [latenciesOf, Function.update_apply]
  split_ifs <;> rfl

@[simp] theorem returncodesOf_update (m : OneMeasurement) (n : String) :
    returncodesOf (Function.update map operation (some m)) n = if n = operation then m.returncodes else returncodesOf map n := by
  rw [returncodesOf, Function.update_apply]
  split_ifs <;> rfl

/-- A new measurement has been told nothing. -/
@[simp] theorem latencies_getD : ((map operation).getD ⟨name, [], []⟩).latencies = latenciesOf map operation := by
  rw [latenciesOf]
  cases map operation <;> rfl

@[simp] theorem returncodes_getD : ((map operation).getD ⟨name, [], []⟩).returncodes = returncodesOf map operation := by
  rw [returncodesOf]
  cases map operation <;> rfl

theorem ite_same {α : Type} (f : String → α) (n : String) : (if n = operation then f operation else f n) = f n := by
  split_ifs with hn
  · rw [hn]
  · rfl

theorem ite_concat {α : Type} (f : String → List α) (a : α) (n : String) :
    (if n = operation then f operation ++ [a] else f n) = f n ++ if n = operation then [a] else [] := by
  split_ifs with hn
  · rw [hn]
  · rw [List.append_nil]

/-- A latency that is taken. -/
theorem measureIn_of_takes (h : Takes type map operation name latency) :
    measureIn type map operation name latency = (none, Function.update map operation
      (some { (map operation).getD ⟨name, [], []⟩ with latencies := latenciesOf map operation ++ [latency] })) := by
  rw [measureIn, getMeasurement_of_constructible h.1]
  simp [h.2]

/-- One that is not changes no latency. -/
theorem measureIn_of_not (h : ¬ Takes type map operation name latency) : ∀ n, latenciesOf (measureIn type map operation name latency).2 n = latenciesOf map n := by
  intro n
  rw [measureIn]
  by_cases hconstruct : Constructible type map operation name
  · obtain ⟨t, ht⟩ := Option.ne_none_iff_exists'.mp fun hmeasure => h ⟨hconstruct, hmeasure⟩
    rw [getMeasurement_of_constructible hconstruct]
    simp only [ht, latenciesOf_update, latencies_getD, ite_same (latenciesOf map)]
  · obtain ⟨t, ht⟩ := getMeasurement_of_not hconstruct
    rw [ht]

/-- **A map has one latency more just if it takes it.** -/
theorem measureIn_iff : ((measureIn type map operation name latency).1 = none ∧
      ∀ n, latenciesOf (measureIn type map operation name latency).2 n = latenciesOf map n ++ if n = operation then [latency] else []) ↔
    Takes type map operation name latency := by
  constructor
  · rintro ⟨-, hmore⟩
    by_contra h
    have hsame := measureIn_of_not h operation
    rw [hmore, if_pos rfl] at hsame
    simp at hsame
  · intro h
    rw [measureIn_of_takes h]
    refine ⟨rfl, fun n => ?_⟩
    rw [latenciesOf_update]
    exact ite_concat _ latency n

/-- No status is changed. -/
theorem returncodesOf_measureIn (n : String) : returncodesOf (measureIn type map operation name latency).2 n = returncodesOf map n := by
  rw [measureIn]
  by_cases hconstruct : Constructible type map operation name
  · rw [getMeasurement_of_constructible hconstruct]
    cases hmeasure : type.measure ((map operation).getD ⟨name, [], []⟩) latency
    all_goals
      simp only [hmeasure, returncodesOf_update, returncodes_getD, ite_same (returncodesOf map)]
  · obtain ⟨t, ht⟩ := getMeasurement_of_not hconstruct
    rw [ht]

/-- What can be made after a latency is taken could be made before. -/
theorem constructible_measureIn_iff (h : Takes type map operation operation latency) (op : String) :
    Constructible type (measureIn type map operation operation latency).2 op op ↔ Constructible type map op op := by
  simp only [measureIn_of_takes h, Constructible, Function.update_apply]
  by_cases hop : op = operation
  · subst hop
    exact ⟨fun _ => h.1, fun _ hnone => absurd hnone (by simp)⟩
  · rw [if_neg hop]

/-- **A status is reported just if there is a measurement for it.** -/
theorem reportIn_iff (st : AnyStatus) : (reportIn type map operation (some st)).1 = none ↔ Constructible type map operation operation := by
  rw [reportIn]
  by_cases hconstruct : Constructible type map operation operation
  · rw [getMeasurement_of_constructible hconstruct]
    exact ⟨fun _ => hconstruct, fun _ => rfl⟩
  · obtain ⟨t, ht⟩ := getMeasurement_of_not hconstruct
    rw [ht]
    exact ⟨fun h => absurd h (by simp), fun h => absurd h hconstruct⟩

theorem returncodesOf_reportIn (st : AnyStatus) (h : Constructible type map operation operation) (n : String) :
    returncodesOf (reportIn type map operation (some st)).2 n = returncodesOf map n ++ if n = operation then [st] else [] := by
  rw [reportIn, getMeasurement_of_constructible h]
  simp only [returncodesOf_update, returncodes_getD, ite_same (returncodesOf map)]
  exact ite_concat _ st n

theorem latenciesOf_reportIn (st : AnyStatus) (n : String) : latenciesOf (reportIn type map operation (some st)).2 n = latenciesOf map n := by
  rw [reportIn]
  by_cases hconstruct : Constructible type map operation operation
  · rw [getMeasurement_of_constructible hconstruct]
    simp only [latenciesOf_update, latencies_getD, ite_same (latenciesOf map)]
  · obtain ⟨t, ht⟩ := getMeasurement_of_not hconstruct
    rw [ht]

end Maps

/-! ### What is recorded of an operation -/

theorem andThen_eq_none_iff {first second : Step} {m : Measurements} :
    (andThen first second m).1 = none ↔ (first m).1 = none ∧ (second (first m).2).1 = none := by
  rw [andThen]
  split
  · next t m' h => simp [h]
  · next m' h => simp [h]

theorem andThen_snd {first second : Step} {m : Measurements} (h : (first m).1 = none) : (andThen first second m).2 = (second (first m).2).2 := by
  rw [andThen]
  split
  · next t m' hfirst => simp [hfirst] at h
  · next m' hfirst => rw [hfirst]

namespace DBWrapper

variable {σ ρ ε : Type} {w : DBWrapper σ ρ ε} {name op : String} {latency : ℤ} {m : Measurements}

theorem oneMore_of_not {α : Type} {kept : Prop} [Decidable kept] (h : ¬ kept) (f : String → List α) (n : String) (a : α) : OneMore kept f f n a := by
  intro n'
  rw [if_neg fun hkept => h hkept.1, List.append_nil]

theorem measureOp_iff :
    ((w.measureOp name latency m).1 = none ∧ OneMore (w.measurementInterval ≠ .intended) (latenciesOf m.opToMesurementMap)
      (latenciesOf (w.measureOp name latency m).2.opToMesurementMap) name latency) ↔
    (w.measurementInterval ≠ .intended → Takes w.measurementType m.opToMesurementMap name name latency) := by
  rw [measureOp]
  by_cases h : w.measurementInterval = .intended
  · rw [if_pos h]
    exact ⟨fun _ hkept => absurd h hkept, fun _ => ⟨rfl, oneMore_of_not (not_not_intro h) _ _ _⟩⟩
  · rw [if_neg h, ← measureIn_iff]
    simp [OneMore, h]

theorem measureIntended_iff :
    ((w.measureIntended name latency m).1 = none ∧ OneMore (w.measurementInterval ≠ .op) (latenciesOf m.opToIntendedMesurementMap)
      (latenciesOf (w.measureIntended name latency m).2.opToIntendedMesurementMap) name latency) ↔
    (w.measurementInterval ≠ .op → Takes w.measurementType m.opToIntendedMesurementMap name (w.intendedName name) latency) := by
  rw [measureIntended]
  by_cases h : w.measurementInterval = .op
  · rw [if_pos h]
    exact ⟨fun _ hkept => absurd h hkept, fun _ => ⟨rfl, oneMore_of_not (not_not_intro h) _ _ _⟩⟩
  · rw [if_neg h, ← measureIn_iff]
    simp [OneMore, h]

/-- What the first does not change. -/
@[simp] theorem measureOp_intendedMap : (w.measureOp name latency m).2.opToIntendedMesurementMap = m.opToIntendedMesurementMap := by
  rw [measureOp]
  split_ifs <;> rfl

@[simp] theorem returncodesOf_measureOp : returncodesOf (w.measureOp name latency m).2.opToMesurementMap = returncodesOf m.opToMesurementMap := by
  rw [measureOp]
  split_ifs
  · rfl
  · exact funext returncodesOf_measureIn

/-- What the second does not. -/
@[simp] theorem measureIntended_opMap : (w.measureIntended name latency m).2.opToMesurementMap = m.opToMesurementMap := by
  rw [measureIntended]
  split_ifs <;> rfl

@[simp] theorem returncodesOf_measureIntended :
    returncodesOf (w.measureIntended name latency m).2.opToIntendedMesurementMap = returncodesOf m.opToIntendedMesurementMap := by
  rw [measureIntended]
  split_ifs
  · rfl
  · exact funext returncodesOf_measureIn

theorem reportStatus_iff (st : AnyStatus) : (w.reportStatus op (some st) m).1 = none ↔ Constructible w.measurementType (w.statusMap m) op op := by
  rw [reportStatus, statusMap]
  split_ifs
  · exact reportIn_iff st
  · exact reportIn_iff st

@[simp] theorem latenciesOf_reportStatus (st : AnyStatus) :
    latenciesOf (w.reportStatus op (some st) m).2.opToMesurementMap = latenciesOf m.opToMesurementMap ∧
      latenciesOf (w.reportStatus op (some st) m).2.opToIntendedMesurementMap = latenciesOf m.opToIntendedMesurementMap := by
  rw [reportStatus]
  split_ifs
  · exact ⟨rfl, funext (latenciesOf_reportIn st)⟩
  · exact ⟨funext (latenciesOf_reportIn st), rfl⟩

theorem oneMore_reportStatus (st : AnyStatus) (h : Constructible w.measurementType (w.statusMap m) op op) :
    OneMore (w.measurementInterval ≠ .intended) (returncodesOf m.opToMesurementMap) (returncodesOf (w.reportStatus op (some st) m).2.opToMesurementMap) op st ∧
      OneMore (w.measurementInterval = .intended) (returncodesOf m.opToIntendedMesurementMap)
        (returncodesOf (w.reportStatus op (some st) m).2.opToIntendedMesurementMap) op st := by
  rw [reportStatus]
  rw [statusMap] at h
  by_cases hi : w.measurementInterval = .intended
  · rw [if_pos hi] at h ⊢
    refine ⟨oneMore_of_not (not_not_intro hi) _ _ _, fun n => ?_⟩
    rw [returncodesOf_reportIn st h]
    simp [hi]
  · rw [if_neg hi] at h ⊢
    refine ⟨fun n => ?_, oneMore_of_not hi _ _ _⟩
    rw [returncodesOf_reportIn st h]
    simp [hi]

/-- A status that is not `null` has a name to be measured under. -/
theorem measurementName_some (w : DBWrapper σ ρ ε) (op : String) (st : AnyStatus) : ∃ name, w.measurementName op (some st) = .ok name := by
  rw [measurementName]
  split_ifs with hfailed hreport
  · exact ⟨_, rfl⟩
  · simp only [nameOf]
    by_cases htracked : st.getName.any fun name => name ∈ w.latencyTrackedErrors
    · exact ⟨_, if_pos htracked⟩
    · exact ⟨_, if_neg htracked⟩
  · exact ⟨_, rfl⟩

/-- `null` has none. -/
theorem measurementName_none (w : DBWrapper σ ρ ε) (op : String) : w.measurementName op none = .error .nullPointer := by
  rw [measurementName]
  split_ifs with hfailed hreport
  · rfl
  · rfl
  · exact absurd rfl hfailed

/-- A status can be reported after the latencies just if it could before. -/
theorem constructible_statusMap_iff {intended : ℤ}
    (hlatency : w.measurementInterval ≠ .intended → Takes w.measurementType m.opToMesurementMap name name latency)
    (hintended : w.measurementInterval ≠ .op → Takes w.measurementType m.opToIntendedMesurementMap name (w.intendedName name) intended) :
    Constructible w.measurementType (w.statusMap (w.measureIntended name intended (w.measureOp name latency m).2).2) op op ↔
      Constructible w.measurementType (w.statusMap m) op op := by
  by_cases hi : w.measurementInterval = .intended
  · have hname : w.intendedName name = name := if_pos hi
    have htakes := hintended (by simp [hi])
    rw [hname] at htakes
    simp only [statusMap, measureIntended, hi, reduceCtorEq, if_false, measureOp_intendedMap, hname]
    exact constructible_measureIn_iff htakes op
  · simp only [statusMap, if_neg hi, measureIntended_opMap, measureOp]
    exact constructible_measureIn_iff (hlatency hi) op

/-- What is told of a status: the latencies, and then the status. -/
def record (w : DBWrapper σ ρ ε) (op : String) (result : Option AnyStatus) (times : Times) : Step :=
  andThen (w.measure op result (w.getIntendedStartTimeNs times) times.st times.en) (w.reportStatus op result)

/-- **A status that is not `null` is recorded once just if the measurements accept it.** -/
theorem record_iff (w : DBWrapper σ ρ ε) (op : String) (st : AnyStatus) (times : Times) (m : Measurements) :
    ((w.record op (some st) times m).1 = none ∧ RecordsOnce w op (some st) times m (w.record op (some st) times m).2) ↔ Accepts w op st times m := by
  obtain ⟨name, hname⟩ := w.measurementName_some op st
  have hunique : ∀ {name'}, w.measurementName op (some st) = .ok name' → name' = name := fun h => Except.ok.inj (h.symm.trans hname)
  simp only [record, measure, hname]
  constructor
  · rintro ⟨hnone, hrecords⟩
    obtain ⟨hmeasured, hreported⟩ := andThen_eq_none_iff.mp hnone
    obtain ⟨hfirst, hsecond⟩ := andThen_eq_none_iff.mp hmeasured
    rw [andThen_snd hmeasured] at hrecords
    rw [andThen_snd hfirst] at hrecords hreported
    obtain ⟨name', hname', hop, hintended⟩ := hrecords.latency
    obtain rfl := hunique (hname' (by simp))
    rw [(latenciesOf_reportStatus st).1, measureIntended_opMap] at hop
    rw [(latenciesOf_reportStatus st).2] at hintended
    have htakes := measureOp_iff.mp ⟨hfirst, hop⟩
    have htakes' := measureIntended_iff.mp ⟨hsecond, by rwa [measureOp_intendedMap]⟩
    rw [measureOp_intendedMap] at htakes'
    refine ⟨fun n hn => hunique hn ▸ htakes, fun n hn => hunique hn ▸ htakes', ?_⟩
    exact (constructible_statusMap_iff htakes htakes').mp ((reportStatus_iff st).mp hreported)
  · intro h
    have htakes := h.latency name hname
    have htakes' := h.intended name hname
    obtain ⟨hfirst, hop⟩ := measureOp_iff.mpr htakes
    have hsame : (w.measureOp name (micros times.st times.en) m).2.opToIntendedMesurementMap = m.opToIntendedMesurementMap := measureOp_intendedMap
    have htakes'' := htakes'
    rw [← hsame] at htakes''
    obtain ⟨hsecond, hintended⟩ := measureIntended_iff.mpr htakes''
    have hstatus := (constructible_statusMap_iff htakes htakes').mpr h.status
    have hmeasured := andThen_eq_none_iff.mpr ⟨hfirst, hsecond⟩
    have hnone := andThen_eq_none_iff.mpr ⟨hmeasured, by rw [andThen_snd hfirst]; exact (reportStatus_iff st).mpr hstatus⟩
    refine ⟨hnone, ?_⟩
    rw [andThen_snd hmeasured, andThen_snd hfirst]
    obtain ⟨hcodes, hcodes'⟩ := oneMore_reportStatus st hstatus
    rw [measureIntended_opMap, returncodesOf_measureOp] at hcodes
    rw [returncodesOf_measureIntended, measureOp_intendedMap] at hcodes'
    refine ⟨⟨name, fun _ => hname, ?_, ?_⟩, ⟨st, fun _ => rfl, hcodes, hcodes'⟩⟩
    · rwa [(latenciesOf_reportStatus st).1, measureIntended_opMap]
    · rwa [(latenciesOf_reportStatus st).2, ← hsame]

/-- An operation that returns. -/
theorem operation_of_ok (w : DBWrapper σ ρ ε) (op : String) {call : Operation σ ε} (times : Times) {s s' : σ} (m : Measurements) {result : Option AnyStatus}
    (h : call s = (.ok result, s')) :
    w.operation op call times s m =
      (((w.record op result times m).1.elim (.ok result) fun t => .error (.own t)), s', (w.record op result times m).2) := by
  simp only [operation, h, record]
  split
  · next t m' hrecord => rw [hrecord]; rfl
  · next m' hrecord => rw [hrecord]; rfl

end DBWrapper

/-! ### The main theorem -/

/-- **When the wrapper is transparent**: the operation throws, or its status is not `null` and the measurements accept it. -/
theorem transparent_iff {σ ρ ε : Type} (w : DBWrapper σ ρ ε) (call : Call ρ) (times : Times) (s : σ) (m : Measurements) :
    Transparent w call times s m ↔
      ∀ result, (call.wrapped w.db s).1 = .ok result → ∃ st, result = some st ∧ Accepts w call.name st times m := by
  obtain ⟨outcome, s', hcall⟩ : ∃ outcome s', call.wrapped w.db s = (outcome, s') := ⟨_, _, rfl⟩
  cases outcome with
  | error e =>
    have hrun : call.run w times s m = (.error (.wrapped e), s', m) := by simp only [call.run_eq, DBWrapper.operation, hcall]
    refine ⟨fun _ result hresult => ?_, fun _ => ⟨?_, ?_, fun result hresult => ?_⟩⟩
    · simp [hcall] at hresult
    · rw [hrun, hcall]
      rfl
    · rw [hrun, hcall]
    · simp [hcall] at hresult
  | ok result =>
    have hrun := w.operation_of_ok call.name times m hcall
    rw [← call.run_eq] at hrun
    cases result with
    | none =>
      have hthrows : (w.record call.name none times m).1 = some .nullPointer := by
        rw [DBWrapper.record, andThen, DBWrapper.measure, w.measurementName_none]
      refine ⟨fun h => ?_, fun h => ?_⟩
      · have houtcome := h.outcome
        rw [hrun, hcall, hthrows] at houtcome
        cases houtcome
      · obtain ⟨st, hst, -⟩ := h none (by rw [hcall])
        cases hst
    | some st =>
      have hrecord := w.record_iff call.name st times m
      refine ⟨fun h result hresult => ?_, fun h => ?_⟩
      · rw [hcall] at hresult
        obtain rfl := Except.ok.inj hresult
        refine ⟨st, rfl, hrecord.mp ⟨?_, ?_⟩⟩
        · have houtcome := h.outcome
          rw [hrun, hcall] at houtcome
          cases hthrown : (w.record call.name (some st) times m).1 with
          | none => rfl
          | some t =>
            rw [hthrown] at houtcome
            cases houtcome
        · have hrecords := h.records (some st) (by rw [hcall])
          rwa [hrun] at hrecords
      · obtain ⟨st', hst', haccepts⟩ := h (some st) (by rw [hcall])
        obtain rfl := Option.some.inj hst'
        obtain ⟨hnone, hrecords⟩ := hrecord.mpr haccepts
        refine ⟨?_, ?_, fun result hresult => ?_⟩
        · rw [hrun, hcall, hnone]
          rfl
        · rw [hrun, hcall]
        · rw [hcall] at hresult
          obtain rfl := Except.ok.inj hresult
          rwa [hrun]

/-- Measurements that take anything. -/
def takesAnything : MeasurementType := ⟨fun _ => none, fun _ _ => none⟩

/-- A database that returns `null` from each operation. -/
def returnsNull : DB Unit Unit Empty where
  read _ _ _ _ s := (.ok none, s)
  scan _ _ _ _ _ s := (.ok none, s)
  update _ _ _ s := (.ok none, s)
  extend _ _ _ _ s := (.ok none, s)
  insert _ _ _ s := (.ok none, s)
  delete _ _ s := (.ok none, s)

/-- **The wrapper is not transparent for `null`**: an insert that returns it throws a `NullPointerException`, and nothing is recorded. -/
theorem not_transparent : ¬ Transparent ⟨returnsNull, takesAnything, .op, false, []⟩ (.insert "usertable" "user1" ()) ⟨0, 0, 0, 5000⟩ ()
    ⟨fun _ => none, fun _ => none⟩ := by
  intro h
  cases h.outcome

end YcsbIvs.Core.Wrapping
