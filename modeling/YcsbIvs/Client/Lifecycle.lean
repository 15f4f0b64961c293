import YcsbIvs.Client.Load
import YcsbIvs.Generator.Timestamps
import Mathlib.Data.Rat.Floor

/-!
# The life of a client thread

`ClientThread.run` from its beginning to its end: the binding and the workload are initialized, the thread waits a part of a tick, and then does operations, each no sooner than its tick,
until it has done its budget, is told to stop, or an operation returns `false`. At the end it counts the latch down, unless it has returned or died before.

Every step of a thread happens at a time, which is what `System.nanoTime()` gives in it, and no step is before another that has happened. How the calls end that `run` makes is part of
its label. `System.exit` ends all threads where they are. A sleep may end early, and reads the clock again.

The target is an exact rational.
-/

namespace YcsbIvs.Client.Lifecycle

open YcsbIvs.Foundations YcsbIvs.Generator

/-! ### What is called -/

/-- How a call ends that may throw an exception that is caught: a `DBException` or a `WorkloadException`. -/
inductive Outcome where
  /-- It returns. -/
  | returns
  /-- It throws that exception. -/
  | refuses
  /-- It throws another. -/
  | throws
  deriving DecidableEq

/-- How `doTransaction` or `doInsert` ends. -/
inductive OperationOutcome where
  /-- It returns `true`. -/
  | succeeds
  /-- It returns `false`. -/
  | fails
  /-- It throws an `Exception`. -/
  | exception
  /-- It throws an `Error`, which is not caught. -/
  | error
  deriving DecidableEq

/-- What a thread does. -/
inductive Act where
  /-- `db.init()`. -/
  | init (outcome : Outcome)
  /-- `workload.initThread(props, threadid, threadcount)`. -/
  | initThread (outcome : Outcome)
  /-- The wait before the first operation, if there is one, with what `nextInt` draws. -/
  | delay (draw : ℕ)
  /-- The condition of the loop in `sleepUntil`. -/
  | wake
  /-- `LockSupport.parkNanos`. -/
  | park
  /-- `startTimeNanos` is set. -/
  | start
  /-- The condition of the loop over the operations. -/
  | test (isStopRequested : Bool)
  /-- The end of an operation. -/
  | operate (outcome : OperationOutcome)
  /-- `db.cleanup()`. -/
  | cleanup (outcome : Outcome)
  deriving DecidableEq

/-- What a thread does at a time. -/
structure Event where
  /-- The time. -/
  time : ℤ
  /-- What it does. -/
  act : Act
  deriving DecidableEq

/-! ### Threads -/

/-- Where a thread is in `run`. -/
inductive Phase where
  /-- At the beginning. -/
  | initializing
  /-- After `db.init()`. -/
  | preparing
  /-- Before the wait. -/
  | delaying
  /-- In `sleepUntil(deadline)`, called by `throttleNanos` or before the first operation. -/
  | sleeping (deadline : ℤ) (throttled : Bool)
  /-- Before it parks. -/
  | parking (deadline : ℤ) (throttled : Bool)
  /-- Before `startTimeNanos` is set. -/
  | starting
  /-- At the condition of the loop. -/
  | testing
  /-- In an operation. -/
  | operating (begun : ℤ)
  /-- After the loop. -/
  | cleaning
  /-- At the end, and whether it has counted the latch down. -/
  | ended (counted : Bool)
  /-- In `System.exit`. -/
  | exiting
  deriving DecidableEq

/-- What the threads share. -/
structure World where
  /-- The count of `completeLatch`. -/
  completeLatch : ℤ
  /-- `spinSleep`. -/
  spinSleep : Bool
  /-- The time of the last step. -/
  now : ℤ
  /-- Whether `System.exit` has been called. -/
  exited : Bool
  deriving DecidableEq

/-- `ClientThread`. -/
structure ClientThread where
  /-- `opcount`; `0` for no limit. -/
  opcount : ℤ
  /-- `targetOpsPerMs`; `0` for no target. -/
  targetOpsPerMs : ℚ
  /-- `targetOpsTickNs`. -/
  targetOpsTickNs : ℤ
  /-- `opsdone`. -/
  opsdone : ℤ
  /-- How many operations it has done, which `opsdone` counts in 32 bits. -/
  operations : ℕ
  /-- `startTimeNanos`. -/
  startTimeNanos : ℤ
  /-- What `setIntendedStartTimeNs` has been given last. -/
  intendedStartTimeNs : ℤ
  /-- Where it is. -/
  phase : Phase
  deriving DecidableEq

/-- `(long) x`. -/
def castLong (x : ℚ) : ℤ := max (-2 ^ 63) (min (2 ^ 63 - 1) (if 0 ≤ x then ⌊x⌋ else ⌈x⌉))

/-- `countDown()` of a latch. -/
def World.countDown (w : World) : World := if 0 < w.completeLatch then { w with completeLatch := w.completeLatch - 1 } else w

namespace ClientThread

/-- `new ClientThread(...)`. -/
def new (opcount : ℤ) (targetperthreadperms : ℚ) : ClientThread :=
  { opcount := opcount
    targetOpsPerMs := if 0 < targetperthreadperms then targetperthreadperms else 0
    targetOpsTickNs := if 0 < targetperthreadperms then castLong (1000000 / targetperthreadperms) else 0
    opsdone := 0
    operations := 0
    startTimeNanos := 0
    intendedStartTimeNs := 0
    phase := .initializing }

/-- After `db.init()`. -/
def initialized (t : ClientThread) (outcome : Outcome) : ClientThread :=
  { t with phase := if outcome = .returns then .preparing else .ended false }

/-- After `workload.initThread(...)`. -/
def prepared (t : ClientThread) (outcome : Outcome) : ClientThread :=
  { t with phase := if outcome = .returns then .delaying else .ended false }

/-- There is a wait before the first operation. -/
def StartsDelayed (t : ClientThread) : Prop := 0 < t.targetOpsPerMs ∧ t.targetOpsPerMs ≤ 1

instance (t : ClientThread) : Decidable t.StartsDelayed := inferInstanceAs (Decidable (_ ∧ _))

/-- The wait before the first operation. An exception of `nextInt` is not caught. -/
def delayed (t : ClientThread) (time : ℤ) (draw : ℕ) : ClientThread :=
  if t.StartsDelayed then
    match nextInt (asInt t.targetOpsTickNs) draw with
    | .ok randomMinorDelay => { t with phase := .sleeping (asLong (time + randomMinorDelay)) false }
    | .error _ => { t with phase := .ended false }
  else { t with phase := .starting }

/-- After `sleepUntil(deadline)`: the rest of `throttleNanos`, or the start. -/
def awoken (t : ClientThread) (deadline : ℤ) (throttled : Bool) : ClientThread :=
  if throttled then { t with intendedStartTimeNs := deadline, phase := .testing } else { t with phase := .starting }

/-- The condition of the loop in `sleepUntil(deadline)`. -/
def slept (t : ClientThread) (spinSleep : Bool) (time deadline : ℤ) (throttled : Bool) : ClientThread :=
  if time < deadline then if spinSleep then t else { t with phase := .parking deadline throttled }
  else t.awoken deadline throttled

/-- `throttleNanos(startTimeNanos)`. -/
def throttleNanos (t : ClientThread) : ClientThread :=
  if 0 < t.targetOpsPerMs then
    { t with phase := .sleeping (asLong (t.startTimeNanos + asLong (t.opsdone * t.targetOpsTickNs))) true }
  else { t with phase := .testing }

/-- The condition of the loop over the operations. -/
def tested (t : ClientThread) (time : ℤ) (isStopRequested : Bool) : ClientThread :=
  if (t.opcount = 0 ∨ t.opsdone < t.opcount) ∧ isStopRequested = false then { t with phase := .operating time }
  else { t with phase := .cleaning }

/-- After an operation. -/
def operated (t : ClientThread) : OperationOutcome → ClientThread
  | .succeeds => { t with opsdone := asInt (t.opsdone + 1), operations := t.operations + 1 }.throttleNanos
  | .fails => { t with phase := .cleaning }
  | .exception => { t with phase := .exiting }
  | .error => { t with phase := .ended false }

/-- What a thread does next, at a time. -/
def next (w : World) (t : ClientThread) (time : ℤ) : Act → Option (World × ClientThread)
  | .init outcome => if t.phase = .initializing then some (w, t.initialized outcome) else none
  | .initThread outcome => if t.phase = .preparing then some (w, t.prepared outcome) else none
  | .delay draw => if t.phase = .delaying then some (w, t.delayed time draw) else none
  | .wake =>
    match t.phase with
    | .sleeping deadline throttled => some (w, t.slept w.spinSleep time deadline throttled)
    | _ => none
  | .park =>
    match t.phase with
    | .parking deadline throttled => some (w, { t with phase := .sleeping deadline throttled })
    | _ => none
  | .start => if t.phase = .starting then some (w, { t with startTimeNanos := time, phase := .testing }) else none
  | .test isStopRequested => if t.phase = .testing then some (w, t.tested time isStopRequested) else none
  | .operate outcome =>
    match t.phase with
    | .operating _ => some ({ w with exited := outcome = .exception }, t.operated outcome)
    | _ => none
  -- the latch is counted down in `finally`
  | .cleanup _ => if t.phase = .cleaning then some (w.countDown, { t with intendedStartTimeNs := 0, phase := .ended true }) else none

/-- One step of `run`, at a time that the clock can give. -/
def run (w : World) (t : ClientThread) (e : Event) : Option (World × ClientThread) :=
  if w.exited = false ∧ w.now ≤ e.time ∧ FitsLong e.time then t.next { w with now := e.time } e.time e.act else none

end ClientThread

/-! ### Moves -/

/-- What a thread can do at a time: which act, where it is, and what the world and the thread are after it. -/
inductive Moves (w : World) (t : ClientThread) (time : ℤ) : Act → World → ClientThread → Prop where
  | init {outcome : Outcome} (h : t.phase = .initializing) : Moves w t time (.init outcome) w (t.initialized outcome)
  | initThread {outcome : Outcome} (h : t.phase = .preparing) : Moves w t time (.initThread outcome) w (t.prepared outcome)
  | delay {draw : ℕ} (h : t.phase = .delaying) : Moves w t time (.delay draw) w (t.delayed time draw)
  | wake {deadline : ℤ} {throttled : Bool} (h : t.phase = .sleeping deadline throttled) :
    Moves w t time .wake w (t.slept w.spinSleep time deadline throttled)
  | park {deadline : ℤ} {throttled : Bool} (h : t.phase = .parking deadline throttled) :
    Moves w t time .park w { t with phase := .sleeping deadline throttled }
  | start (h : t.phase = .starting) : Moves w t time .start w { t with startTimeNanos := time, phase := .testing }
  | test {isStopRequested : Bool} (h : t.phase = .testing) : Moves w t time (.test isStopRequested) w (t.tested time isStopRequested)
  | operate {outcome : OperationOutcome} {begun : ℤ} (h : t.phase = .operating begun) :
    Moves w t time (.operate outcome) { w with exited := outcome = .exception } (t.operated outcome)
  | cleanup {outcome : Outcome} (h : t.phase = .cleaning) :
    Moves w t time (.cleanup outcome) w.countDown { t with intendedStartTimeNs := 0, phase := .ended true }

theorem moves_of_next {w w' : World} {t t' : ClientThread} {time : ℤ} {act : Act} (h : t.next w time act = some (w', t')) : Moves w t time act w' t' := by
  cases act with
  | init outcome =>
    rw [ClientThread.next, Option.ite_none_right_eq_some] at h
    cases h.2
    exact .init h.1
  | initThread outcome =>
    rw [ClientThread.next, Option.ite_none_right_eq_some] at h
    cases h.2
    exact .initThread h.1
  | delay draw =>
    rw [ClientThread.next, Option.ite_none_right_eq_some] at h
    obtain ⟨hphase, h⟩ := h
    obtain ⟨rfl, rfl⟩ := Prod.mk.inj (Option.some.inj h)
    exact .delay hphase
  | wake =>
    rw [ClientThread.next] at h
    split at h
    · next deadline throttled hphase =>
      obtain ⟨rfl, rfl⟩ := Prod.mk.inj (Option.some.inj h)
      exact .wake hphase
    · cases h
  | park =>
    rw [ClientThread.next] at h
    split at h
    · next deadline throttled hphase =>
      cases h
      exact .park hphase
    · cases h
  | start =>
    rw [ClientThread.next, Option.ite_none_right_eq_some] at h
    cases h.2
    exact .start h.1
  | test isStopRequested =>
    rw [ClientThread.next, Option.ite_none_right_eq_some] at h
    obtain ⟨hphase, h⟩ := h
    obtain ⟨rfl, rfl⟩ := Prod.mk.inj (Option.some.inj h)
    exact .test hphase
  | operate outcome =>
    rw [ClientThread.next] at h
    split at h
    · next begun hphase =>
      obtain ⟨rfl, rfl⟩ := Prod.mk.inj (Option.some.inj h)
      exact .operate hphase
    · cases h
  | cleanup outcome =>
    rw [ClientThread.next, Option.ite_none_right_eq_some] at h
    cases h.2
    exact .cleanup h.1

/-- A step is a move, at a time that is not before the last. -/
theorem run_eq_some {w w' : World} {t t' : ClientThread} {e : Event} (h : t.run w e = some (w', t')) :
    w.exited = false ∧ w.now ≤ e.time ∧ FitsLong e.time ∧ Moves { w with now := e.time } t e.time e.act w' t' := by
  rw [ClientThread.run, Option.ite_none_right_eq_some] at h
  exact ⟨h.1.1, h.1.2.1, h.1.2.2, moves_of_next h.2⟩

/-- The time is that of the step. -/
theorem Moves.now_eq {w w' : World} {t t' : ClientThread} {time : ℤ} {act : Act} (h : Moves w t time act w' t') : w'.now = w.now := by
  cases h with
  | cleanup =>
    rw [World.countDown]
    split_ifs <;> rfl
  | init => rfl
  | initThread => rfl
  | delay => rfl
  | wake => rfl
  | park => rfl
  | start => rfl
  | test => rfl
  | operate => rfl

/-! ### The threads of a client -/

/-- `targetperthreadperms` of `main`. -/
def targetperthreadperms (target threadcount : ℤ) : ℚ := if 0 < target then (target / threadcount : ℚ) / 1000 else -1

/-- The threads that `initDb` makes, before they start, with the latch that `main` has made for `threadcount` of them. -/
def starting (p : OperationCounts) (target threadcount : ℤ) (spinSleep : Bool) (now : ℤ) : Pool World ClientThread :=
  ⟨⟨threadcount, spinSleep, now, false⟩, (initDb p threadcount).map fun opcount => .new opcount (targetperthreadperms target threadcount)⟩

end YcsbIvs.Client.Lifecycle
