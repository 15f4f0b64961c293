import YcsbIvs.Client.CompleteLatch

/-!
# The client as a whole

`Client.main` starts a thread that shows the status, if it is asked to, the client threads, and a thread that stops the run after a while, if there is to be one. It
joins the client threads, interrupts the other two, waits for the one with the status, cleans up the workload and exports the measurements. All of them go on at once
(`Process.step`); the client threads are those of `ClientThread.run`, and see the workload's stop when it has been requested.

`StatusThread` reads the counts of the threads one after the other (`summing`), and waits for `completeLatch` until a deadline that it moves on by an interval every
time, or until it is interrupted; the last report comes after that.
-/

namespace YcsbIvs.Client.Lifecycle

open YcsbIvs.Foundations

/-- What `main` makes of the properties. -/
structure Options where
  /-- `maxexecutiontime`. -/
  maxExecutionTime : ℤ
  /-- Whether there is a thread that shows the status. -/
  status : Bool
  /-- `status.interval`. -/
  statusIntervalSeconds : ℤ
  /-- The client threads in the order of `threads.keySet()`. -/
  order : List ℕ

/-- `sleeptimeNs`. -/
def Options.sleeptimeNs (o : Options) : ℤ := 1000000000 * o.statusIntervalSeconds

/-! ### The threads beside the client threads -/

/-- Where `main` is. -/
inductive MainPhase where
  /-- Before it starts the thread with the status. -/
  | launching
  /-- It has started so many client threads. -/
  | starting (n : ℕ)
  /-- Before it starts the terminator. -/
  | terminating
  /-- It has joined so many client threads. -/
  | joining (n : ℕ)
  /-- Before it interrupts the terminator. -/
  | interrupting
  /-- Before it interrupts the thread with the status. -/
  | waking
  /-- In `statusthread.join()`. -/
  | joiningStatus
  /-- Before `workload.cleanup()`. -/
  | cleaning
  /-- Before `exportMeasurements`. -/
  | exporting
  /-- In `System.exit`. -/
  | exited
  deriving DecidableEq

/-- Where `TerminatorThread.run` is. -/
inductive TerminatorPhase where
  /-- It has not been started. -/
  | absent
  /-- In its sleep. -/
  | sleeping
  /-- Before `workload.requestStop()`. -/
  | requesting
  /-- It has joined so many client threads. -/
  | joining (n : ℕ)
  /-- At its end. -/
  | returned
  deriving DecidableEq

/-- Where `StatusThread.run` is. -/
inductive StatusPhase where
  /-- It has not been started. -/
  | absent
  /-- At its beginning. -/
  | beginning
  /-- Before `computeStats`, and whether it is the last time. -/
  | looking (final : Bool)
  /-- In the loop of `computeStats`, with the counts of so many threads. -/
  | summing (final : Bool) (i : ℕ) (totalops todoops : ℤ)
  /-- In `waitForClientsUntil`. -/
  | waiting
  /-- At its end. -/
  | ended
  deriving DecidableEq

/-- A line of the status: the numbers that `computeStats` has, from which its rates come. -/
structure Report where
  /-- `startIntervalMs`. -/
  startIntervalMs : ℤ
  /-- `endIntervalMs`. -/
  endIntervalMs : ℤ
  /-- `lastTotalOps`. -/
  lastTotalOps : ℤ
  /-- `totalops`. -/
  totalops : ℤ
  /-- `todoops`. -/
  todoops : ℤ
  deriving DecidableEq

/-- `StatusThread`. -/
structure StatusThread where
  /-- Where it is. -/
  phase : StatusPhase
  /-- Whether it has been interrupted. -/
  interrupted : Bool
  /-- `startTimeMs`. -/
  startTimeMs : ℤ
  /-- `deadline`. -/
  deadline : ℤ
  /-- `startIntervalMs`. -/
  startIntervalMs : ℤ
  /-- `nowMs`. -/
  nowMs : ℤ
  /-- `lastTotalOps`. -/
  lastTotalOps : ℤ
  /-- What it has shown. -/
  reports : List Report
  deriving DecidableEq

/-- All threads of the client. -/
structure Process where
  /-- The client threads. -/
  pool : Pool World ClientThread
  /-- Those that have been started. -/
  started : List ℕ
  /-- `workload.isStopRequested()`. -/
  stopRequested : Bool
  /-- `main`. -/
  main : MainPhase
  /-- `opsDone` of `main`. -/
  opsDone : ℤ
  /-- What `main` has exported as the number of operations. -/
  exported : Option ℤ
  /-- The terminator. -/
  terminator : TerminatorPhase
  /-- Whether it has been interrupted. -/
  terminatorInterrupted : Bool
  /-- The thread with the status. -/
  status : StatusThread
  deriving DecidableEq

/-- `getOpsTodo()`. -/
def ClientThread.getOpsTodo (t : ClientThread) : ℤ :=
  let todo := asInt (t.opcount - t.opsdone)
  if todo < 0 then 0 else todo

/-- The client thread is alive no more. -/
def Process.hasEnded (s : Process) (i : ℕ) : Bool :=
  match s.pool.threads[i]? with
  | some t => match t.phase with
    | .ended _ => true
    | _ => false
  | none => false

/-- `System.exit` is called. -/
def Process.exit (s : Process) : Process := { s with main := .exited, pool := { s.pool with shared := { s.pool.shared with exited := true } } }

/-! ### Steps -/

/-- The next step of `main`; `cleanedUp` says whether `workload.cleanup()` returns. -/
def Process.mainStep (o : Options) (s : Process) (cleanedUp : Bool) : Option Process :=
  match s.main with
  | .launching => some { s with main := .starting 0, status := if o.status then { s.status with phase := .beginning } else s.status }
  | .starting n =>
    match o.order[n]? with
    | some i => some { s with main := .starting (n + 1), started := i :: s.started }
    | none => some { s with main := .terminating }
  | .terminating => some { s with main := .joining 0, terminator := if 0 < o.maxExecutionTime then .sleeping else .absent }
  | .joining n =>
    match o.order[n]? with
    | some i =>
      if s.hasEnded i then
        (s.pool.threads[i]?).map fun t => { s with main := .joining (n + 1), opsDone := asInt (s.opsDone + t.opsdone) }
      else none
    | none => some { s with main := .interrupting }
  | .interrupting => some { s with main := .waking, terminatorInterrupted := s.terminator ≠ .absent }
  | .waking =>
    if o.status then some { s with main := .joiningStatus, status := { s.status with interrupted := true } }
    else some { s with main := .cleaning }
  | .joiningStatus => if s.status.phase = .ended then some { s with main := .cleaning } else none
  | .cleaning => some (if cleanedUp then { s with main := .exporting } else s.exit)
  | .exporting => some { s.exit with exported := some s.opsDone }
  | .exited => none

/-- The next step of the terminator. An interrupt ends its sleep; in its joins it does not. -/
def Process.terminatorStep (o : Options) (s : Process) : Option Process :=
  match s.terminator with
  | .sleeping => some { s with terminator := if s.terminatorInterrupted then .returned else .requesting }
  | .requesting => some { s with stopRequested := true, terminator := .joining 0 }
  | .joining n =>
    match o.order[n]? with
    | some i => some (if s.hasEnded i then { s with terminator := .joining (n + 1) } else s)
    | none => some { s with terminator := .returned }
  | .absent | .returned => none

/-- The end of a call of `waitForClientsUntil`. -/
def StatusThread.waited (o : Options) (t : StatusThread) (alldone : Bool) : StatusThread :=
  { t with startIntervalMs := t.nowMs, deadline := asLong (t.deadline + o.sleeptimeNs), phase := .looking alldone }

/-- The next step of the thread with the status; `time` is what `nanoTime` gives in it, and `ms` what `currentTimeMillis` does. -/
def StatusThread.next (o : Options) (q : Pool World ClientThread) (t : StatusThread) (time ms : ℤ) : Option StatusThread :=
  match t.phase with
  | .beginning =>
    some { t with startTimeMs := ms, deadline := asLong (time + o.sleeptimeNs), startIntervalMs := ms, lastTotalOps := 0, phase := .looking false }
  | .looking final => some { t with nowMs := ms, phase := .summing final 0 0 0 }
  | .summing final i totalops todoops =>
    match q.threads[i]? with
    | some client => some { t with phase := .summing final (i + 1) (asLong (totalops + client.opsdone)) (asLong (todoops + client.getOpsTodo)) }
    | none => some
      { t with
        reports := t.reports ++ [⟨t.startIntervalMs, t.nowMs, t.lastTotalOps, totalops, todoops⟩]
        lastTotalOps := totalops
        phase := if final then .ended else .waiting }
  | .waiting =>
    -- an interrupted `await` throws, whatever the count is
    if time < t.deadline then some (if t.interrupted ∨ q.shared.completeLatch = 0 then t.waited o true else t)
    else some (t.waited o false)
  | .absent | .ended => none

/-- A step of some thread. -/
inductive Label where
  /-- A client thread. -/
  | client (i : ℕ) (e : Event)
  /-- `main`. -/
  | main (cleanedUp : Bool)
  /-- The terminator. -/
  | terminator
  /-- The thread with the status. -/
  | status (time ms : ℤ)
  deriving DecidableEq

/-- One step, unless `System.exit` has been called. -/
def Process.step (o : Options) (s : Process) (l : Label) : Option Process :=
  if s.pool.shared.exited then none
  else
    match l with
    | .client i e =>
      if i ∈ s.started ∧ ∀ b, e.act = .test b → b = s.stopRequested then
        (s.pool.step ClientThread.run (i, e)).map fun pool => { s with pool := pool }
      else none
    | .main cleanedUp => s.mainStep o cleanedUp
    | .terminator => s.terminatorStep o
    | .status time ms =>
      if s.pool.shared.now ≤ time ∧ FitsLong time then
        (s.status.next o s.pool time ms).map fun status =>
          { s with status := status, pool := { s.pool with shared := { s.pool.shared with now := time } } }
      else none

/-- Before `main` starts any thread. -/
def Process.initial (q : Pool World ClientThread) : Process :=
  ⟨q, [], false, .launching, 0, none, .absent, false, ⟨.absent, false, 0, 0, 0, 0, 0, []⟩⟩

end YcsbIvs.Client.Lifecycle
