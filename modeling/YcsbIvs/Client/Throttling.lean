import YcsbIvs.Client.Lifecycle
import Mathlib.Tactic.Linarith

/-!
# Throttling

With a target, the operation number `k` of a thread, counted from zero, is due `k` ticks after the first. `throttleNanos` sleeps until then, and gives that time as the
intended one to the measurements: no operation is to begin before it is due, however long others have taken, and the intended times are to be exact.

The number comes from `opsdone`, of 32 bits, and the time is a `long`. A thread without a limit goes on when `opsdone` has wrapped around, and is then not throttled any more. **As long as the
numbers of its operations and the times they are due fit, no thread is ahead** (`neverAhead`), in any order of the threads and with any clock.
-/

namespace YcsbIvs.Client.Lifecycle

open YcsbIvs.Foundations YcsbIvs.Generator

/-- When the next operation is due. -/
def ClientThread.due (t : ClientThread) : ℤ := t.startTimeNanos + t.operations * t.targetOpsTickNs

/-- With a target, no operation begins before it is due, and what has been recorded as intended for one after the first is the time it is due. -/
def ClientThread.NeverAhead (t : ClientThread) : Prop :=
  0 < t.targetOpsPerMs →
    (∀ begun, t.phase = .operating begun → t.due ≤ begun) ∧
      (1 ≤ t.operations → (t.phase = .testing ∨ ∃ begun, t.phase = .operating begun) → t.intendedStartTimeNs = t.due)

/-- The number of the operation that comes next, and the time it is due, fit. -/
def ClientThread.NextFits (t : ClientThread) (act : Act) : Prop :=
  act = .operate .succeeds → (t.operations + 1 : ℤ) < 2 ^ 31 ∧ t.startTimeNanos + (t.operations + 1) * t.targetOpsTickNs < 2 ^ 63

instance (t : ClientThread) (act : Act) : Decidable (t.NextFits act) := inferInstanceAs (Decidable (_ → _))

/-- So it is for a step of the threads. -/
def NextFits (q : Pool World ClientThread) (l : ℕ × Event) : Prop := ∀ t ∈ q.threads[l.1]?, t.NextFits l.2.act

instance (q : Pool World ClientThread) (l : ℕ × Event) : Decidable (NextFits q l) := inferInstanceAs (Decidable (∀ _ ∈ _, _))

/-- What is due in a phase, of a thread with a target. -/
def ClientThread.DueIn (t : ClientThread) (now : ℤ) : Phase → Prop
  | .initializing => t.operations = 0
  | .preparing => t.operations = 0
  | .delaying => t.operations = 0
  | .starting => t.operations = 0
  | .sleeping deadline throttled => if throttled then deadline = t.due else t.operations = 0
  | .parking deadline throttled => if throttled then deadline = t.due else t.operations = 0
  | .testing => t.due ≤ now ∧ (1 ≤ t.operations → t.intendedStartTimeNs = t.due)
  | .operating begun => t.due ≤ begun ∧ (1 ≤ t.operations → t.intendedStartTimeNs = t.due)
  | .cleaning => True
  | .ended _ => True
  | .exiting => True

/-- What holds of a thread. -/
structure ClientThread.OnTime (t : ClientThread) (now : ℤ) : Prop where
  /-- The count is that of the operations, in 32 bits. -/
  opsdone : t.opsdone = asInt t.operations
  /-- A tick is not negative. -/
  tick : 0 ≤ t.targetOpsTickNs
  /-- The first operation has a time. -/
  start : -2 ^ 63 ≤ t.startTimeNanos
  /-- What is due. -/
  dueIn : 0 < t.targetOpsPerMs → t.DueIn now t.phase

namespace ClientThread

variable {t : ClientThread} {now time : ℤ}

theorem castLong_nonneg {x : ℚ} (h : 0 ≤ x) : 0 ≤ castLong x := by
  have hfloor : 0 ≤ ⌊x⌋ := Int.floor_nonneg.mpr h
  rw [castLong, if_pos h]
  omega

theorem onTime_new (opcount : ℤ) (targetperthreadperms : ℚ) (now : ℤ) : (new opcount targetperthreadperms).OnTime now := by
  refine ⟨show (0 : ℤ) = asInt (0 : ℕ) by decide, ?_, show (-2 ^ 63 : ℤ) ≤ 0 by decide, fun _ => rfl⟩
  rw [new]
  dsimp only
  split_ifs with h
  · exact castLong_nonneg (by positivity)
  · exact le_refl 0

/-- Time goes on. -/
theorem DueIn.mono {phase : Phase} (h : t.DueIn now phase) (hle : now ≤ time) : t.DueIn time phase := by
  cases phase with
  | testing => exact ⟨h.1.trans hle, h.2⟩
  -- the time counts nowhere else
  | _ => exact h

theorem OnTime.mono (h : t.OnTime now) (hle : now ≤ time) : t.OnTime time :=
  ⟨h.opsdone, h.tick, h.start, fun htarget => (h.dueIn htarget).mono hle⟩

/-- After an operation, the deadline is when the next is due. -/
theorem OnTime.throttleNanos (h : t.OnTime now) (hfits : (t.operations + 1 : ℤ) < 2 ^ 31)
    (hdue : t.startTimeNanos + (t.operations + 1) * t.targetOpsTickNs < 2 ^ 63) :
    (t.operated .succeeds).OnTime now := by
  have htick := h.tick
  have hstart := h.start
  have hcount : asInt (t.opsdone + 1) = t.operations + 1 := by
    rw [h.opsdone, asInt_asInt_add]
    exact asInt_of_fits (by unfold FitsInt; omega)
  have hdeadline : asLong (t.startTimeNanos + asLong (asInt (t.opsdone + 1) * t.targetOpsTickNs)) =
      t.startTimeNanos + (t.operations + 1) * t.targetOpsTickNs := by
    have hpos : 0 ≤ ((t.operations : ℤ) + 1) * t.targetOpsTickNs := by positivity
    rw [asLong_add_asLong, hcount]
    exact asLong_of_fits (by unfold FitsLong; omega)
  have hdone : asInt (t.opsdone + 1) = asInt (t.operations + 1 : ℕ) := by rw [h.opsdone, asInt_asInt_add, Nat.cast_succ]
  rw [operated, ClientThread.throttleNanos]
  split_ifs with htarget
  · refine ⟨hdone, htick, hstart, fun _ => ?_⟩
    show asLong _ = _
    rw [hdeadline, due]
    push_cast
    rfl
  · exact ⟨hdone, htick, hstart, fun hpos => absurd hpos htarget⟩

/-- **One step of a thread** whose next operation fits. -/
theorem OnTime.moves {w w' : World} {t' : ClientThread} {act : Act} (h : t.OnTime now) (hnow : now ≤ time) (htime : FitsLong time)
    (hfits : t.NextFits act) (hmoves : Moves w t time act w' t') : t'.OnTime time := by
  have h := h.mono hnow
  obtain ⟨hopsdone, htick, hstart, hdue⟩ := h
  cases hmoves with
  | init hphase =>
    refine ⟨hopsdone, htick, hstart, fun htarget => ?_⟩
    have hdue := hdue htarget
    rw [hphase] at hdue
    rw [initialized]
    split_ifs
    · exact hdue
    · trivial
  | initThread hphase =>
    refine ⟨hopsdone, htick, hstart, fun htarget => ?_⟩
    have hdue := hdue htarget
    rw [hphase] at hdue
    rw [prepared]
    split_ifs
    · exact hdue
    · trivial
  | delay hphase =>
    rw [hphase] at hdue
    rw [delayed]
    split_ifs
    · split
      · exact ⟨hopsdone, htick, hstart, hdue⟩
      · exact ⟨hopsdone, htick, hstart, fun _ => trivial⟩
    · exact ⟨hopsdone, htick, hstart, hdue⟩
  | @wake deadline throttled hphase =>
    rw [slept]
    split_ifs with hlt hspin
    · exact ⟨hopsdone, htick, hstart, hdue⟩
    · rw [hphase] at hdue
      exact ⟨hopsdone, htick, hstart, hdue⟩
    · rw [hphase] at hdue
      rw [awoken]
      cases throttled with
      | true =>
        refine ⟨hopsdone, htick, hstart, fun htarget => ?_⟩
        have hdeadline : deadline = t.due := hdue htarget
        exact ⟨hdeadline ▸ not_lt.mp hlt, fun _ => hdeadline⟩
      | false => exact ⟨hopsdone, htick, hstart, hdue⟩
  | park hphase =>
    rw [hphase] at hdue
    exact ⟨hopsdone, htick, hstart, hdue⟩
  | start hphase =>
    rw [hphase] at hdue
    refine ⟨hopsdone, htick, htime.1, fun htarget => ?_⟩
    have hnone : t.operations = 0 := hdue htarget
    refine ⟨?_, fun hone => absurd (show 1 ≤ t.operations from hone) (by omega)⟩
    show time + (t.operations : ℤ) * t.targetOpsTickNs ≤ time
    rw [hnone, Nat.cast_zero, zero_mul, add_zero]
  | test hphase =>
    rw [hphase] at hdue
    rw [tested]
    split_ifs
    · exact ⟨hopsdone, htick, hstart, hdue⟩
    · exact ⟨hopsdone, htick, hstart, fun _ => trivial⟩
  | @operate outcome =>
    cases outcome with
    | succeeds => exact OnTime.throttleNanos ⟨hopsdone, htick, hstart, hdue⟩ (hfits rfl).1 (hfits rfl).2
    | fails => exact ⟨hopsdone, htick, hstart, fun _ => trivial⟩
    | exception => exact ⟨hopsdone, htick, hstart, fun _ => trivial⟩
    | error => exact ⟨hopsdone, htick, hstart, fun _ => trivial⟩
  | cleanup => exact ⟨hopsdone, htick, hstart, fun _ => trivial⟩

theorem OnTime.notAhead (h : t.OnTime now) : t.NeverAhead := by
  intro htarget
  have hdue := h.dueIn htarget
  constructor
  · intro begun hphase
    rw [hphase] at hdue
    exact hdue.1
  · rintro hone (hphase | ⟨begun, hphase⟩)
    · rw [hphase] at hdue
      exact hdue.2 hone
    · rw [hphase] at hdue
      exact hdue.2 hone

end ClientThread

/-! ### All threads -/

/-- All threads are on time. -/
def AllOnTime (q : Pool World ClientThread) : Prop := ∀ t ∈ q.threads, t.OnTime q.shared.now

theorem AllOnTime.step {q q' : Pool World ClientThread} {l : ℕ × Event} (h : AllOnTime q) (hfits : NextFits q l)
    (hs : q.step ClientThread.run l = some q') : AllOnTime q' := by
  obtain ⟨t, w', t', ht, hrun, rfl⟩ := Pool.step_eq_some hs
  obtain ⟨-, hnow, htime, hmoves⟩ := run_eq_some hrun
  have hnow' : w'.now = l.2.time := hmoves.now_eq
  have hthread := (h t (List.mem_of_getElem? ht)).moves hnow htime (hfits t ht) hmoves
  refine forall_threads_set (fun u hu => ?_) ?_ l.1
  · rw [hnow']
    exact (h u hu).mono hnow
  · rwa [hnow']

/-- **No thread is ahead, as long as the numbers of its operations and the times they are due fit.** -/
theorem neverAhead {q : Pool World ClientThread} (hnew : ∀ t ∈ q.threads, ∃ opcount target, t = .new opcount target) {ls : List (ℕ × Event)}
    (hfits : Meets (Pool.step ClientThread.run) NextFits q ls) :
    Always (Pool.step ClientThread.run) (fun q => ∀ t ∈ q.threads, t.NeverAhead) q ls := by
  refine Always.of_meets (I := AllOnTime) (fun _ _ _ h hfits hs => h.step hfits hs) (fun _ h t ht => (h t ht).notAhead) (fun t ht => ?_) hfits
  obtain ⟨opcount, target, rfl⟩ := hnew t ht
  exact ClientThread.onTime_new opcount target q.shared.now

/-- A thread with a target and no limit, before it starts. -/
def unlimited : Pool World ClientThread := ⟨⟨1, false, 0, false⟩, [.new 0 1000000]⟩

/-- An operation at the time 0, and one when it is due. -/
theorem neverAhead_two :
    Always (Pool.step ClientThread.run) (fun q => ∀ t ∈ q.threads, t.NeverAhead) unlimited
      [(0, ⟨0, .init .returns⟩), (0, ⟨0, .initThread .returns⟩), (0, ⟨0, .delay 0⟩), (0, ⟨0, .start⟩), (0, ⟨0, .test false⟩),
        (0, ⟨0, .operate .succeeds⟩), (0, ⟨1, .wake⟩), (0, ⟨1, .test false⟩)] := by
  refine neverAhead (fun t ht => ⟨0, 1000000, List.mem_singleton.mp ht⟩) ?_
  decide +kernel

/-! ### A count that wraps around -/

/-- The thread, when it has done `n` operations, the next of them due. -/
def afterOperations (n : ℕ) : Pool World ClientThread :=
  ⟨⟨1, false, n, false⟩, [⟨0, 1000000, 1, n, n, 0, n, .testing⟩]⟩

/-- One operation, and a sleep until the next is due. -/
def operation (n : ℕ) : List (ℕ × Event) := [(0, ⟨n, .test false⟩), (0, ⟨n, .operate .succeeds⟩), (0, ⟨n + 1, .wake⟩)]

theorem exec_operation {n : ℕ} (h : (n + 1 : ℤ) < 2 ^ 31) :
    exec (Pool.step ClientThread.run) (afterOperations n) (operation n) = some (afterOperations (n + 1)) := by
  have hfits : FitsLong n := ⟨by omega, by omega⟩
  have hnext : FitsLong (n + 1) := ⟨by omega, by omega⟩
  have hcount : asInt (n + 1) = n + 1 := asInt_of_fits ⟨by omega, by omega⟩
  have htarget : (0 : ℚ) < 1000000 := by norm_num
  simp [exec, operation, afterOperations, Pool.step, ClientThread.run, ClientThread.next, ClientThread.tested, ClientThread.operated,
    ClientThread.throttleNanos, ClientThread.slept, ClientThread.awoken, hfits, hnext, hcount, htarget, asLong_of_fits hnext]

/-- Any number of operations. -/
theorem exec_operations {n : ℕ} (h : (n : ℤ) < 2 ^ 31) :
    exec (Pool.step ClientThread.run) (afterOperations 0) ((List.range n).flatMap operation) = some (afterOperations n) := by
  induction n with
  | zero => rfl
  | succ n ih =>
    have hn : (n : ℤ) + 1 < 2 ^ 31 := by
      push_cast at h
      exact h
    rw [List.range_succ, List.flatMap_append, exec_append, ih (by omega), Option.bind_some, List.flatMap_singleton]
    exact exec_operation hn

/-- The steps of a thread before its first operation. -/
def beforeOperations : List (ℕ × Event) :=
  [(0, ⟨0, .init .returns⟩), (0, ⟨0, .initThread .returns⟩), (0, ⟨0, .delay 0⟩), (0, ⟨0, .start⟩)]

/-- The steps of one whose count wraps around: the sleep ends at once. -/
def wrapping : List (ℕ × Event) :=
  [(0, ⟨2 ^ 31 - 1, .test false⟩), (0, ⟨2 ^ 31 - 1, .operate .succeeds⟩), (0, ⟨2 ^ 31 - 1, .wake⟩)]

/-- The intended time is negative then. -/
theorem exec_wrapping :
    exec (Pool.step ClientThread.run) (afterOperations (2 ^ 31 - 1)) wrapping =
      some ⟨⟨1, false, 2 ^ 31 - 1, false⟩, [⟨0, 1000000, 1, -2 ^ 31, 2 ^ 31, 0, -2 ^ 31, .testing⟩]⟩ := by
  decide +kernel

/-- Without a limit, a thread gets ahead after as many operations as there are `int`s that are not negative. -/
theorem not_neverAhead :
    ¬ ∀ q : Pool World ClientThread, (∀ t ∈ q.threads, ∃ opcount target, t = .new opcount target) →
      (∀ t ∈ q.threads, 1 ≤ t.targetOpsTickNs ∧ t.opcount * t.targetOpsTickNs < 2 ^ 63) → ∀ ls st,
        exec (Pool.step ClientThread.run) q ls = some st → Always (Pool.step ClientThread.run) (fun q => ∀ t ∈ q.threads, t.NeverAhead) q ls := by
  intro h
  have hstart : exec (Pool.step ClientThread.run) unlimited beforeOperations = some (afterOperations 0) := by decide +kernel
  have hall := exec_operations (n := 2 ^ 31 - 1) (by norm_num)
  have hrun : exec (Pool.step ClientThread.run) unlimited (beforeOperations ++ ((List.range (2 ^ 31 - 1)).flatMap operation ++ wrapping)) =
      some ⟨⟨1, false, 2 ^ 31 - 1, false⟩, [⟨0, 1000000, 1, -2 ^ 31, 2 ^ 31, 0, -2 ^ 31, .testing⟩]⟩ := by
    rw [exec_append, hstart, Option.bind_some, exec_append, hall, Option.bind_some, exec_wrapping]
  have hlimits : ∀ t ∈ unlimited.threads, 1 ≤ t.targetOpsTickNs ∧ t.opcount * t.targetOpsTickNs < 2 ^ 63 := by decide +kernel
  have hnever := (h unlimited (fun t ht => ⟨0, 1000000, List.mem_singleton.mp ht⟩) hlimits _ _ hrun).last hrun
  have hintended := (hnever ⟨0, 1000000, 1, -2 ^ 31, 2 ^ 31, 0, -2 ^ 31, .testing⟩ (List.mem_singleton_self _) (by norm_num)).2 (by norm_num) (.inl rfl)
  exact absurd hintended (by decide)

end YcsbIvs.Client.Lifecycle
