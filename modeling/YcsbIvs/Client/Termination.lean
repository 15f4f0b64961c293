import YcsbIvs.Client.Process
import Mathlib.Data.List.Chain

/-!
# How a run ends

Whatever the order of the steps of all threads:

- `main` exports when all client threads have ended, and the number that it exports is the sum of what they have done (`exported_all`). If there is a status, its last
  line has that number too, and its lines follow each other: each begins where and with what the one before has ended.
- When the stop has been requested no thread begins an operation, and it finishes one at most, the one it is in (`stopped_operations`).
- With `status.interval` zero the thread with the status never waits, and so never sees that all is done; `main` waits for it and exports nothing
  (`never_exports`).
-/

namespace YcsbIvs.Client.Lifecycle

open YcsbIvs.Foundations YcsbIvs.Generator

/-! ### Client threads -/

section

variable {q q' : Pool World ClientThread} {i j : ℕ} {e : Event} {t : ClientThread}

/-- The thread that moves has not ended. -/
theorem client_step (h : q.step ClientThread.run (i, e) = some q') : ∃ t w t', q.threads[i]? = some t ∧ ¬ t.Ended ∧ q' = ⟨w, q.threads.set i t'⟩ := by
  obtain ⟨t, w, t', ht, hrun, rfl⟩ := Pool.step_eq_some h
  exact ⟨t, w, t', ht, (run_eq_some hrun).2.2.2.not_ended, rfl⟩

/-- A thread that has ended stays as it is. -/
theorem ended_stays (h : q.step ClientThread.run (i, e) = some q') (ht : q.threads[j]? = some t) (hended : t.Ended) : q'.threads[j]? = some t := by
  obtain ⟨u, w, u', hu, hnot, rfl⟩ := client_step h
  have hne : i ≠ j := by
    rintro rfl
    rw [Option.some.inj (hu.symm.trans ht)] at hnot
    exact hnot hended
  rw [List.getElem?_set_ne hne]
  exact ht

/-- When all have ended no client thread moves. -/
theorem no_client_step (hall : ∀ t ∈ q.threads, t.Ended) : q.step ClientThread.run (i, e) ≠ some q' := by
  intro h
  obtain ⟨t, -, -, ht, hnot, -⟩ := client_step h
  exact hnot (hall t (List.mem_of_getElem? ht))

end

theorem hasEnded_eq_true {s : Process} {i : ℕ} (h : s.hasEnded i = true) : ∃ t, s.pool.threads[i]? = some t ∧ t.Ended := by
  rw [Process.hasEnded] at h
  split at h
  · next t ht =>
    split at h
    · next counted hphase => exact ⟨t, ht, counted, hphase⟩
    · cases h
  · cases h

/-- All threads have counted down if as many have. -/
theorem ended_of_countedDown {ts : List ClientThread} (h : countedDown ts = ts.length) : ∀ t ∈ ts, t.Ended := by
  induction ts with
  | nil => exact fun t ht => absurd ht List.not_mem_nil
  | cons t ts ih =>
    have hle := countedDown_le ts
    rw [countedDown, List.map_cons, List.sum_cons, ← countedDown, List.length_cons] at h
    push_cast at h
    have hone : t.counted = 1 := by
      rw [ClientThread.counted] at h ⊢
      split_ifs at h ⊢
      · rfl
      · omega
    have hphase : t.phase = .ended true := by
      by_contra hne
      rw [ClientThread.counted, if_neg hne] at hone
      cases hone
    exact List.forall_mem_cons.mpr ⟨⟨true, hphase⟩, ih (by omega)⟩

/-! ### What holds of all threads -/

/-- How many client threads `main` has joined. -/
def MainPhase.joined (o : Options) : MainPhase → ℕ
  | .launching | .starting _ | .terminating => 0
  | .joining n => n
  | .interrupting | .waking | .joiningStatus | .cleaning | .exporting | .exited => o.order.length

/-- `main` has joined the thread with the status, if there is one. -/
def MainPhase.AfterStatus : MainPhase → Prop
  | .cleaning | .exporting | .exited => True
  | _ => False

/-- The thread with the status is at its last line, or past it. -/
def StatusPhase.Final : StatusPhase → Prop
  | .looking final | .summing final _ _ _ => final = true
  | .ended => True
  | .absent | .beginning | .waiting => False

/-- What a client thread has done. -/
def opsdoneAt (ts : List ClientThread) (i : ℕ) : ℤ := (ts[i]?).elim 0 ClientThread.opsdone

/-- What holds of the joins and of the last line. -/
structure Sound (o : Options) (threadcount : ℤ) (n : ℕ) (s : Process) : Prop where
  /-- The latch. -/
  latched : Latched threadcount n s.pool
  /-- The threads that have been joined have ended. -/
  joined : ∀ i ∈ o.order.take (s.main.joined o), ∃ t, s.pool.threads[i]? = some t ∧ t.Ended
  /-- What they have done is added up. -/
  opsDone : s.opsDone = asInt ((o.order.take (s.main.joined o)).map (opsdoneAt s.pool.threads)).sum
  /-- The thread with the status is interrupted after that. -/
  interrupted : s.status.interrupted = true → s.main.joined o = o.order.length
  /-- Its last line is after all client threads. -/
  final : s.status.phase.Final → ∀ t ∈ s.pool.threads, t.Ended
  /-- It adds up what they have done. -/
  summing : ∀ i totalops todoops, s.status.phase = .summing true i totalops todoops →
    totalops = asLong ((s.pool.threads.take i).map ClientThread.opsdone).sum
  /-- So there is a last line, with that number. -/
  ended : s.status.phase = .ended →
    ∃ before last, s.status.reports = before ++ [last] ∧ last.totalops = asLong (s.pool.threads.map ClientThread.opsdone).sum
  /-- `main` goes on after it. -/
  afterStatus : s.main.AfterStatus → o.status = true → s.status.phase = .ended
  /-- What is exported. -/
  exported : ∀ x ∈ s.exported, s.main = .exited ∧ x = s.opsDone

variable {o : Options} {threadcount : ℤ} {n : ℕ} {s s' : Process}

/-- When all client threads have been joined, they have all ended. -/
theorem Sound.all_ended (h : Sound o threadcount n s) (horder : o.order.Perm (List.range n)) (hall : s.main.joined o = o.order.length) :
    ∀ t ∈ s.pool.threads, t.Ended := by
  intro t ht
  obtain ⟨i, hi⟩ := List.mem_iff_getElem?.mp ht
  have hlt := (List.getElem?_eq_some_iff.mp hi).1
  have hmem : i ∈ o.order := horder.mem_iff.mpr (List.mem_range.mpr (h.latched.length_eq ▸ hlt))
  obtain ⟨t', ht', hended⟩ := h.joined i (by rwa [hall, List.take_length])
  obtain rfl := Option.some.inj (hi.symm.trans ht')
  exact hended

/-- A step of a client thread. -/
theorem Sound.client (h : Sound o threadcount n s) (hn : n ≤ threadcount) {q : Pool World ClientThread} {l : ℕ × Event}
    (hs : s.pool.step ClientThread.run l = some q) : Sound o threadcount n { s with pool := q } := by
  obtain ⟨i, e⟩ := l
  have hnotfinal : ¬ s.status.phase.Final := fun hfinal => no_client_step (h.final hfinal) hs
  refine ⟨h.latched.step hn hs, fun j hj => ?_, ?_, h.interrupted, fun hfinal => absurd hfinal hnotfinal, fun k totalops todoops hphase => ?_,
    fun hended => ?_, h.afterStatus, h.exported⟩
  · obtain ⟨t, ht, hended⟩ := h.joined j hj
    exact ⟨t, ended_stays hs ht hended, hended⟩
  · refine h.opsDone.trans (congrArg asInt (congrArg List.sum (List.map_congr_left fun j hj => ?_)))
    obtain ⟨t, ht, hended⟩ := h.joined j hj
    rw [opsdoneAt, opsdoneAt, ht, ended_stays hs ht hended]
  · exact absurd (by rw [show s.status.phase = _ from hphase]; rfl) hnotfinal
  · exact absurd (by rw [show s.status.phase = _ from hended]; trivial) hnotfinal

/-- A step of `main`. -/
theorem Sound.main (h : Sound o threadcount n s) {cleanedUp : Bool} (hs : s.mainStep o cleanedUp = some s') : Sound o threadcount n s' := by
  obtain ⟨hlatched, hjoined, hops, hinterrupted, hfinal, hsumming, hended, hafter, hexported⟩ := h
  have hnone : s.main ≠ .exited → ∀ x, s.exported ≠ some x := fun hne x hx => hne (hexported x hx).1
  cases hmain : s.main with
  | launching =>
    rw [hmain] at hjoined hops hinterrupted
    simp only [Process.mainStep, hmain, Option.some.injEq] at hs
    subst hs
    cases o.status with
    | true =>
      exact ⟨hlatched, hjoined, hops, hinterrupted, fun hc => hc.elim, fun _ _ _ hc => by simp at hc, fun hc => by simp at hc,
        fun hc => hc.elim, fun x hx => absurd hx (hnone (by simp [hmain]) x)⟩
    | false =>
      exact ⟨hlatched, hjoined, hops, hinterrupted, hfinal, hsumming, hended, fun hc => hc.elim, fun x hx => absurd hx (hnone (by simp [hmain]) x)⟩
  | starting k =>
    rw [hmain] at hjoined hops hinterrupted
    simp only [Process.mainStep, hmain] at hs
    cases hk : o.order[k]? with
    | some i =>
      simp only [hk, Option.some.injEq] at hs
      subst hs
      exact ⟨hlatched, hjoined, hops, hinterrupted, hfinal, hsumming, hended, fun hc => hc.elim, fun x hx => absurd hx (hnone (by simp [hmain]) x)⟩
    | none =>
      simp only [hk, Option.some.injEq] at hs
      subst hs
      exact ⟨hlatched, hjoined, hops, hinterrupted, hfinal, hsumming, hended, fun hc => hc.elim, fun x hx => absurd hx (hnone (by simp [hmain]) x)⟩
  | terminating =>
    rw [hmain] at hjoined hops hinterrupted
    simp only [Process.mainStep, hmain, Option.some.injEq] at hs
    subst hs
    exact ⟨hlatched, hjoined, hops, hinterrupted, hfinal, hsumming, hended, fun hc => hc.elim, fun x hx => absurd hx (hnone (by simp [hmain]) x)⟩
  | joining k =>
    rw [hmain] at hjoined hops hinterrupted
    simp only [Process.mainStep, hmain] at hs
    cases hk : o.order[k]? with
    | some i =>
      simp only [hk] at hs
      split_ifs at hs with hi
      obtain ⟨t, ht, rfl⟩ := Option.map_eq_some_iff.mp hs
      obtain ⟨t', ht', hended'⟩ := hasEnded_eq_true hi
      have htake : o.order.take (k + 1) = o.order.take k ++ [i] := by rw [List.take_add_one, hk]; rfl
      refine ⟨hlatched, fun j hj => ?_, ?_, fun hc => ?_, hfinal, hsumming, hended, fun hc => hc.elim, fun x hx => absurd hx (hnone (by simp [hmain]) x)⟩
      · rw [MainPhase.joined, htake, List.mem_append] at hj
        rcases hj with hj | hj
        · exact hjoined j hj
        · rw [List.mem_singleton.mp hj]
          exact ⟨t', ht', hended'⟩
      · show asInt (s.opsDone + t.opsdone) = _
        rw [hops, MainPhase.joined, MainPhase.joined, htake, List.map_append, List.sum_append, asInt_asInt_add, List.map_singleton, List.sum_singleton,
          opsdoneAt, ht]
        rfl
      · have hlt := (List.getElem?_eq_some_iff.mp hk).1
        have heq : k = o.order.length := hinterrupted hc
        omega
    | none =>
      simp only [hk, Option.some.injEq] at hs
      subst hs
      have htake : o.order.take k = o.order.take o.order.length := by
        rw [List.take_length, List.take_of_length_le (List.getElem?_eq_none_iff.mp hk)]
      rw [MainPhase.joined, htake] at hjoined hops
      exact ⟨hlatched, hjoined, hops, fun _ => rfl, hfinal, hsumming, hended, fun hc => hc.elim, fun x hx => absurd hx (hnone (by simp [hmain]) x)⟩
  | interrupting =>
    rw [hmain] at hjoined hops hinterrupted
    simp only [Process.mainStep, hmain, Option.some.injEq] at hs
    subst hs
    exact ⟨hlatched, hjoined, hops, hinterrupted, hfinal, hsumming, hended, fun hc => hc.elim, fun x hx => absurd hx (hnone (by simp [hmain]) x)⟩
  | waking =>
    rw [hmain] at hjoined hops hinterrupted
    simp only [Process.mainStep, hmain] at hs
    split_ifs at hs with hstatus
    · cases hs
      exact ⟨hlatched, hjoined, hops, fun _ => rfl, hfinal, hsumming, hended, fun hc => hc.elim, fun x hx => absurd hx (hnone (by simp [hmain]) x)⟩
    · cases hs
      exact ⟨hlatched, hjoined, hops, fun _ => rfl, hfinal, hsumming, hended, fun _ hc => absurd hc hstatus,
        fun x hx => absurd hx (hnone (by simp [hmain]) x)⟩
  | joiningStatus =>
    rw [hmain] at hjoined hops hinterrupted
    simp only [Process.mainStep, hmain] at hs
    split_ifs at hs with hphase
    cases hs
    exact ⟨hlatched, hjoined, hops, fun _ => rfl, hfinal, hsumming, hended, fun _ _ => hphase, fun x hx => absurd hx (hnone (by simp [hmain]) x)⟩
  | cleaning =>
    rw [hmain] at hjoined hops hinterrupted hafter
    simp only [Process.mainStep, hmain, Option.some.injEq] at hs
    subst hs
    cases cleanedUp with
    | true =>
      exact ⟨hlatched, hjoined, hops, fun _ => rfl, hfinal, hsumming, hended, fun _ => hafter trivial, fun x hx => absurd hx (hnone (by simp [hmain]) x)⟩
    | false =>
      exact ⟨⟨hlatched.1, hlatched.2⟩, hjoined, hops, fun _ => rfl, hfinal, hsumming, hended, fun _ => hafter trivial,
        fun x hx => absurd hx (hnone (by simp [hmain]) x)⟩
  | exporting =>
    rw [hmain] at hjoined hops hinterrupted hafter
    simp only [Process.mainStep, hmain, Option.some.injEq] at hs
    subst hs
    exact ⟨⟨hlatched.1, hlatched.2⟩, hjoined, hops, fun _ => rfl, hfinal, hsumming, hended, fun _ => hafter trivial,
      fun x hx => ⟨rfl, (Option.some.inj hx).symm⟩⟩
  | exited => simp [Process.mainStep, hmain] at hs

/-- A step of the thread with the status. -/
theorem Sound.status (h : Sound o threadcount n s) (hn : n ≤ threadcount) (horder : o.order.Perm (List.range n)) {time ms : ℤ} {t : StatusThread}
    (hs : s.status.next o s.pool time ms = some t) :
    Sound o threadcount n { s with status := t, pool := { s.pool with shared := { s.pool.shared with now := time } } } := by
  obtain ⟨hlatched, hjoined, hops, hinterrupted, hfinal, hsumming, hended, hafter, hexported⟩ := h
  have hnotyet : s.status.phase ≠ .ended → s.main.AfterStatus → o.status = true → t.phase = .ended := fun hne hm ho => absurd (hafter hm ho) hne
  cases hphase : s.status.phase with
  | absent => simp [StatusThread.next, hphase] at hs
  | ended => simp [StatusThread.next, hphase] at hs
  | beginning =>
    simp only [StatusThread.next, hphase, Option.some.injEq] at hs
    subst hs
    exact ⟨⟨hlatched.1, hlatched.2⟩, hjoined, hops, hinterrupted, fun hc => by simp [StatusPhase.Final] at hc, fun _ _ _ hc => by simp at hc,
      fun hc => by simp at hc, hnotyet (by simp [hphase]), hexported⟩
  | looking final =>
    simp only [StatusThread.next, hphase, Option.some.injEq] at hs
    subst hs
    refine ⟨⟨hlatched.1, hlatched.2⟩, hjoined, hops, hinterrupted, fun hc => hfinal (by rw [hphase]; exact hc), fun i totalops todoops hc => ?_,
      fun hc => by simp at hc, hnotyet (by simp [hphase]), hexported⟩
    obtain ⟨-, rfl, rfl, -⟩ := StatusPhase.summing.inj hc
    rfl
  | summing final i totalops todoops =>
    simp only [StatusThread.next, hphase] at hs
    cases hi : s.pool.threads[i]? with
    | some client =>
      simp only [hi, Option.some.injEq] at hs
      subst hs
      refine ⟨⟨hlatched.1, hlatched.2⟩, hjoined, hops, hinterrupted, fun hc => hfinal (by rw [hphase]; exact hc), fun i' totalops' todoops' hc => ?_,
        fun hc => by simp at hc, hnotyet (by simp [hphase]), hexported⟩
      obtain ⟨rfl, rfl, rfl, -⟩ := StatusPhase.summing.inj hc
      rw [hsumming i totalops todoops hphase, List.take_add_one, hi, asLong_asLong_add, List.map_append, List.sum_append]
      simp
    | none =>
      simp only [hi, Option.some.injEq] at hs
      subst hs
      refine ⟨⟨hlatched.1, hlatched.2⟩, hjoined, hops, hinterrupted, fun hc => ?_, fun _ _ _ hc => ?_, fun hc => ?_,
        hnotyet (by simp [hphase]), hexported⟩
      · cases final with
        | true => exact hfinal (by rw [hphase]; rfl)
        | false => exact hc.elim
      · cases final <;> simp at hc
      · cases final with
        | true =>
          refine ⟨s.status.reports, _, rfl, ?_⟩
          rw [hsumming i totalops todoops hphase, List.take_of_length_le (List.getElem?_eq_none_iff.mp hi)]
        | false => simp at hc
  | waiting =>
    simp only [StatusThread.next, hphase] at hs
    split_ifs at hs with hlt hdone
    · -- all is done
      cases hs
      have hall : ∀ u ∈ s.pool.threads, u.Ended := by
        rcases hdone with hdone | hdone
        · exact Sound.all_ended ⟨hlatched, hjoined, hops, hinterrupted, hfinal, hsumming, hended, hafter, hexported⟩ horder (hinterrupted hdone)
        · have hcount := hlatched.latch
          have hlength := hlatched.length_eq
          have hle := countedDown_le s.pool.threads
          exact ended_of_countedDown (by omega)
      exact ⟨⟨hlatched.1, hlatched.2⟩, hjoined, hops, hinterrupted, fun _ => hall, fun _ _ _ hc => by simp [StatusThread.waited] at hc,
        fun hc => by simp [StatusThread.waited] at hc, hnotyet (by simp [hphase]), hexported⟩
    · -- the wait goes on
      cases hs
      exact ⟨⟨hlatched.1, hlatched.2⟩, hjoined, hops, hinterrupted, fun hc => by simp [hphase, StatusPhase.Final] at hc,
        fun _ _ _ hc => by simp [hphase] at hc, fun hc => by simp [hphase] at hc, hnotyet (by simp [hphase]), hexported⟩
    · -- the deadline has passed
      cases hs
      exact ⟨⟨hlatched.1, hlatched.2⟩, hjoined, hops, hinterrupted, fun hc => by simp [StatusThread.waited, StatusPhase.Final] at hc,
        fun _ _ _ hc => by simp [StatusThread.waited] at hc, fun hc => by simp [StatusThread.waited] at hc, hnotyet (by simp [hphase]), hexported⟩

/-- The terminator changes nothing else than what it has to do, and whether the stop is requested. -/
theorem terminatorStep_spec (hs : s.terminatorStep o = some s') :
    ∃ terminator stopRequested, s' = { s with terminator := terminator, stopRequested := stopRequested } ∧ (s.stopRequested = true → stopRequested = true) := by
  rw [Process.terminatorStep] at hs
  split at hs
  · cases hs
    exact ⟨_, _, rfl, id⟩
  · cases hs
    exact ⟨_, _, rfl, fun _ => rfl⟩
  · split at hs
    · cases hs
      split_ifs
      · exact ⟨_, _, rfl, id⟩
      · exact ⟨s.terminator, s.stopRequested, rfl, id⟩
    · cases hs
      exact ⟨_, _, rfl, id⟩
  · cases hs
  · cases hs

/-- `main` moves no client thread and does not request the stop. -/
theorem mainStep_threads {cleanedUp : Bool} (hs : s.mainStep o cleanedUp = some s') :
    s'.pool.threads = s.pool.threads ∧ s'.stopRequested = s.stopRequested := by
  cases hmain : s.main with
  | launching | terminating | interrupting | exporting =>
    simp only [Process.mainStep, hmain, Option.some.injEq] at hs
    subst hs
    exact ⟨rfl, rfl⟩
  | starting k =>
    simp only [Process.mainStep, hmain] at hs
    split at hs <;> cases hs <;> exact ⟨rfl, rfl⟩
  | joining k =>
    simp only [Process.mainStep, hmain] at hs
    split at hs
    · split_ifs at hs
      obtain ⟨t, -, rfl⟩ := Option.map_eq_some_iff.mp hs
      exact ⟨rfl, rfl⟩
    · cases hs
      exact ⟨rfl, rfl⟩
  | waking | joiningStatus =>
    simp only [Process.mainStep, hmain] at hs
    split_ifs at hs <;> cases hs <;> exact ⟨rfl, rfl⟩
  | cleaning =>
    simp only [Process.mainStep, hmain, Option.some.injEq] at hs
    subst hs
    cases cleanedUp <;> exact ⟨rfl, rfl⟩
  | exited => simp [Process.mainStep, hmain] at hs

/-- A step of any thread. -/
theorem Sound.step (h : Sound o threadcount n s) (hn : n ≤ threadcount) (horder : o.order.Perm (List.range n)) {l : Label} (hs : s.step o l = some s') :
    Sound o threadcount n s' := by
  cases l with
  | client i e =>
    simp only [Process.step] at hs
    split_ifs at hs
    obtain ⟨q, hq, rfl⟩ := Option.map_eq_some_iff.mp hs
    exact h.client hn hq
  | main cleanedUp =>
    simp only [Process.step] at hs
    split_ifs at hs
    exact h.main hs
  | terminator =>
    simp only [Process.step] at hs
    split_ifs at hs
    obtain ⟨terminator, stopRequested, rfl, -⟩ := terminatorStep_spec hs
    exact ⟨h.latched, h.joined, h.opsDone, h.interrupted, h.final, h.summing, h.ended, h.afterStatus, h.exported⟩
  | status time ms =>
    simp only [Process.step] at hs
    split_ifs at hs
    obtain ⟨t, ht, rfl⟩ := Option.map_eq_some_iff.mp hs
    exact h.status hn horder ht

theorem sound_initial {q : Pool World ClientThread} (h : Latched threadcount n q) : Sound o threadcount n (.initial q) :=
  ⟨h, fun _ hi => absurd hi List.not_mem_nil, rfl, fun hc => (nomatch hc), fun hc => hc.elim, fun _ _ _ hc => (nomatch hc), fun hc => (nomatch hc),
    fun hc => hc.elim, fun _ hx => (nomatch hx)⟩

/-! ### The lines of the status -/

/-- A line goes on where the one before has ended. -/
def Report.Follows (r r' : Report) : Prop := r'.startIntervalMs = r.endIntervalMs ∧ r'.lastTotalOps = r.totalops

/-- Lines that follow each other from the beginning of the run on. -/
structure Continuous (startTimeMs : ℤ) (reports : List Report) : Prop where
  /-- The first. -/
  first : ∀ r ∈ reports.head?, r.startIntervalMs = startTimeMs ∧ r.lastTotalOps = 0
  /-- The others. -/
  chain : reports.IsChain Report.Follows

/-- What the next line will begin with. -/
def StatusThread.Links (t : StatusThread) : StatusPhase → Prop
  | .absent | .beginning => t.reports = []
  | .looking _ | .summing _ _ _ _ =>
    (t.reports = [] → t.startIntervalMs = t.startTimeMs ∧ t.lastTotalOps = 0) ∧
      ∀ r ∈ t.reports.getLast?, t.startIntervalMs = r.endIntervalMs ∧ t.lastTotalOps = r.totalops
  | .waiting => t.reports ≠ [] ∧ ∀ r ∈ t.reports.getLast?, t.nowMs = r.endIntervalMs ∧ t.lastTotalOps = r.totalops
  | .ended => True

/-- The lines so far follow each other, and the next one will. -/
structure StatusThread.Shows (t : StatusThread) : Prop where
  /-- So far. -/
  continuous : Continuous t.startTimeMs t.reports
  /-- The next one. -/
  links : t.Links t.phase

theorem Continuous.append {startTimeMs : ℤ} {reports : List Report} (h : Continuous startTimeMs reports) {r : Report}
    (hfirst : reports = [] → r.startIntervalMs = startTimeMs ∧ r.lastTotalOps = 0) (hnext : ∀ before ∈ reports.getLast?, before.Follows r) :
    Continuous startTimeMs (reports ++ [r]) := by
  refine ⟨fun r' hr' => ?_, List.isChain_append.mpr ⟨h.chain, List.isChain_singleton r, fun before hbefore r' hr' => ?_⟩⟩
  · cases reports with
    | nil => exact Option.some.inj hr' ▸ hfirst rfl
    | cons a reports => exact h.first r' hr'
  · exact Option.some.inj hr' ▸ hnext before hbefore

/-- A step keeps that. -/
theorem StatusThread.Shows.next {q : Pool World ClientThread} {t t' : StatusThread} (h : t.Shows) {time ms : ℤ} (hs : t.next o q time ms = some t') : t'.Shows := by
  obtain ⟨hcont, hlinks⟩ := h
  cases hphase : t.phase with
  | absent => simp [StatusThread.next, hphase] at hs
  | ended => simp [StatusThread.next, hphase] at hs
  | beginning =>
    rw [hphase] at hlinks
    have hnil : t.reports = [] := hlinks
    simp only [StatusThread.next, hphase, Option.some.injEq] at hs
    subst hs
    refine ⟨⟨fun r hr => ?_, hcont.chain⟩, fun _ => ⟨rfl, rfl⟩, fun r hr => ?_⟩
    · dsimp only at hr
      rw [hnil] at hr
      cases hr
    · dsimp only at hr
      rw [hnil] at hr
      cases hr
  | looking final =>
    rw [hphase] at hlinks
    simp only [StatusThread.next, hphase, Option.some.injEq] at hs
    subst hs
    exact ⟨hcont, hlinks⟩
  | summing final i totalops todoops =>
    rw [hphase] at hlinks
    obtain ⟨hfirst, hnext⟩ := hlinks
    simp only [StatusThread.next, hphase] at hs
    split at hs
    · cases hs
      exact ⟨hcont, hfirst, hnext⟩
    · cases hs
      refine ⟨hcont.append hfirst fun before hbefore => hnext before hbefore, ?_⟩
      cases final with
      | true => trivial
      | false =>
        refine ⟨List.append_ne_nil_of_right_ne_nil _ (List.cons_ne_nil _ _), fun r hr => ?_⟩
        rw [if_neg Bool.false_ne_true] at *
        dsimp only at hr
        rw [List.getLast?_concat] at hr
        cases hr
        exact ⟨rfl, rfl⟩
  | waiting =>
    rw [hphase] at hlinks
    obtain ⟨hne, hlast⟩ := hlinks
    have hwaited : ∀ alldone, (t.waited o alldone).Shows := fun alldone =>
      ⟨hcont, fun hnil => absurd hnil hne, fun r hr => hlast r hr⟩
    simp only [StatusThread.next, hphase] at hs
    split_ifs at hs
    · cases hs
      exact hwaited true
    · cases hs
      exact ⟨hcont, by rw [hphase]; exact ⟨hne, hlast⟩⟩
    · cases hs
      exact hwaited false

/-- The lines of a process follow each other; there are none before its status has been started. -/
structure Showing (s : Process) : Prop where
  /-- The lines. -/
  shows : s.status.Shows
  /-- Before the start. -/
  absent : s.main = .launching → s.status.phase = .absent

/-- A step of any thread keeps it. -/
theorem Showing.step (h : Showing s) {l : Label} (hs : s.step o l = some s') : Showing s' := by
  obtain ⟨hshows, habsent⟩ := h
  cases l with
  | client i e =>
    simp only [Process.step] at hs
    split_ifs at hs
    obtain ⟨q, -, rfl⟩ := Option.map_eq_some_iff.mp hs
    exact ⟨hshows, habsent⟩
  | main cleanedUp =>
    simp only [Process.step] at hs
    split_ifs at hs
    cases hmain : s.main with
    | launching =>
      simp only [Process.mainStep, hmain, Option.some.injEq] at hs
      subst hs
      have hlinks := hshows.links
      rw [habsent hmain] at hlinks
      cases o.status with
      | true => exact ⟨⟨hshows.continuous, hlinks⟩, fun hc => (nomatch hc)⟩
      | false => exact ⟨hshows, fun hc => (nomatch hc)⟩
    | starting k =>
      simp only [Process.mainStep, hmain] at hs
      split at hs <;> cases hs <;> exact ⟨hshows, fun hc => (nomatch hc)⟩
    | joining k =>
      simp only [Process.mainStep, hmain] at hs
      split at hs
      · split_ifs at hs
        obtain ⟨t, -, rfl⟩ := Option.map_eq_some_iff.mp hs
        exact ⟨hshows, fun hc => (nomatch hc)⟩
      · cases hs
        exact ⟨hshows, fun hc => (nomatch hc)⟩
    | waking =>
      simp only [Process.mainStep, hmain] at hs
      split_ifs at hs <;> cases hs
      · exact ⟨⟨hshows.continuous, hshows.links⟩, fun hc => (nomatch hc)⟩
      · exact ⟨hshows, fun hc => (nomatch hc)⟩
    | joiningStatus =>
      simp only [Process.mainStep, hmain] at hs
      split_ifs at hs
      cases hs
      exact ⟨hshows, fun hc => (nomatch hc)⟩
    | terminating | interrupting | exporting =>
      simp only [Process.mainStep, hmain, Option.some.injEq] at hs
      subst hs
      exact ⟨hshows, fun hc => (nomatch hc)⟩
    | cleaning =>
      simp only [Process.mainStep, hmain, Option.some.injEq] at hs
      subst hs
      cases cleanedUp <;> exact ⟨hshows, fun hc => (nomatch hc)⟩
    | exited => simp [Process.mainStep, hmain] at hs
  | terminator =>
    simp only [Process.step] at hs
    split_ifs at hs
    obtain ⟨terminator, stopRequested, rfl, -⟩ := terminatorStep_spec hs
    exact ⟨hshows, habsent⟩
  | status time ms =>
    simp only [Process.step] at hs
    split_ifs at hs
    obtain ⟨t, ht, rfl⟩ := Option.map_eq_some_iff.mp hs
    refine ⟨hshows.next ht, fun hc => ?_⟩
    simp [StatusThread.next, habsent hc] at ht

theorem showing_initial (q : Pool World ClientThread) : Showing (.initial q) :=
  ⟨⟨⟨fun _ hr => (nomatch hr), .nil⟩, rfl⟩, fun _ => rfl⟩

/-- What lines count from one to the next adds up. -/
theorem sum_of_chain {r : Report} {rest : List Report} (h : (r :: rest).IsChain Report.Follows) :
    ((r :: rest).map fun r => r.totalops - r.lastTotalOps).sum = ((r :: rest).getLast (List.cons_ne_nil r rest)).totalops - r.lastTotalOps := by
  induction rest generalizing r with
  | nil => simp
  | cons r' rest ih =>
    obtain ⟨⟨-, hlast⟩, hrest⟩ := List.isChain_cons_cons.mp h
    have hsum := ih hrest
    rw [List.map_cons, List.sum_cons, hsum, List.getLast_cons (List.cons_ne_nil r' rest), hlast]
    omega

/-! ### The end of a run -/

/-- The threads in the order of their indices. -/
theorem map_opsdoneAt (ts : List ClientThread) : (List.range ts.length).map (opsdoneAt ts) = ts.map ClientThread.opsdone := by
  refine List.ext_getElem (by simp) fun i hi hi' => ?_
  have hlt : i < ts.length := by simpa using hi
  simp [opsdoneAt, List.getElem?_eq_getElem hlt]

/-- The joins and the last line in a run from the beginning. -/
theorem sound_run {p : OperationCounts} {threadcount : ℤ} (hthreads : 0 ≤ threadcount) {target : ℤ} {spinSleep : Bool} {now : ℤ}
    (horder : o.order.Perm (List.range (starting p target threadcount spinSleep now).threads.length)) {ls : List Label}
    (hrun : exec (Process.step o) (.initial (starting p target threadcount spinSleep now)) ls = some s) :
    Sound o threadcount (reducedThreadcount p.opcount.1 threadcount).toNat s ∧ o.order.Perm (List.range s.pool.threads.length) := by
  have hlatched : Latched threadcount (reducedThreadcount p.opcount.1 threadcount).toNat (starting p target threadcount spinSleep now) :=
    latched_starting target spinSleep now
  have hle : (reducedThreadcount p.opcount.1 threadcount).toNat ≤ threadcount := by
    rw [reducedThreadcount]
    split_ifs <;> omega
  rw [hlatched.length_eq] at horder
  have hsound := exec_invariant (I := Sound o threadcount (reducedThreadcount p.opcount.1 threadcount).toNat)
    (fun _ _ _ h hs => h.step hle horder hs) (sound_initial hlatched) hrun
  exact ⟨hsound, hsound.latched.length_eq.symm ▸ horder⟩

/-- What `main` exports. -/
theorem Sound.exported_eq (h : Sound o threadcount n s) (horder : o.order.Perm (List.range s.pool.threads.length)) {x : ℤ} (hx : s.exported = some x) :
    (∀ t ∈ s.pool.threads, t.Ended) ∧ x = asInt (s.pool.threads.map ClientThread.opsdone).sum := by
  obtain ⟨hexited, rfl⟩ := h.exported x hx
  have hjoined : s.main.joined o = o.order.length := by rw [hexited]; rfl
  refine ⟨h.all_ended (h.latched.length_eq ▸ horder) hjoined, ?_⟩
  rw [h.opsDone, hjoined, List.take_length, (horder.map _).sum_eq, map_opsdoneAt]

/-- The options of a client with a status. -/
def shown : Options := ⟨0, true, 10, [0]⟩

/-- A thread does one operation; a line of the status is shown, then the last. -/
def throughShown : List Label :=
  [.main true, .status 0 100, .main true, .main true, .main true] ++ throughOne.map (fun l => .client l.1 l.2) ++
    [.status 7 101, .status 7 101, .status 7 101, .main true, .main true, .main true, .main true, .status 8 102, .status 8 102, .status 8 102, .status 9 103,
      .main true, .main true, .main true]

/-- Where that ends. -/
def afterShown : Process :=
  ⟨⟨⟨0, false, 9, true⟩, [⟨1, 0, 0, 1, 1, 0, 0, .ended true⟩]⟩, [0], false, .exited, 1, some 1, .absent, false,
    ⟨.ended, true, 100, 20000000000, 101, 102, 1, [⟨100, 101, 0, 1, 0⟩, ⟨101, 102, 1, 1, 0⟩]⟩⟩

theorem exec_throughShown : exec (Process.step shown) (.initial (starting oneOperation 0 1 false 0)) throughShown = some afterShown := by
  decide +kernel

/-- **When `main` exports, all client threads have ended**, and the number is the sum of what they have done; the last line of the status has it too, and what
the lines count from one to the next adds up to it. -/
theorem exported_all {p : OperationCounts} {threadcount : ℤ} (hthreads : 0 ≤ threadcount) {target : ℤ} {spinSleep : Bool} {now : ℤ}
    (horder : o.order.Perm (List.range (starting p target threadcount spinSleep now).threads.length)) {ls : List Label}
    (hrun : exec (Process.step o) (.initial (starting p target threadcount spinSleep now)) ls = some s) {x : ℤ} (hx : s.exported = some x) :
    (∀ t ∈ s.pool.threads, t.Ended) ∧ x = asInt (s.pool.threads.map ClientThread.opsdone).sum ∧
      (o.status = true → ∃ before last, s.status.reports = before ++ [last] ∧ last.totalops = asLong (s.pool.threads.map ClientThread.opsdone).sum ∧
        Continuous s.status.startTimeMs (before ++ [last]) ∧ ((before ++ [last]).map fun r => r.totalops - r.lastTotalOps).sum = last.totalops) := by
  obtain ⟨hsound, horder⟩ := sound_run hthreads horder hrun
  obtain ⟨hall, hsum⟩ := hsound.exported_eq horder hx
  have hshowing := exec_invariant (I := Showing) (fun _ _ _ h hs => h.step hs) (showing_initial _) hrun
  have hexited := (hsound.exported x hx).1
  refine ⟨hall, hsum, fun hstatus => ?_⟩
  obtain ⟨before, last, hreports, hlast⟩ := hsound.ended (hsound.afterStatus (by rw [hexited]; trivial) hstatus)
  have hcont := hshowing.shows.continuous
  rw [hreports] at hcont
  refine ⟨before, last, hreports, hlast, hcont, ?_⟩
  cases before with
  | nil =>
    have hzero := (hcont.first last rfl).2
    simp [hzero]
  | cons r rest =>
    have hadds : ((r :: (rest ++ [last])).map fun r => r.totalops - r.lastTotalOps).sum = _ := sum_of_chain hcont.chain
    have hzero := (hcont.first r rfl).2
    rw [List.cons_append, hadds, hzero, sub_zero]
    simp

theorem exported_all_one : ∃ before last, afterShown.status.reports = before ++ [last] ∧ last.totalops = 1 :=
  let ⟨before, last, hreports, hlast, _⟩ := (exported_all (by decide) (by decide) exec_throughShown rfl).2.2 rfl
  ⟨before, last, hreports, hlast⟩

/-! ### Operations -/

/-- Nothing in the step fails, and it does not see the stop. -/
def Process.Undisturbed (s : Process) : Label → Prop
  | .client i e => GoesOn s.pool (i, e) ∧ e.act ≠ .test true ∧ e.act ≠ .operate .fails
  | _ => True

/-- A thread that has operations to do, and does no more of them. -/
structure ClientThread.InBudget (t : ClientThread) : Prop where
  /-- There are some. -/
  pos : 1 ≤ t.opcount
  /-- `opcount` is an `int`. -/
  lt : t.opcount < 2 ^ 31
  /-- What it has done. -/
  nonneg : 0 ≤ t.opsdone
  /-- What it has done. -/
  le : t.opsdone ≤ t.opcount
  /-- It is in an operation that is left. -/
  operating : ∀ begun, t.phase = .operating begun → t.opsdone < t.opcount

/-- After the loop a thread has done all of its operations. -/
def ClientThread.AllDone (t : ClientThread) : Prop := t.phase = .cleaning ∨ t.Ended → t.opsdone = t.opcount

theorem Moves.inBudget {w w' : World} {t t' : ClientThread} {time : ℤ} {act : Act} (h : Moves w t time act w' t') (ht : t.InBudget) :
    t'.InBudget ∧ t'.opcount = t.opcount := by
  obtain ⟨hpos, hlt, hnonneg, hle, hoperating⟩ := ht
  cases h with
  | init hphase =>
    rw [ClientThread.initialized]
    split_ifs <;> exact ⟨⟨hpos, hlt, hnonneg, hle, fun _ hc => by cases hc⟩, rfl⟩
  | initThread hphase =>
    rw [ClientThread.prepared]
    split_ifs <;> exact ⟨⟨hpos, hlt, hnonneg, hle, fun _ hc => by cases hc⟩, rfl⟩
  | delay hphase =>
    rw [ClientThread.delayed]
    split_ifs
    · split <;> exact ⟨⟨hpos, hlt, hnonneg, hle, fun _ hc => by cases hc⟩, rfl⟩
    · exact ⟨⟨hpos, hlt, hnonneg, hle, fun _ hc => by cases hc⟩, rfl⟩
  | wake hphase =>
    rw [ClientThread.slept]
    split_ifs
    · exact ⟨⟨hpos, hlt, hnonneg, hle, hoperating⟩, rfl⟩
    · exact ⟨⟨hpos, hlt, hnonneg, hle, fun _ hc => by cases hc⟩, rfl⟩
    · rw [ClientThread.awoken]
      split_ifs <;> exact ⟨⟨hpos, hlt, hnonneg, hle, fun _ hc => by cases hc⟩, rfl⟩
  | park hphase => exact ⟨⟨hpos, hlt, hnonneg, hle, fun _ hc => by cases hc⟩, rfl⟩
  | start hphase => exact ⟨⟨hpos, hlt, hnonneg, hle, fun _ hc => by cases hc⟩, rfl⟩
  | test hphase =>
    rw [ClientThread.tested]
    split_ifs with hgoes
    · exact ⟨⟨hpos, hlt, hnonneg, hle, fun _ _ => hgoes.1.resolve_left (by omega)⟩, rfl⟩
    · exact ⟨⟨hpos, hlt, hnonneg, hle, fun _ hc => by cases hc⟩, rfl⟩
  | @operate outcome begun hphase =>
    have hleft := hoperating begun hphase
    have hnext : asInt (t.opsdone + 1) = t.opsdone + 1 := by
      rw [asInt]
      omega
    cases outcome with
    | succeeds =>
      rw [ClientThread.operated, ClientThread.throttleNanos, hnext]
      split_ifs <;> exact ⟨⟨hpos, hlt, Int.add_nonneg hnonneg Int.one_nonneg, hleft, fun _ hc => by cases hc⟩, rfl⟩
    | fails => exact ⟨⟨hpos, hlt, hnonneg, hle, fun _ hc => by cases hc⟩, rfl⟩
    | exception => exact ⟨⟨hpos, hlt, hnonneg, hle, fun _ hc => by cases hc⟩, rfl⟩
    | error => exact ⟨⟨hpos, hlt, hnonneg, hle, fun _ hc => by cases hc⟩, rfl⟩
  | cleanup hphase => exact ⟨⟨hpos, hlt, hnonneg, hle, fun _ hc => by cases hc⟩, rfl⟩

/-- A thread leaves the loop when all is done, if nothing fails. -/
theorem Moves.allDone {w w' : World} {t t' : ClientThread} {time : ℤ} {act : Act} (h : Moves w t time act w' t') (ht : t.InBudget) (hdone : t.AllDone)
    (hgoes : t.GoesOn act) (hstop : act ≠ .test true) (hfails : act ≠ .operate .fails) : t'.AllDone := by
  have hmid : ∀ {u : ClientThread}, u.phase ≠ .cleaning → ¬ u.Ended → u.AllDone := fun hcleaning hended hc => (hc.elim hcleaning hended).elim
  cases h with
  | @init outcome hphase =>
    obtain rfl : outcome = .returns := hgoes
    exact hmid (by simp [ClientThread.initialized]) (by simp [ClientThread.Ended, ClientThread.initialized])
  | @initThread outcome hphase =>
    obtain rfl : outcome = .returns := hgoes
    exact hmid (by simp [ClientThread.prepared]) (by simp [ClientThread.Ended, ClientThread.prepared])
  | @delay draw hphase =>
    rw [ClientThread.delayed]
    split_ifs with hslow
    · have hbound : ¬ asInt t.targetOpsTickNs ≤ 0 := not_le.mpr (hgoes hslow)
      exact hmid (by simp [nextInt, hbound]) (by simp [ClientThread.Ended, nextInt, hbound])
    · exact hmid (by simp) (by simp [ClientThread.Ended])
  | wake hphase =>
    rw [ClientThread.slept, ClientThread.awoken]
    split_ifs <;> exact hmid (by simp [hphase]) (by simp [ClientThread.Ended, hphase])
  | park hphase => exact hmid (by simp) (by simp [ClientThread.Ended])
  | start hphase => exact hmid (by simp) (by simp [ClientThread.Ended])
  | @test isStopRequested hphase =>
    obtain rfl : isStopRequested = false := by
      cases isStopRequested with
      | false => rfl
      | true => exact absurd rfl hstop
    rw [ClientThread.tested]
    split_ifs with hmore
    · exact hmid (by simp) (by simp [ClientThread.Ended])
    · intro _
      have hle := ht.le
      show t.opsdone = t.opcount
      by_contra hne
      exact hmore ⟨.inr (by omega), rfl⟩
  | @operate outcome begun hphase =>
    cases outcome with
    | succeeds =>
      rw [ClientThread.operated, ClientThread.throttleNanos]
      split_ifs <;> exact hmid (by simp) (by simp [ClientThread.Ended])
    | fails => exact absurd rfl hfails
    | exception => exact hmid (by simp [ClientThread.operated]) (by simp [ClientThread.Ended, ClientThread.operated])
    | error => exact absurd rfl hgoes
  | cleanup hphase => exact fun _ => hdone (.inl hphase)

/-- The client threads, with the operations that they have been given. -/
structure Budgeted (budgets : List ℤ) (s : Process) : Prop where
  /-- Each. -/
  inBudget : ∀ t ∈ s.pool.threads, t.InBudget
  /-- All. -/
  opcounts : s.pool.threads.map ClientThread.opcount = budgets

theorem Budgeted.step {budgets : List ℤ} (h : Budgeted budgets s) {l : Label} (hs : s.step o l = some s') : Budgeted budgets s' := by
  cases l with
  | client i e =>
    simp only [Process.step] at hs
    split_ifs at hs
    obtain ⟨q, hq, rfl⟩ := Option.map_eq_some_iff.mp hs
    obtain ⟨t, w, t', ht, hrun, rfl⟩ := Pool.step_eq_some hq
    obtain ⟨-, -, -, hmoves⟩ := run_eq_some hrun
    obtain ⟨hbudget, hsame⟩ := hmoves.inBudget (h.inBudget t (List.mem_of_getElem? ht))
    exact ⟨forall_threads_set h.inBudget hbudget i, (map_set_eq ClientThread.opcount ht hsame).trans h.opcounts⟩
  | main cleanedUp =>
    simp only [Process.step] at hs
    split_ifs at hs
    obtain ⟨hsame, -⟩ := mainStep_threads hs
    exact ⟨hsame ▸ h.inBudget, hsame ▸ h.opcounts⟩
  | terminator =>
    simp only [Process.step] at hs
    split_ifs at hs
    obtain ⟨terminator, stopRequested, rfl, -⟩ := terminatorStep_spec hs
    exact ⟨h.inBudget, h.opcounts⟩
  | status time ms =>
    simp only [Process.step] at hs
    split_ifs at hs
    obtain ⟨t, -, rfl⟩ := Option.map_eq_some_iff.mp hs
    exact ⟨h.inBudget, h.opcounts⟩

/-- Undisturbed steps leave no operation out. -/
theorem allDone_step {budgets : List ℤ} (h : Budgeted budgets s) (hdone : ∀ t ∈ s.pool.threads, t.AllDone) {l : Label} (hl : s.Undisturbed l)
    (hs : s.step o l = some s') : ∀ t ∈ s'.pool.threads, t.AllDone := by
  cases l with
  | client i e =>
    simp only [Process.step] at hs
    split_ifs at hs
    obtain ⟨q, hq, rfl⟩ := Option.map_eq_some_iff.mp hs
    obtain ⟨t, w, t', ht, hrun, rfl⟩ := Pool.step_eq_some hq
    obtain ⟨-, -, -, hmoves⟩ := run_eq_some hrun
    have hmem := List.mem_of_getElem? ht
    obtain ⟨hgoes, hstop, hfails⟩ := hl
    exact forall_threads_set hdone (hmoves.allDone (h.inBudget t hmem) (hdone t hmem) (hgoes t ht) hstop hfails) i
  | main cleanedUp =>
    simp only [Process.step] at hs
    split_ifs at hs
    obtain ⟨hsame, -⟩ := mainStep_threads hs
    rw [hsame]
    exact hdone
  | terminator =>
    simp only [Process.step] at hs
    split_ifs at hs
    obtain ⟨terminator, stopRequested, rfl, -⟩ := terminatorStep_spec hs
    exact hdone
  | status time ms =>
    simp only [Process.step] at hs
    split_ifs at hs
    obtain ⟨t, -, rfl⟩ := Option.map_eq_some_iff.mp hs
    exact hdone

theorem budgeted_starting {p : OperationCounts} {threadcount : ℤ} (hop : 0 < p.opcount.1) (hthreads : 1 ≤ threadcount) (target : ℤ) (spinSleep : Bool) (now : ℤ) :
    Budgeted (initDb p threadcount) (.initial (starting p target threadcount spinSleep now)) := by
  refine ⟨fun t ht => ?_, ?_⟩
  · obtain ⟨opcount, hopcount, rfl⟩ := List.mem_map.mp ht
    have hpos := one_le_of_mem_initDb hop hthreads hopcount
    have hle : opcount ≤ (initDb p threadcount).sum :=
      List.single_le_sum (fun b hb => by have := one_le_of_mem_initDb hop hthreads hb; omega) opcount hopcount
    rw [initDb_sum hop hthreads] at hle
    exact ⟨hpos, hle.trans_lt p.opcount.2.2, le_refl 0, (by omega : 0 ≤ opcount), fun _ hc => (nomatch hc)⟩
  · exact (List.map_map ..).trans (List.map_id _)

/-- The sum of what threads have done against the sum of what they have been given. -/
theorem sum_opsdone {ts : List ClientThread} (h : ∀ t ∈ ts, t.InBudget) :
    0 ≤ (ts.map ClientThread.opsdone).sum ∧ (ts.map ClientThread.opsdone).sum ≤ (ts.map ClientThread.opcount).sum :=
  ⟨List.sum_nonneg fun b hb => by obtain ⟨t, ht, rfl⟩ := List.mem_map.mp hb; exact (h t ht).nonneg, List.sum_le_sum fun t ht => (h t ht).le⟩

/-- **What `main` exports is never more than the operations that were asked for**, and it is all of them when no step is disturbed. -/
theorem exported_opcount {p : OperationCounts} (hop : 0 < p.opcount.1) {threadcount : ℤ} (hthreads : 1 ≤ threadcount) {target : ℤ} {spinSleep : Bool} {now : ℤ}
    (horder : o.order.Perm (List.range (starting p target threadcount spinSleep now).threads.length)) {ls : List Label}
    (hrun : exec (Process.step o) (.initial (starting p target threadcount spinSleep now)) ls = some s) {x : ℤ} (hx : s.exported = some x) :
    0 ≤ x ∧ x ≤ p.opcount.1 ∧
      (Meets (Process.step o) Process.Undisturbed (.initial (starting p target threadcount spinSleep now)) ls → x = p.opcount.1) := by
  obtain ⟨hsound, horder⟩ := sound_run (by omega) horder hrun
  obtain ⟨hall, hsum⟩ := hsound.exported_eq horder hx
  have hbudgeted := exec_invariant (I := Budgeted (initDb p threadcount)) (fun _ _ _ h hs => h.step hs)
    (budgeted_starting hop hthreads target spinSleep now) hrun
  obtain ⟨hnonneg, hle⟩ := sum_opsdone hbudgeted.inBudget
  rw [hbudgeted.opcounts, initDb_sum hop hthreads] at hle
  have hlt := p.opcount.2.2
  rw [asInt_of_fits ⟨by omega, by omega⟩] at hsum
  refine ⟨hsum ▸ hnonneg, hsum ▸ hle, fun hmeets => ?_⟩
  have hinit : ∀ t ∈ (starting p target threadcount spinSleep now).threads, t.AllDone := by
    intro t ht hend
    obtain ⟨opcount, -, rfl⟩ := List.mem_map.mp ht
    simp [ClientThread.new, ClientThread.Ended] at hend
  have hdone := (exec_invariant_of (I := fun s => Budgeted (initDb p threadcount) s ∧ ∀ t ∈ s.pool.threads, t.AllDone)
    (fun _ _ _ h hl hs => ⟨h.1.step hs, allDone_step h.1 h.2 hl hs⟩) ⟨budgeted_starting hop hthreads target spinSleep now, hinit⟩ hmeets hrun).2
  rw [hsum, List.map_congr_left fun t ht => hdone t ht (.inr (hall t ht)), hbudgeted.opcounts, initDb_sum hop hthreads]

theorem exported_opcount_one : (1 : ℤ) ≤ oneOperation.opcount.1 :=
  (exported_opcount (by decide) (by decide) (by decide) exec_throughShown rfl).2.1

/-! ### Stops -/

/-- The operation that a thread is in. -/
def ClientThread.underway (t : ClientThread) : ℕ :=
  match t.phase with
  | .operating _ => 1
  | _ => 0

/-- A thread that sees the stop does not begin an operation. -/
theorem Moves.stopped {w w' : World} {t t' : ClientThread} {time : ℤ} {act : Act} (h : Moves w t time act w' t') (hstop : ∀ b, act = .test b → b = true) :
    t.operations ≤ t'.operations ∧ t'.operations + t'.underway ≤ t.operations + t.underway := by
  have hkeeps : t.operations ≤ t.operations ∧ t.operations ≤ t.operations + t.underway := ⟨Nat.le_refl _, Nat.le_add_right _ _⟩
  cases h with
  | init hphase =>
    rw [ClientThread.initialized]
    split_ifs <;> exact hkeeps
  | initThread hphase =>
    rw [ClientThread.prepared]
    split_ifs <;> exact hkeeps
  | delay hphase =>
    rw [ClientThread.delayed]
    split_ifs
    · split <;> exact hkeeps
    · exact hkeeps
  | wake hphase =>
    rw [ClientThread.slept]
    split_ifs
    · exact ⟨Nat.le_refl _, Nat.le_refl _⟩
    · exact hkeeps
    · rw [ClientThread.awoken]
      split_ifs <;> exact hkeeps
  | park hphase => exact hkeeps
  | start hphase => exact hkeeps
  | test hphase =>
    -- the stop has been requested
    rw [hstop _ rfl, ClientThread.tested, if_neg fun hc => Bool.noConfusion hc.2]
    exact hkeeps
  | @operate outcome begun hphase =>
    have hone : t.underway = 1 := by rw [ClientThread.underway, hphase]
    cases outcome with
    | succeeds =>
      rw [ClientThread.operated, ClientThread.throttleNanos, hone]
      split_ifs <;> exact ⟨Nat.le_succ _, Nat.le_refl _⟩
    | fails => exact hkeeps
    | exception => exact hkeeps
    | error => exact hkeeps
  | cleanup hphase => exact hkeeps

/-- What the client threads have done and are in, once the stop has been requested. -/
structure Stopping (ts : List ClientThread) (s : Process) : Prop where
  /-- It has been. -/
  requested : s.stopRequested = true
  /-- Each thread. -/
  threads : ∀ (i : ℕ) (t : ClientThread), s.pool.threads[i]? = some t →
    ∃ t₀ : ClientThread, ts[i]? = some t₀ ∧ t₀.operations ≤ t.operations ∧ t.operations + t.underway ≤ t₀.operations + t₀.underway

theorem Stopping.step {ts : List ClientThread} (h : Stopping ts s) {l : Label} (hs : s.step o l = some s') : Stopping ts s' := by
  obtain ⟨hrequested, hthreads⟩ := h
  cases l with
  | client i e =>
    simp only [Process.step] at hs
    split_ifs at hs with _ hclient
    obtain ⟨q, hq, rfl⟩ := Option.map_eq_some_iff.mp hs
    refine ⟨hrequested, fun j t ht => ?_⟩
    obtain ⟨u, w, u', hu, hrun, rfl⟩ := Pool.step_eq_some hq
    obtain ⟨-, -, -, hmoves⟩ := run_eq_some hrun
    obtain ⟨hmono, hle⟩ := hmoves.stopped fun b hb => (hclient.2 b hb).trans hrequested
    by_cases hij : i = j
    · subst hij
      obtain rfl : u' = t := by
        rw [List.getElem?_set_self (List.getElem?_eq_some_iff.mp hu).1] at ht
        exact Option.some.inj ht
      obtain ⟨t₀, ht₀, hmono₀, hle₀⟩ := hthreads i u hu
      exact ⟨t₀, ht₀, hmono₀.trans hmono, hle.trans hle₀⟩
    · rw [List.getElem?_set_ne hij] at ht
      exact hthreads j t ht
  | main cleanedUp =>
    simp only [Process.step] at hs
    split_ifs at hs
    obtain ⟨hsame, hrequested'⟩ := mainStep_threads hs
    refine ⟨hrequested'.trans hrequested, ?_⟩
    rw [hsame]
    exact hthreads
  | terminator =>
    simp only [Process.step] at hs
    split_ifs at hs
    obtain ⟨terminator, stopRequested, rfl, hkeeps⟩ := terminatorStep_spec hs
    exact ⟨hkeeps hrequested, hthreads⟩
  | status time ms =>
    simp only [Process.step] at hs
    split_ifs at hs
    obtain ⟨t, -, rfl⟩ := Option.map_eq_some_iff.mp hs
    exact ⟨hrequested, hthreads⟩

/-- **After the stop has been requested** no thread begins an operation: each finishes at most the one it is in. -/
theorem stopped_operations (hstop : s.stopRequested = true) {ls : List Label} (hrun : exec (Process.step o) s ls = some s') {i : ℕ} {t : ClientThread}
    (ht : s'.pool.threads[i]? = some t) :
    ∃ t₀, s.pool.threads[i]? = some t₀ ∧ t₀.operations ≤ t.operations ∧ t.operations + t.underway ≤ t₀.operations + t₀.underway := by
  have hinit : Stopping s.pool.threads s := ⟨hstop, fun _ t ht => ⟨t, ht, Nat.le_refl _, Nat.le_refl _⟩⟩
  exact (exec_invariant (I := Stopping s.pool.threads) (fun _ _ _ h hs => h.step hs) hinit hrun).threads i t ht

/-- A thread in its first operation of two, and a stop that has been requested. -/
def stopping (phase : Phase) (operations : ℕ) (now : ℤ) : Process :=
  ⟨⟨⟨1, false, now, false⟩, [⟨2, 0, 0, operations, operations, 0, 0, phase⟩]⟩, [0], true, .joining 0, 0, none, .joining 0, false, ⟨.absent, false, 0, 0, 0, 0, 0, []⟩⟩

theorem stopped_operations_one : ∃ t₀ : ClientThread, t₀.operations ≤ 1 ∧ 1 ≤ t₀.operations + t₀.underway :=
  have hrun : exec (Process.step ⟨1, false, 10, [0]⟩) (stopping (.operating 0) 0 0) [.client 0 ⟨5, .operate .succeeds⟩, .client 0 ⟨5, .test true⟩] =
      some (stopping .cleaning 1 5) := by decide +kernel
  let ⟨t₀, _, hmono, hle⟩ := stopped_operations (i := 0) rfl hrun rfl
  ⟨t₀, hmono, hle⟩

/-! ### No interval -/

/-- The thread with the status never gets to its last line, and `main` waits for it. -/
structure Waiting (s : Process) : Prop where
  /-- It is not there. -/
  notFinal : ¬ s.status.phase.Final
  /-- Nor is `main` past it. -/
  main : ¬ s.main.AfterStatus
  /-- Nothing is exported. -/
  exported : s.exported = none
  /-- Its deadline has passed. -/
  deadline : FitsLong s.status.deadline ∧ (s.status.phase = .absent ∨ s.status.phase = .beginning ∨ s.status.deadline ≤ s.pool.shared.now)

theorem Waiting.step (hstatus : o.status = true) (hzero : o.statusIntervalSeconds = 0) (h : Waiting s) {l : Label} (hs : s.step o l = some s') :
    Waiting s' := by
  obtain ⟨hfinal, hbefore, hexported, hfits, hdeadline⟩ := h
  have hsleep : o.sleeptimeNs = 0 := by rw [Options.sleeptimeNs, hzero, mul_zero]
  cases l with
  | client i e =>
    simp only [Process.step] at hs
    split_ifs at hs
    obtain ⟨q, hq, rfl⟩ := Option.map_eq_some_iff.mp hs
    obtain ⟨t, w, t', -, hrun, rfl⟩ := Pool.step_eq_some hq
    obtain ⟨-, hnow, -, hmoves⟩ := run_eq_some hrun
    have hlater : s.pool.shared.now ≤ w.now := hmoves.now_eq.symm ▸ hnow
    exact ⟨hfinal, hbefore, hexported, hfits, hdeadline.imp_right fun h => h.imp_right fun h => h.trans hlater⟩
  | main cleanedUp =>
    simp only [Process.step] at hs
    split_ifs at hs
    cases hmain : s.main with
    | launching =>
      simp only [Process.mainStep, hmain, hstatus, if_true, Option.some.injEq] at hs
      subst hs
      exact ⟨fun hc => hc.elim, fun hc => hc.elim, hexported, hfits, .inr (.inl rfl)⟩
    | starting k =>
      simp only [Process.mainStep, hmain] at hs
      split at hs <;> cases hs <;> exact ⟨hfinal, fun hc => hc.elim, hexported, hfits, hdeadline⟩
    | joining k =>
      simp only [Process.mainStep, hmain] at hs
      split at hs
      · split_ifs at hs
        obtain ⟨t, -, rfl⟩ := Option.map_eq_some_iff.mp hs
        exact ⟨hfinal, fun hc => hc.elim, hexported, hfits, hdeadline⟩
      · cases hs
        exact ⟨hfinal, fun hc => hc.elim, hexported, hfits, hdeadline⟩
    | terminating | interrupting =>
      simp only [Process.mainStep, hmain, Option.some.injEq] at hs
      subst hs
      exact ⟨hfinal, fun hc => hc.elim, hexported, hfits, hdeadline⟩
    | waking =>
      simp only [Process.mainStep, hmain, hstatus, if_true, Option.some.injEq] at hs
      subst hs
      exact ⟨hfinal, fun hc => hc.elim, hexported, hfits, hdeadline⟩
    | joiningStatus =>
      -- the thread with the status would have to be at its end
      simp only [Process.mainStep, hmain] at hs
      split_ifs at hs with hended
      exact absurd (by rw [hended]; trivial) hfinal
    | cleaning | exporting | exited => exact absurd (by rw [hmain]; trivial) hbefore
  | terminator =>
    simp only [Process.step] at hs
    split_ifs at hs
    obtain ⟨terminator, stopRequested, rfl, -⟩ := terminatorStep_spec hs
    exact ⟨hfinal, hbefore, hexported, hfits, hdeadline⟩
  | status time ms =>
    simp only [Process.step] at hs
    split_ifs at hs with _ htime
    obtain ⟨t, ht, rfl⟩ := Option.map_eq_some_iff.mp hs
    have hpast : s.status.phase ≠ .absent → s.status.phase ≠ .beginning → s.status.deadline ≤ time := fun habsent hbeginning =>
      ((hdeadline.resolve_left habsent).resolve_left hbeginning).trans htime.1
    cases hphase : s.status.phase with
    | absent => simp [StatusThread.next, hphase] at ht
    | ended => simp [StatusThread.next, hphase] at ht
    | beginning =>
      simp only [StatusThread.next, hphase, Option.some.injEq] at ht
      subst ht
      have hnow : asLong (time + o.sleeptimeNs) = time := by rw [hsleep, add_zero, asLong_of_fits htime.2]
      exact ⟨Bool.false_ne_true, hbefore, hexported, fitsLong_asLong _, .inr (.inr hnow.le)⟩
    | looking final =>
      rw [hphase] at hfinal hpast
      simp only [StatusThread.next, hphase, Option.some.injEq] at ht
      subst ht
      exact ⟨hfinal, hbefore, hexported, hfits, .inr (.inr (hpast (by simp) (by simp)))⟩
    | summing final k totalops todoops =>
      rw [hphase] at hfinal hpast
      simp only [StatusThread.next, hphase] at ht
      split at ht
      · cases ht
        exact ⟨hfinal, hbefore, hexported, hfits, .inr (.inr (hpast (by simp) (by simp)))⟩
      · cases ht
        refine ⟨fun hc => ?_, hbefore, hexported, hfits, .inr (.inr (hpast (by simp) (by simp)))⟩
        cases final with
        | true => exact hfinal rfl
        | false => exact hc
    | waiting =>
      rw [hphase] at hpast
      have hpast := hpast (by simp) (by simp)
      -- there is nothing to wait for
      simp only [StatusThread.next, hphase, if_neg (not_lt.mpr hpast), Option.some.injEq] at ht
      subst ht
      have hsame : asLong (s.status.deadline + o.sleeptimeNs) = s.status.deadline := by rw [hsleep, add_zero, asLong_of_fits hfits]
      exact ⟨Bool.false_ne_true, hbefore, hexported, fitsLong_asLong _, .inr (.inr (hsame.le.trans hpast))⟩

/-- **With an interval of zero** nothing is ever exported. -/
theorem never_exports (hstatus : o.status = true) (hzero : o.statusIntervalSeconds = 0) {q : Pool World ClientThread} {ls : List Label}
    (hrun : exec (Process.step o) (.initial q) ls = some s) : s.exported = none := by
  have hfits : FitsLong 0 := by decide
  have hinit : Waiting (.initial q) := ⟨fun hc => hc.elim, fun hc => hc.elim, rfl, hfits, .inl rfl⟩
  exact (exec_invariant (I := Waiting) (fun _ _ _ h hs => h.step hstatus hzero hs) hinit hrun).exported

/-- The lines go on after the end of the only thread. -/
theorem never_exports_one :
    ∃ s, exec (Process.step ⟨0, true, 0, [0]⟩) (.initial (starting oneOperation 0 1 false 0)) (throughShown.take 24) = some s ∧ s.exported = none := by
  have hsome : (exec (Process.step ⟨0, true, 0, [0]⟩) (.initial (starting oneOperation 0 1 false 0)) (throughShown.take 24)).isSome = true := by
    decide +kernel
  obtain ⟨s, hrun⟩ := Option.isSome_iff_exists.mp hsome
  exact ⟨s, hrun, never_exports rfl rfl hrun⟩

end YcsbIvs.Client.Lifecycle
