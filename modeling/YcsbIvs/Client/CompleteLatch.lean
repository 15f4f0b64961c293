import YcsbIvs.Client.Lifecycle

/-!
# The latch of the client threads

`main` makes `completeLatch` for `threadcount` threads, and each thread counts it down at its end, so that who waits for it sees the end of the run. But `initDb` makes fewer threads
if there are fewer operations, and a thread that returns because `db.init` or `workload.initThread` has failed, or that an exception ends which is not caught, does not count down.

**When all threads have ended the latch is at zero just if `initDb` has made `threadcount` threads, and none has ended early** (`completeLatch_iff`), whatever else has failed, and in
whatever order.
-/

namespace YcsbIvs.Client.Lifecycle

open YcsbIvs.Foundations YcsbIvs.Generator

/-- The thread has ended. -/
def ClientThread.Ended (t : ClientThread) : Prop := ∃ counted, t.phase = .ended counted

/-- It has not ended without counting down. -/
def ClientThread.Counts (t : ClientThread) : Prop := t.phase ≠ .ended false

/-- The thread does not end early: the calls before the loop return, the bound of its wait is positive, and no operation throws an `Error`. -/
def ClientThread.GoesOn (t : ClientThread) : Act → Prop
  | .init outcome => outcome = .returns
  | .initThread outcome => outcome = .returns
  | .delay _ => t.StartsDelayed → 0 < asInt t.targetOpsTickNs
  | .operate outcome => outcome ≠ .error
  | _ => True

/-- So it is for a step of the threads. -/
def GoesOn (q : Pool World ClientThread) (l : ℕ × Event) : Prop := ∀ t ∈ q.threads[l.1]?, t.GoesOn l.2.act

/-- 1 for a thread that has counted down. -/
def ClientThread.counted (t : ClientThread) : ℤ := if t.phase = .ended true then 1 else 0

/-- How many have. -/
def countedDown (ts : List ClientThread) : ℤ := (ts.map ClientThread.counted).sum

/-! ### One step -/

section

variable {w w' : World} {t t' : ClientThread} {time : ℤ} {act : Act}

/-- A thread that has ended does nothing. -/
theorem Moves.not_ended (h : Moves w t time act w' t') : ¬ t.Ended := by
  rintro ⟨counted, hended⟩
  cases h with
  | init hphase => simp [hended] at hphase
  | initThread hphase => simp [hended] at hphase
  | delay hphase => simp [hended] at hphase
  | wake hphase => simp [hended] at hphase
  | park hphase => simp [hended] at hphase
  | start hphase => simp [hended] at hphase
  | test hphase => simp [hended] at hphase
  | operate hphase => simp [hended] at hphase
  | cleanup hphase => simp [hended] at hphase

/-- How a step may leave a thread. -/
inductive Leaves (w : World) (t : ClientThread) (act : Act) (w' : World) (t' : ClientThread) : Prop where
  /-- At its end, with the latch counted down. -/
  | done (phase : t'.phase = .ended true) (goesOn : t.GoesOn act) (latch : w'.completeLatch = w.countDown.completeLatch)
  /-- At its end, too early. -/
  | early (phase : t'.phase = .ended false) (goesOn : ¬ t.GoesOn act) (latch : w'.completeLatch = w.completeLatch)
  /-- Somewhere else. -/
  | alive (phase : ¬ t'.Ended) (goesOn : t.GoesOn act) (latch : w'.completeLatch = w.completeLatch)

/-- **A step ends a thread early just if it does not go on**, and counts the latch down just if it is the last. -/
theorem Moves.leaves (h : Moves w t time act w' t') : Leaves w t act w' t' := by
  cases h with
  | @init outcome hphase =>
    cases outcome with
    | returns => exact .alive (by simp [ClientThread.Ended, ClientThread.initialized]) rfl rfl
    | refuses => exact .early rfl (by simp [ClientThread.GoesOn]) rfl
    | throws => exact .early rfl (by simp [ClientThread.GoesOn]) rfl
  | @initThread outcome hphase =>
    cases outcome with
    | returns => exact .alive (by simp [ClientThread.Ended, ClientThread.prepared]) rfl rfl
    | refuses => exact .early rfl (by simp [ClientThread.GoesOn]) rfl
    | throws => exact .early rfl (by simp [ClientThread.GoesOn]) rfl
  | @delay draw hphase =>
    by_cases hslow : t.StartsDelayed
    · by_cases hbound : asInt t.targetOpsTickNs ≤ 0
      · exact .early (by simp [ClientThread.delayed, hslow, nextInt, hbound]) (by simp [ClientThread.GoesOn, hslow, hbound]) rfl
      · exact .alive (by simp [ClientThread.Ended, ClientThread.delayed, hslow, nextInt, hbound]) (fun _ => not_le.mp hbound) rfl
    · exact .alive (by simp [ClientThread.Ended, ClientThread.delayed, hslow]) (fun h => absurd h hslow) rfl
  | @wake deadline throttled hphase =>
    refine .alive ?_ trivial rfl
    rw [ClientThread.slept, ClientThread.awoken]
    split_ifs <;> simp [ClientThread.Ended, hphase]
  | park hphase => exact .alive (by simp [ClientThread.Ended]) trivial rfl
  | start hphase => exact .alive (by simp [ClientThread.Ended]) trivial rfl
  | test hphase =>
    refine .alive ?_ trivial rfl
    rw [ClientThread.tested]
    split_ifs <;> simp [ClientThread.Ended]
  | @operate outcome begun hphase =>
    cases outcome with
    | succeeds =>
      refine .alive ?_ (by simp [ClientThread.GoesOn]) rfl
      rw [ClientThread.operated, ClientThread.throttleNanos]
      split_ifs <;> simp [ClientThread.Ended]
    | fails => exact .alive (by simp [ClientThread.Ended, ClientThread.operated]) (by simp [ClientThread.GoesOn]) rfl
    | exception => exact .alive (by simp [ClientThread.Ended, ClientThread.operated]) (by simp [ClientThread.GoesOn]) rfl
    | error => exact .early rfl (by simp [ClientThread.GoesOn]) rfl
  | cleanup hphase => exact .done rfl trivial rfl

theorem Leaves.counts_iff (h : Leaves w t act w' t') : t'.Counts ↔ t.GoesOn act := by
  cases h with
  | done hphase hgoes => exact iff_of_true (by simp [ClientThread.Counts, hphase]) hgoes
  | early hphase hgoes => exact iff_of_false (fun h => h hphase) hgoes
  | alive hphase hgoes => exact iff_of_true (fun h => hphase ⟨false, h⟩) hgoes

/-- The latch is counted down by a thread that ends, and by no other. -/
theorem Leaves.completeLatch_eq (h : Leaves w t act w' t') (hpos : 0 < w.completeLatch) :
    w'.completeLatch + t'.counted = w.completeLatch := by
  cases h with
  | done hphase _ hlatch =>
    rw [hlatch, World.countDown, if_pos hpos, ClientThread.counted, if_pos hphase]
    dsimp only
    omega
  | early hphase _ hlatch => rw [hlatch, ClientThread.counted, if_neg (by simp [hphase]), add_zero]
  | alive hphase _ hlatch => rw [hlatch, ClientThread.counted, if_neg fun hended => hphase ⟨true, hended⟩, add_zero]

end

/-! ### All threads -/

theorem countedDown_le (ts : List ClientThread) : countedDown ts ≤ ts.length := by
  induction ts with
  | nil => exact le_refl 0
  | cons t ts ih =>
    have hle : t.counted ≤ 1 := by
      rw [ClientThread.counted]
      split_ifs <;> decide
    rw [countedDown, List.map_cons, List.sum_cons, ← countedDown, List.length_cons]
    push_cast
    omega

/-- All have counted down just if none has not. -/
theorem countedDown_eq_length_iff {ts : List ClientThread} (hended : ∀ t ∈ ts, t.Ended) : countedDown ts = ts.length ↔ ∀ t ∈ ts, t.Counts := by
  induction ts with
  | nil => exact iff_of_true rfl fun t ht => absurd ht List.not_mem_nil
  | cons t ts ih =>
    obtain ⟨⟨counted, hphase⟩, hrest⟩ := List.forall_mem_cons.mp hended
    have hle := countedDown_le ts
    rw [List.forall_mem_cons, ← ih hrest, countedDown, List.map_cons, List.sum_cons, ← countedDown, List.length_cons]
    push_cast
    cases counted with
    | true =>
      have hone : t.counted = 1 := if_pos hphase
      have hcounts : t.Counts := by simp [ClientThread.Counts, hphase]
      rw [hone, and_iff_right hcounts]
      omega
    | false =>
      have hzero : t.counted = 0 := if_neg (by simp [hphase])
      have hcounts : ¬ t.Counts := by simp [ClientThread.Counts, hphase]
      refine iff_of_false ?_ fun h => hcounts h.1
      omega

/-- The latch has been counted down by the threads that have ended with it; there are no more threads than it was made for. -/
structure Latched (threadcount : ℤ) (n : ℕ) (q : Pool World ClientThread) : Prop where
  length_eq : q.threads.length = n
  latch : q.shared.completeLatch + countedDown q.threads = threadcount

theorem Latched.step {threadcount : ℤ} {n : ℕ} (hn : n ≤ threadcount) {q q' : Pool World ClientThread} {l : ℕ × Event} (h : Latched threadcount n q)
    (hs : q.step ClientThread.run l = some q') : Latched threadcount n q' := by
  obtain ⟨t, w', t', ht, hrun, rfl⟩ := Pool.step_eq_some hs
  obtain ⟨-, -, -, hmoves⟩ := run_eq_some hrun
  have hsum := sum_map_set ClientThread.counted ht t'
  have hlatch := h.latch
  -- the thread that moves has not counted down
  have hnone : t.counted = 0 := if_neg fun hended => hmoves.not_ended ⟨true, hended⟩
  have hpos : 0 < q.shared.completeLatch := by
    have hone : ({ t with phase := .ended true } : ClientThread).counted = 1 := if_pos rfl
    have hmore := sum_map_set ClientThread.counted ht { t with phase := .ended true }
    have hle := countedDown_le (q.threads.set l.1 { t with phase := .ended true })
    rw [countedDown, hmore, ← countedDown, hone, hnone, List.length_set, h.length_eq] at hle
    omega
  have hmoved := hmoves.leaves.completeLatch_eq hpos
  refine ⟨(List.length_set ..).trans h.length_eq, ?_⟩
  dsimp only at hmoved ⊢
  rw [countedDown, hsum, ← countedDown]
  omega

theorem latched_starting {p : OperationCounts} {threadcount : ℤ} (target : ℤ) (spinSleep : Bool) (now : ℤ) :
    Latched threadcount (reducedThreadcount p.opcount.1 threadcount).toNat (starting p target threadcount spinSleep now) := by
  have hnone : ∀ opcounts : List ℤ, countedDown (opcounts.map fun opcount => .new opcount (targetperthreadperms target threadcount)) = 0 := by
    intro opcounts
    induction opcounts with
    | nil => rfl
    | cons opcount opcounts ih =>
      rw [List.map_cons, countedDown, List.map_cons, List.sum_cons, ← countedDown, ih]
      rfl
  refine ⟨?_, ?_⟩
  · rw [starting, List.length_map, initDb, List.length_map, List.length_range]
  · rw [starting]
    dsimp only
    rw [hnone, add_zero]

/-- What a step does to the other threads. -/
theorem counts_step_iff {q q' : Pool World ClientThread} {l : ℕ × Event} (hs : q.step ClientThread.run l = some q') (h : ∀ t ∈ q.threads, t.Counts) :
    (∀ t ∈ q'.threads, t.Counts) ↔ GoesOn q l := by
  obtain ⟨t, w', t', ht, hrun, rfl⟩ := Pool.step_eq_some hs
  obtain ⟨-, -, -, hmoves⟩ := run_eq_some hrun
  have hgoes : GoesOn q l ↔ t.GoesOn l.2.act := by
    rw [GoesOn, ht]
    exact ⟨fun hall => hall t rfl, fun hone u hu => Option.some.inj hu ▸ hone⟩
  rw [hgoes, ← hmoves.leaves.counts_iff]
  refine ⟨fun hall => hall t' ?_, fun hone => forall_threads_set h hone l.1⟩
  exact List.mem_set (List.getElem?_eq_some_iff.mp ht).1 t'

/-- A thread that has ended early stays so. -/
theorem counts_step_back {q q' : Pool World ClientThread} {l : ℕ × Event} (hs : q.step ClientThread.run l = some q') (h : ∀ t ∈ q'.threads, t.Counts) :
    ∀ t ∈ q.threads, t.Counts := by
  obtain ⟨t, w', t', ht, hrun, rfl⟩ := Pool.step_eq_some hs
  obtain ⟨-, -, -, hmoves⟩ := run_eq_some hrun
  intro u hu hended
  obtain ⟨j, hj⟩ := List.mem_iff_getElem?.mp hu
  by_cases heq : l.1 = j
  · subst heq
    obtain rfl := Option.some.inj (ht.symm.trans hj)
    exact hmoves.not_ended ⟨false, hended⟩
  · refine h u (List.mem_of_getElem? (i := j) ?_) hended
    rwa [List.getElem?_set_ne heq]

/-- **When all threads have ended, the latch is at zero just if there are as many as it was made for, and each has gone on to its end.** -/
theorem completeLatch_iff {p : OperationCounts} {threadcount : ℤ} (hthreads : 0 ≤ threadcount) {target : ℤ} {spinSleep : Bool} {now : ℤ}
    {ls : List (ℕ × Event)} {st : Pool World ClientThread} (hrun : exec (Pool.step ClientThread.run) (starting p target threadcount spinSleep now) ls = some st)
    (hended : ∀ t ∈ st.threads, t.Ended) :
    st.shared.completeLatch = 0 ↔
      reducedThreadcount p.opcount.1 threadcount = threadcount ∧
        Meets (Pool.step ClientThread.run) GoesOn (starting p target threadcount spinSleep now) ls := by
  have hle : reducedThreadcount p.opcount.1 threadcount ≤ threadcount ∧ 0 ≤ reducedThreadcount p.opcount.1 threadcount := by
    rw [reducedThreadcount]
    split_ifs <;> omega
  have hlatched := exec_invariant (I := Latched threadcount (reducedThreadcount p.opcount.1 threadcount).toNat)
    (fun _ _ _ h hs => h.step (by omega) hs) (latched_starting target spinSleep now) hrun
  have hnew : ∀ t ∈ (starting p target threadcount spinSleep now).threads, t.Counts := by
    intro t ht
    obtain ⟨opcount, -, rfl⟩ := List.mem_map.mp ht
    exact fun h => by cases h
  have hmeets : Always (Pool.step ClientThread.run) (fun q => ∀ t ∈ q.threads, t.Counts) (starting p target threadcount spinSleep now) ls ↔
      Meets (Pool.step ClientThread.run) GoesOn (starting p target threadcount spinSleep now) ls :=
    always_iff_meets (I := fun _ => True) (fun _ _ _ _ _ => trivial) (fun _ _ _ _ h hs => counts_step_iff hs h) trivial hnew hrun
  have hlast : Always (Pool.step ClientThread.run) (fun q => ∀ t ∈ q.threads, t.Counts) (starting p target threadcount spinSleep now) ls ↔
      ∀ t ∈ st.threads, t.Counts :=
    ⟨fun h => h.last hrun, always_of_last (I := fun _ => True) (fun _ _ _ _ _ => trivial) (fun _ _ _ _ hs h => counts_step_back hs h) trivial hrun⟩
  rw [← hmeets, hlast, ← countedDown_eq_length_iff hended]
  have hsum := hlatched.latch
  have hlength := hlatched.length_eq
  have hcounted := countedDown_le st.threads
  omega

/-- One operation. -/
def oneOperation : OperationCounts := ⟨true, some ⟨1, by decide⟩, none, none⟩

/-- A thread that does it, and ends. -/
def throughOne : List (ℕ × Event) :=
  [(0, ⟨0, .init .returns⟩), (0, ⟨0, .initThread .returns⟩), (0, ⟨0, .delay 0⟩), (0, ⟨0, .start⟩), (0, ⟨0, .test false⟩), (0, ⟨5, .operate .succeeds⟩),
    (0, ⟨5, .test false⟩), (0, ⟨6, .cleanup .refuses⟩)]

/-- What is left of one thread then, if the latch was made for `threadcount`. -/
theorem exec_throughOne :
    exec (Pool.step ClientThread.run) (starting oneOperation 0 1 false 0) throughOne =
        some ⟨⟨0, false, 6, false⟩, [⟨1, 0, 0, 1, 1, 0, 0, .ended true⟩]⟩ ∧
      exec (Pool.step ClientThread.run) (starting oneOperation 0 2 false 0) throughOne =
        some ⟨⟨1, false, 6, false⟩, [⟨1, 0, 0, 1, 1, 0, 0, .ended true⟩]⟩ := by
  decide +kernel

/-- One thread for one operation, with a cleanup that fails. -/
theorem completeLatch_iff_one :
    reducedThreadcount oneOperation.opcount.1 1 = 1 ∧ Meets (Pool.step ClientThread.run) GoesOn (starting oneOperation 0 1 false 0) throughOne :=
  (completeLatch_iff (by decide) exec_throughOne.1 fun _ ht => ⟨true, List.mem_singleton.mp ht ▸ rfl⟩).mp rfl

/-- Two threads for one operation: `initDb` makes one of them. -/
theorem not_completeLatch :
    ¬ ∀ (p : OperationCounts) (target threadcount : ℤ) (spinSleep : Bool) (now : ℤ), 0 ≤ threadcount → ∀ ls st,
      exec (Pool.step ClientThread.run) (starting p target threadcount spinSleep now) ls = some st → (∀ t ∈ st.threads, t.Ended) →
        st.shared.completeLatch = 0 := by
  intro h
  have hzero := h oneOperation 0 2 false 0 (by decide) throughOne _ exec_throughOne.2 fun _ ht => ⟨true, List.mem_singleton.mp ht ▸ rfl⟩
  exact absurd hzero (by decide)

end YcsbIvs.Client.Lifecycle
