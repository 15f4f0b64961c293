import YcsbIvs.TimeSeries.Verification

/-!
# The states of a thread

A thread's state changes in its calls of `nextDataPoint` only, and in these only where the timestamp generator is advanced and the series are counted
on. What both keep holds in every state that the thread can reach (`nextDataPoint_keeps`).
-/

namespace YcsbIvs.TimeSeries

open YcsbIvs.Foundations YcsbIvs.Generator

section

variable {w : TimeSeriesWorkload} {I : ThreadState → Prop} {s s' : ThreadState}

theorem passOver_keeps (hadvance : ∀ s s', I s → advance s = .ok s' → I s') (hcount : ∀ s, I s → I (countOn w s)) {n : ℕ} (hI : I s)
    (h : passOver w n s = .ok s') : I s' := by
  induction n generalizing s with
  | zero =>
    cases h
    exact hI
  | succ n ih =>
    obtain ⟨s₁, hs₁, h⟩ := bind_inv h
    exact ih (hcount s₁ (hadvance s s₁ hI hs₁)) h

theorem atTurn_keeps (hadvance : ∀ s s', I s → advance s = .ok s' → I s') (hcount : ∀ s, I s → I (countOn w s)) (hI : I s) {draws : Draws}
    (h : atTurn w s draws = .ok s') : I s' := by
  have hrest : ∀ {first : Except Thrown ℤ}, (do
        let iterations ← first
        let iterations := if iterations < 1 then 1 else iterations
        let s ← passOver w (iterations.toNat - 1) s
        advance s) = .ok s' → I s' := by
    intro first h
    obtain ⟨iterations, -, h⟩ := bind_inv h
    obtain ⟨s₁, hpass, h⟩ := bind_inv h
    exact hadvance s₁ s' (passOver_keeps hadvance hcount hI hpass) h
  rw [atTurn] at h
  by_cases hsparsity : w.sparsity.nonPositive = true
  · rw [if_pos hsparsity] at h
    exact hrest h
  · rw [if_neg hsparsity] at h
    exact hrest h

/-- **What advancing and counting on keep, a call of `nextDataPoint` keeps**. -/
theorem nextDataPoint_keeps (hadvance : ∀ s s', I s → advance s = .ok s' → I s') (hcount : ∀ s, I s → I (countOn w s)) (hI : I s)
    {isInsert : Bool} {draws : Draws} {point : DataPoint} (h : nextDataPoint w s isInsert draws = .ok (point, s')) : I s' := by
  rw [nextDataPoint_eq] at h
  obtain ⟨s₁, hturn, h⟩ := bind_inv h
  obtain ⟨point', -, h⟩ := bind_inv h
  cases h
  exact hcount s₁ (atTurn_keeps hadvance hcount hI hturn)

theorem nextState_eq_some {call : Bool × Draws} (h : nextState w s call = some s') : ∃ point, nextDataPoint w s call.1 call.2 = .ok (point, s') := by
  rw [nextState, Option.map_eq_some_iff] at h
  obtain ⟨⟨point, s₁⟩, hr, rfl⟩ := h
  cases hx : nextDataPoint w s call.1 call.2 with
  | error e =>
    rw [hx] at hr
    cases hr
  | ok r =>
    rw [hx] at hr
    exact ⟨point, congrArg Except.ok (Option.some.inj hr)⟩

theorem fitsLong_nextValue {g : TimestampGenerator} {r : ℤ × TimestampGenerator} (h : g.nextValue = .ok r) : FitsLong r.1 := by
  rw [TimestampGenerator.nextValue] at h
  split at h
  · cases h
    exact fitsLong_asLong _
  · split at h
    · cases h
    · cases h
      exact fitsLong_asLong _

/-- A new thread is at the first timestamp of its generator. -/
theorem newThreadState_timestamps {clock : Clock} {shuffle : List ℤ → List ℤ} {threadID threadCount : ℤ}
    (h : newThreadState w clock shuffle threadID threadCount = .ok s) :
    ∃ g, newTimestampGenerator w clock shuffle = .ok g ∧ g.nextValue = .ok (s.startTimestamp, s.timestampGenerator) := by
  obtain ⟨total, htotal⟩ : ∃ total : ℤ, total = if 0 < threadCount then threadCount else 1 := ⟨_, rfl⟩
  rw [newThreadState, ← htotal] at h
  dsimp only at h
  by_cases hthread : total ≤ threadID
  · rw [if_pos hthread] at h
    cases h
  by_cases hlen : (w.keys.length : ℤ) < threadCount
  · rw [if_neg hthread, if_pos hlen] at h
    cases h
  rw [if_neg hthread, if_neg hlen] at h
  obtain ⟨g, hg, h⟩ := bind_inv h
  obtain ⟨first, hfirst, h⟩ := bind_inv h
  cases h
  exact ⟨g, hg, rethrow_eq_ok hfirst⟩

/-- The first timestamp stays what it is, a number of 64 bits. -/
theorem fitsLong_startTimestamp {clock : Clock} {shuffle : List ℤ → List ℤ} {threadID threadCount : ℤ}
    (hs : newThreadState w clock shuffle threadID threadCount = .ok s) {calls : List (Bool × Draws)} (hrun : exec (nextState w) s calls = some s') :
    FitsLong s'.startTimestamp := by
  refine exec_invariant (I := fun s => FitsLong s.startTimestamp) (fun s call s' hI hstep => ?_) ?_ hrun
  · obtain ⟨point, hnext⟩ := nextState_eq_some hstep
    refine nextDataPoint_keeps (I := fun s => FitsLong s.startTimestamp) (fun s s' hI hadvance => ?_) (fun s hI => ?_) hI hnext
    · rw [advance] at hadvance
      split_ifs at hadvance
      · obtain ⟨o, -, hadvance⟩ := bind_inv hadvance
        cases hadvance
        exact hI
      · cases hadvance
        exact hI
    · rw [countOn]
      dsimp only
      split_ifs <;> exact hI
  · obtain ⟨g, -, hfirst⟩ := newThreadState_timestamps hs
    exact fitsLong_nextValue hfirst

end

end YcsbIvs.TimeSeries
