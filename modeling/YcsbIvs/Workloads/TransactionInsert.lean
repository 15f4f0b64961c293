import YcsbIvs.Workloads.KeyNumbers

/-!
# Inserting in transactions

`doTransactionInsert` takes a number from `transactioninsertkeysequence`, inserts the record,
and acknowledges the number, whether or not the insert has worked. `nextKeynum` only returns
numbers up to `lastValue()`; so what it returns has been inserted if `lastValue()` is right.

It is, as long as no value sets a flag while an older value of its slot is still out
(`lastValue_acknowledged`). The window does not see to that: a flag that an outstanding value
has not set yet can be set by one `2²⁰` above it, and the drain then takes it for the older
one (`lastValue_unacknowledged`).
-/

namespace YcsbIvs.Workloads

open YcsbIvs.Foundations YcsbIvs.Generator YcsbIvs.Generator.AcknowledgedCounterGenerator

/-- The counter of the keys, and what the threads that insert have done. -/
structure Inserts where
  /-- `transactioninsertkeysequence`. -/
  gen : AcknowledgedCounterGenerator
  /-- The keys whose insert has ended. -/
  finished : List ℤ
  /-- The keys that have been given to `acknowledge`. -/
  given : List ℤ

/-- Before any insert. -/
def Inserts.initial (recordcount : ℤ) : Inserts := ⟨.initial recordcount, [], []⟩

/-- A step of a thread that inserts. -/
inductive InsertLabel where
  /-- `db.insert` of a key ends. -/
  | finish (keynum : ℤ)
  /-- A step of the generator. -/
  | gen (l : Label)
  deriving DecidableEq

/-- One step: the insert of a key ends after the key has been handed out, and then the key is
acknowledged, once. -/
def insertStep (c : Inserts) : InsertLabel → Option Inserts
  | .finish keynum =>
    if keynum ∈ c.gen.issued ∧ keynum ∉ c.finished then some { c with finished := keynum :: c.finished } else none
  | .gen (.mark keynum) =>
    if keynum ∈ c.finished ∧ keynum ∉ c.given then
      (step c.gen (.mark keynum)).map fun gen => { c with gen := gen, given := keynum :: c.given }
    else none
  | .gen l => (step c.gen l).map fun gen => { c with gen := gen }

/-- A condition on the steps of the generator. -/
def OnGen (C : AcknowledgedCounterGenerator → Label → Prop) (c : Inserts) : InsertLabel → Prop
  | .finish _ => True
  | .gen l => C c.gen l

instance (C : AcknowledgedCounterGenerator → Label → Prop) [∀ g l, Decidable (C g l)] (c : Inserts) :
    (l : InsertLabel) → Decidable (OnGen C c l)
  | .finish _ => .isTrue trivial
  | .gen l => inferInstanceAs (Decidable (C c.gen l))

/-- What holds of the threads that insert. -/
structure InsertsSound (recordcount : ℤ) (c : Inserts) : Prop where
  /-- The generator is sound. -/
  gen : Sound recordcount c.gen
  /-- A key whose insert has ended has been handed out. -/
  finished_issued : ∀ k ∈ c.finished, k ∈ c.gen.issued
  /-- A key that has been given to `acknowledge` has been inserted. -/
  given_finished : ∀ k ∈ c.given, k ∈ c.finished
  /-- A key that is acknowledged has been given to it. -/
  acked_given : ∀ k ∈ c.gen.acked, k ∈ c.given

/-- A step of the generator other than `mark` acknowledges nothing, and takes nothing back. -/
theorem moves_acked {g g' : AcknowledgedCounterGenerator} {l : Label} (hm : Moves g l g')
    (hl : ∀ v, l ≠ .mark v) : g'.acked = g.acked ∧ ∀ v ∈ g.issued, v ∈ g'.issued := by
  cases hm with
  | nextValue => exact ⟨rfl, fun v hv => List.mem_cons_of_mem _ hv⟩
  | throws _ => exact absurd rfl (hl _)
  | mark _ => exact absurd rfl (hl _)
  | lock _ => exact ⟨rfl, fun _ hv => hv⟩
  | skip => exact ⟨rfl, fun _ hv => hv⟩
  | scan _ _ => exact ⟨rfl, fun _ hv => hv⟩
  | leave _ _ => exact ⟨rfl, fun _ hv => hv⟩
  | publish _ => exact ⟨rfl, fun _ hv => hv⟩
  | unlock _ => exact ⟨rfl, fun _ hv => hv⟩

/-- One step of a thread that inserts, the generator's being orderly. -/
theorem InsertsSound.step {recordcount : ℤ} {c c' : Inserts} {l : InsertLabel} (h : InsertsSound recordcount c)
    (hl : OnGen (fun g l => NoOverflow g l ∧ OldestFirst g l) c l) (hs : insertStep c l = some c') :
    InsertsSound recordcount c' := by
  obtain ⟨hgen, hfin, hgiven, hacked⟩ := h
  -- a step of the generator that is not `mark`
  have hother : ∀ l : Label, (∀ v, l ≠ .mark v) → NoOverflow c.gen l → OldestFirst c.gen l → AckedOnce c.gen l →
      (AcknowledgedCounterGenerator.step c.gen l).map (fun gen => { c with gen := gen }) = some c' →
      InsertsSound recordcount c' := by
    intro l hne hover holdest honce hs
    obtain ⟨g, hg, rfl⟩ := Option.map_eq_some_iff.mp hs
    obtain ⟨hack, hiss⟩ := moves_acked (step_moves hg) hne
    refine ⟨hgen.step hover honce holdest (step_moves hg), fun k hk => hiss k (hfin k hk), hgiven, fun k hk => ?_⟩
    replace hk : k ∈ g.acked := hk
    rw [hack] at hk
    exact hacked k hk
  cases l with
  | finish keynum =>
    rw [insertStep] at hs
    split_ifs at hs with hk
    cases hs
    refine ⟨hgen, fun k hk' => ?_, fun k hk' => List.mem_cons_of_mem _ (hgiven k hk'), hacked⟩
    rcases List.mem_cons.mp hk' with rfl | hk'
    · exact hk.1
    · exact hfin k hk'
  | gen l =>
    obtain ⟨hover, holdest⟩ := hl
    cases l with
    | mark keynum =>
      rw [insertStep] at hs
      split_ifs at hs with hk
      obtain ⟨g, hg, rfl⟩ := Option.map_eq_some_iff.mp hs
      have honce : AckedOnce c.gen (.mark keynum) :=
        ⟨hfin keynum hk.1, fun hmem => hk.2 (hacked keynum hmem)⟩
      have hsound := hgen.step hover honce holdest (step_moves hg)
      have hgiven' : ∀ k ∈ keynum :: c.given, k ∈ c.finished := by
        intro k hk'
        rcases List.mem_cons.mp hk' with rfl | hk'
        · exact hk.1
        · exact hgiven k hk'
      cases step_moves hg with
      | throws _ => exact ⟨hsound, hfin, hgiven', fun k hk' => List.mem_cons_of_mem _ (hacked k hk')⟩
      | mark _ =>
        refine ⟨hsound, hfin, hgiven', fun k hk' => ?_⟩
        rcases List.mem_cons.mp hk' with rfl | hk'
        · exact List.mem_cons_self
        · exact List.mem_cons_of_mem _ (hacked k hk')
    | nextValue => exact hother .nextValue (fun v hv => by cases hv) hover holdest trivial hs
    | tryLock => exact hother .tryLock (fun v hv => by cases hv) hover holdest trivial hs
    | scan => exact hother .scan (fun v hv => by cases hv) hover holdest trivial hs
    | publish => exact hother .publish (fun v hv => by cases hv) hover holdest trivial hs
    | unlock => exact hother .unlock (fun v hv => by cases hv) hover holdest trivial hs

theorem insertsSound_initial {recordcount : ℤ} (hstart : FitsLong (recordcount - 1)) (hfits : FitsLong recordcount) :
    InsertsSound recordcount (Inserts.initial recordcount) :=
  ⟨sound_initial hstart hfits, fun _ hk => absurd hk List.not_mem_nil, fun _ hk => absurd hk List.not_mem_nil,
    fun _ hk => absurd hk List.not_mem_nil⟩

/-- What `nextKeynum` returns is not above `lastValue()`. -/
theorem nextKeynumRound_le {exponential : Bool} {lastValue d k : ℤ}
    (hd : exponential = true → 0 ≤ asInt d ∧ FitsLong (lastValue - asInt d))
    (h : nextKeynumRound exponential lastValue d = some k) : k ≤ lastValue := by
  rw [nextKeynumRound] at h
  dsimp only at h
  split_ifs at h with hexp hneg hle
  · obtain ⟨hpos, hfits⟩ := hd hexp
    rw [asLong_of_fits hfits, Option.some.injEq] at h
    omega
  · rw [Option.some.injEq] at h
    omega

/-- **`lastValue()` does not reach a value that is not acknowledged**, in any run in which the
counter does not overflow and no value sets a flag while an older value of its slot is out;
and `nextKeynum` then returns no key whose insert has not ended. For an exponential chooser,
the number drawn is not negative as an `int`. -/
theorem lastValue_acknowledged {recordcount : ℤ} (hstart : FitsLong (recordcount - 2 ^ 31)) (hfits : FitsLong recordcount) :
    (∀ ls g, Meets step (fun g l => AckedOnce g l ∧ NoOverflow g l ∧ OldestFirst g l)
        (AcknowledgedCounterGenerator.initial recordcount) ls →
      exec step (AcknowledgedCounterGenerator.initial recordcount) ls = some g →
      ∀ v, recordcount ≤ v → v ≤ g.lastValue → v ∈ g.acked) ∧
    ∀ ls c, Meets insertStep (OnGen fun g l => NoOverflow g l ∧ OldestFirst g l) (Inserts.initial recordcount) ls →
      exec insertStep (Inserts.initial recordcount) ls = some c →
      ∀ exponential draws k, (exponential = true → ∀ d ∈ draws, 0 ≤ asInt d) →
        nextKeynum exponential c.gen.lastValue draws = some k → recordcount ≤ k → k ∈ c.finished := by
  have hstart' : FitsLong (recordcount - 1) := by
    unfold FitsLong at *
    omega
  constructor
  · intro ls g hls hrun v hv hle
    have hsound := exec_invariant_of (I := Sound recordcount)
      (fun _ _ _ h hl hs => h.step hl.2.1 hl.1 hl.2.2 (step_moves hs)) (sound_initial hstart' hfits) hls hrun
    exact hsound.upto v hv (hle.trans hsound.limit_le.2.1)
  · intro ls c hls hrun exponential draws k hdraws hk hle
    have hsound := exec_invariant_of (I := InsertsSound recordcount) (fun _ _ _ h hl hs => h.step hl hs)
      (insertsSound_initial hstart' hfits) hls hrun
    obtain ⟨d, hd, hround⟩ := nextKeynum_eq_some hk
    have hlim := hsound.gen.limit_le
    have hcounter := hsound.gen.fits.2.2
    have hkle := nextKeynumRound_le (fun hexp => ?_) hround
    · exact hsound.given_finished k (hsound.acked_given k (hsound.gen.upto k hle (hkle.trans hlim.2.1)))
    · have hpos := hdraws hexp d hd
      have hint := fitsInt_asInt d
      refine ⟨hpos, ?_⟩
      show FitsLong (c.gen.limit - asInt d)
      unfold FitsInt FitsLong at *
      omega

/-- One insert after the other, from the key `keynum` on: each is acknowledged before the
next begins. -/
def insertions : ℤ → ℕ → List Label
  | _, 0 => []
  | keynum, K + 1 =>
    [.nextValue, .mark keynum, .tryLock, .scan, .scan, .publish, .unlock] ++ insertions (asLong (keynum + 1)) K

/-- No insert is under way, and `lastValue()` is the value before the counter. -/
structure Idle (g : AcknowledgedCounterGenerator) : Prop where
  /-- The counter is a `long`. -/
  fits : FitsLong g.counter
  /-- No flag is set. -/
  window_eq : g.window = fun _ => false
  /-- The limit is below the counter. -/
  limit_eq : g.limit = asLong (g.counter - 1)
  /-- Nobody has the lock or wants it. -/
  holder_eq : g.holder = .free ∧ g.marked = 0

/-- One insert, with nothing else under way. -/
theorem exec_insertion {g : AcknowledgedCounterGenerator} (h : Idle g) :
    ∃ g', exec step g [.nextValue, .mark g.counter, .tryLock, .scan, .scan, .publish, .unlock] = some g' ∧ Idle g' ∧
      g'.counter = asLong (g.counter + 1) := by
  obtain ⟨⟨counter⟩, window, limit, holder, marked, thrown, issued, acked, quiet, rounds⟩ := g
  obtain ⟨hfits, hwindow, hlimit, hholder, hmarked⟩ := h
  dsimp only at hfits hwindow hlimit hholder hmarked
  subst hwindow hholder hmarked
  have hnext : asLong (limit + 1) = counter := by
    unfold FitsLong asLong at *
    omega
  have hnotFirst : counter ≠ slotOf limit := by
    unfold FitsLong slotOf windowSize asLong at *
    omega
  have hcleared : Function.update (Function.update (fun _ => false) (slotOf counter) true) (slotOf counter) false =
      fun _ : ℤ => false := by
    rw [Function.update_idem, Function.update_eq_self]
  refine ⟨⟨⟨asLong (counter + 1)⟩, fun _ => false, asLong (asLong (counter + 1) - 1), .free, 0, thrown,
    counter :: issued, counter :: acked, true, 1⟩, ?_, ⟨fitsLong_asLong (counter + 1), rfl, rfl, rfl, rfl⟩, rfl⟩
  simp [exec, AcknowledgedCounterGenerator.step, CounterGenerator.nextValue, hnext, hnotFirst, hcleared]

/-- **`lastAcknowledged` is `lastValue()`** of the generator after `K` inserts, one after the
other. -/
theorem lastValue_insertions {w : KeyNumbers} (hfits : FitsLong w.recordcount) (K : ℕ) :
    ∃ g, exec step (AcknowledgedCounterGenerator.initial w.recordcount) (insertions w.recordcount K) = some g ∧
      g.lastValue = lastAcknowledged w K := by
  -- from any idle state
  have hall : ∀ (K : ℕ) (g : AcknowledgedCounterGenerator), Idle g →
      ∃ g', exec step g (insertions g.counter K) = some g' ∧ Idle g' ∧ g'.counter = asLong (g.counter + K) := by
    intro K
    induction K with
    | zero =>
      intro g hg
      refine ⟨g, rfl, hg, ?_⟩
      rw [Int.natCast_zero, Int.add_zero, asLong_of_fits hg.fits]
    | succ K ih =>
      intro g hg
      obtain ⟨g₁, hrun, hidle, hcounter⟩ := exec_insertion hg
      obtain ⟨g₂, hrun', hidle', hcounter'⟩ := ih g₁ hidle
      refine ⟨g₂, ?_, hidle', ?_⟩
      · rw [insertions, exec_append, hrun, Option.bind_some, ← hcounter]
        exact hrun'
      · rw [hcounter', hcounter, asLong_asLong_add, Int.natCast_succ, Int.add_assoc, Int.add_comm 1]
  have hinit : Idle (AcknowledgedCounterGenerator.initial w.recordcount) := ⟨hfits, rfl, rfl, rfl, rfl⟩
  obtain ⟨g, hrun, hidle, hcounter⟩ := hall K _ hinit
  refine ⟨g, hrun, ?_⟩
  show g.limit = lastAcknowledged w K
  rw [hidle.limit_eq, hcounter, lastAcknowledged_eq hfits]
  exact asLong_asLong_sub (w.recordcount + K) 1

/-- Two inserts, the second acknowledged first. -/
theorem lastValue_acknowledged_two :
    ∃ c, exec insertStep (Inserts.initial 1)
        [.gen .nextValue, .gen .nextValue, .finish 2, .gen (.mark 2), .finish 1, .gen (.mark 1), .gen .tryLock,
          .gen .scan, .gen .scan, .gen .scan, .gen .publish] = some c ∧
      c.gen.lastValue = 2 ∧ ∀ k, nextKeynum false c.gen.lastValue [3, k] = some k → 1 ≤ k → k ∈ c.finished := by
  have hfinal : (exec insertStep (Inserts.initial 1)
      [.gen .nextValue, .gen .nextValue, .finish 2, .gen (.mark 2), .finish 1, .gen (.mark 1), .gen .tryLock,
        .gen .scan, .gen .scan, .gen .scan, .gen .publish]).map (fun c => c.gen.lastValue) = some 2 := by decide
  obtain ⟨c, hrun, hc⟩ := Option.map_eq_some_iff.mp hfinal
  have hmeets : Meets insertStep (OnGen fun g l => NoOverflow g l ∧ OldestFirst g l) (Inserts.initial 1)
      [.gen .nextValue, .gen .nextValue, .finish 2, .gen (.mark 2), .finish 1, .gen (.mark 1), .gen .tryLock,
        .gen .scan, .gen .scan, .gen .scan, .gen .publish] := by decide
  exact ⟨c, hrun, hc, fun k hk hle => (lastValue_acknowledged (by decide) (by decide)).2 _ c hmeets hrun false [3, k] k
    (fun hexp => by cases hexp) hk hle⟩

/-- Any number of values handed out. -/
theorem exec_nextValues {g : AcknowledgedCounterGenerator} (n : ℕ) (hstart : -2 ^ 63 ≤ g.counter)
    (hfits : g.counter + n < 2 ^ 63) :
    ∃ issued, exec step g (List.replicate n .nextValue) = some { g with counter := g.counter + n, issued := issued } ∧
      (∀ v ∈ g.issued, v ∈ issued) ∧ ∀ v, g.counter ≤ v → v < g.counter + n → v ∈ issued := by
  induction n generalizing g with
  | zero =>
    refine ⟨g.issued, ?_, fun _ hv => hv, fun v hv hlt => ?_⟩
    · rw [Int.natCast_zero, Int.add_zero]
      rfl
    · omega
  | succ n ih =>
    have hnext : asLong (g.counter + 1) = g.counter + 1 := asLong_of_fits (by unfold FitsLong; omega)
    have hstep : step g .nextValue = some { g with counter := g.counter + 1, issued := g.counter :: g.issued } := by
      rw [AcknowledgedCounterGenerator.step, CounterGenerator.nextValue, hnext]
    obtain ⟨issued, hrun, hkeep, hnew⟩ := ih (g := { g with counter := g.counter + 1, issued := g.counter :: g.issued })
      (by dsimp only; omega) (by dsimp only; omega)
    refine ⟨issued, ?_, fun v hv => hkeep v (List.mem_cons_of_mem _ hv), fun v hv hlt => ?_⟩
    · rw [List.replicate_succ, exec_cons_of hstep, hrun]
      have hcount : g.counter + 1 + (n : ℤ) = g.counter + (n + 1 : ℕ) := by omega
      rw [hcount]
    · by_cases heq : v = g.counter
      · exact hkeep v (heq ▸ List.mem_cons_self)
      · exact hnew v (by dsimp only; omega) (by dsimp only; omega)

/-- A window and one more values are handed out, and only the last is acknowledged: it sets
the flag of the first, and the drain moves `lastValue()` over the first, which is still out.
Nobody throws. -/
theorem lastValue_unacknowledged :
    Meets step AckedOnce (AcknowledgedCounterGenerator.initial 1)
        (List.replicate (2 ^ 20 + 1) .nextValue ++ [.mark (2 ^ 20 + 1), .tryLock, .scan, .scan, .publish]) ∧
      ∃ g, exec step (AcknowledgedCounterGenerator.initial 1)
          (List.replicate (2 ^ 20 + 1) .nextValue ++ [.mark (2 ^ 20 + 1), .tryLock, .scan, .scan, .publish]) = some g ∧
        1 ≤ g.lastValue ∧ 1 ∉ g.acked ∧ g.thrown = 0 := by
  obtain ⟨issued, hrun, -, hissued⟩ := exec_nextValues (g := AcknowledgedCounterGenerator.initial 1) (2 ^ 20 + 1)
    (by decide) (by decide)
  have hmem : (2 ^ 20 + 1 : ℤ) ∈ issued := hissued _ (by decide) (by decide)
  constructor
  · refine (meets_of_forall (fun l hl g => ?_) _).append hrun ⟨⟨hmem, List.not_mem_nil⟩,
      fun g _ => meets_of_forall (fun l hl g => ?_) g⟩
    · rw [List.eq_of_mem_replicate hl]
      trivial
    · simp only [List.mem_cons, List.not_mem_nil, or_false] at hl
      rcases hl with rfl | rfl | rfl | rfl <;> trivial
  · rw [exec_append, hrun, Option.bind_some]
    have hfinal : (exec step { AcknowledgedCounterGenerator.initial 1 with
          counter := (AcknowledgedCounterGenerator.initial 1).counter + (2 ^ 20 + 1 : ℕ), issued := issued }
        [.mark (2 ^ 20 + 1), .tryLock, .scan, .scan, .publish]).map (fun g => (g.lastValue, g.acked, g.thrown)) =
        some (1, [2 ^ 20 + 1], 0) := rfl
    obtain ⟨g, hg, heq⟩ := Option.map_eq_some_iff.mp hfinal
    simp only [Prod.mk.injEq] at heq
    obtain ⟨hlast, hacked, hthrown⟩ := heq
    refine ⟨g, hg, hlast.ge, ?_, hthrown⟩
    rw [hacked]
    decide

end YcsbIvs.Workloads
