import YcsbIvs.Generator.Counters

/-!
# The acknowledged counter is exact

As long as nobody acknowledges a value more than a window above `lastValue()` and the counter
does not overflow, the older values of a slot are acknowledged whenever a newer one is, so
`Sound` applies (`InTime.oldestFirst`). Then a flag is never found set (`Exact.unset`), every
value within a window of the frontier has a flag of its own, a drain that nobody has marked
during leaves `lastValue()` at the largest value up to which all are acknowledged, and its
loop goes round at most `2²⁰` times: `acknowledged_exact`.

When the counter overflows, the values go on from `-2⁶³`, and `lastValue()` with them
(`not_acknowledged_exact_overflow`).
-/

namespace YcsbIvs.Generator.AcknowledgedCounterGenerator

open YcsbIvs.Foundations

/-- A value is acknowledged when it is not more than a window above `lastValue()`. -/
def InTime (g : AcknowledgedCounterGenerator) : Label → Prop
  | .mark value => value ≤ g.lastValue + windowSize
  | _ => True

instance (g : AcknowledgedCounterGenerator) : (l : Label) → Decidable (InTime g l)
  | .mark _ => inferInstanceAs (Decidable (_ ≤ _))
  | .nextValue | .tryLock | .scan | .publish | .unlock => .isTrue trivial

/-- Two values of one slot are at least a window apart. -/
theorem slotOf_inj_of_lt {u v : ℤ} (hlt : u < v) (hslot : slotOf u = slotOf v) : u + windowSize ≤ v := by
  unfold slotOf windowSize at *
  omega

/-- The older values of the slot of a value in time are at or below the limit. -/
theorem InTime.oldestFirst {countstart : ℤ} {g : AcknowledgedCounterGenerator} {l : Label} (h : Sound countstart g)
    (hl : InTime g l) : OldestFirst g l := by
  cases l with
  | mark value =>
    intro _ u hu hlt hslot
    have hapart := slotOf_inj_of_lt hlt hslot
    have hlim := h.limit_le
    have hle : value ≤ g.limit + windowSize := hl
    exact h.upto u ((h.issued_iff u).mp hu).1 (by omega)
  | nextValue => trivial
  | tryLock => trivial
  | scan => trivial
  | publish => trivial
  | unlock => trivial

/-- What holds of a generator whose values are acknowledged in time. -/
structure Exact (countstart : ℤ) (g : AcknowledgedCounterGenerator) : Prop where
  /-- It is sound. -/
  sound : Sound countstart g
  /-- The limit is not negative. -/
  nonneg : 0 ≤ g.limit
  /-- No acknowledged value is more than a window above it. -/
  acked_le : ∀ v ∈ g.acked, v ≤ g.limit + windowSize
  /-- The loop starts above the slot it would stop at. -/
  guard : ∀ index before, g.holder = .scanning index before → before ≤ g.limit
  /-- The loop has been left at a value that is not acknowledged. -/
  quiet_leaving : ∀ index, g.holder = .leaving index → g.quiet = true → index ∉ g.acked
  /-- The value above the limit is not acknowledged. -/
  quiet_done : g.holder = .free ∨ g.holder = .published → g.quiet = true → g.limit + 1 ∉ g.acked
  /-- Nobody has thrown. -/
  thrown_eq : g.thrown = 0
  /-- The loop has gone round once for each value above the limit. -/
  rounds_eq : ∀ index before, g.holder = .scanning index before → (g.rounds : ℤ) = index - 1 - g.limit
  /-- It goes round at most once for each flag. -/
  rounds_le : (g.rounds : ℤ) ≤ windowSize

/-- A value that is acknowledged in time finds its flag unset. -/
theorem Exact.unset {countstart : ℤ} {g : AcknowledgedCounterGenerator} {value : ℤ} (h : Exact countstart g)
    (honce : AckedOnce g (.mark value)) (htime : InTime g (.mark value)) : g.window (slotOf value) = false := by
  obtain ⟨hissued, hnew⟩ := honce
  have hle : value ≤ g.limit + windowSize := htime
  by_contra hset
  rw [Bool.not_eq_false] at hset
  obtain ⟨v, hv, hlt, hslot⟩ := (h.sound.window_iff _).mp hset
  have hlim := h.sound.limit_le
  rcases lt_trichotomy v value with hvv | rfl | hvv
  · have := slotOf_inj_of_lt hvv hslot
    omega
  · exact hnew hv
  · exact hnew (h.sound.closed v hv value hissued hvv hslot.symm)

/-- The loop does not stop at `beforeFirstSlot`: its index is above the limit, and the slot is
not. -/
theorem Exact.leave_unset {countstart : ℤ} {g : AcknowledgedCounterGenerator} {index before : ℤ}
    (h : Exact countstart g) (hholder : g.holder = .scanning index before)
    (hend : index = before ∨ g.window (slotOf index) = false) : index ∉ g.acked := by
  have hfront : g.frontier = index - 1 := by simp only [frontier, hholder]
  have hlim := h.sound.limit_le
  have hguard := h.guard index before hholder
  rcases hend with heq | hunset
  · omega
  · intro hmem
    have hset := (h.sound.window_iff (slotOf index)).mpr ⟨index, hmem, by omega, rfl⟩
    rw [hunset] at hset
    cases hset

/-- **One step keeps a generator exact.** -/
theorem Exact.step {countstart : ℤ} {g g' : AcknowledgedCounterGenerator} {l : Label} (h : Exact countstart g)
    (hover : NoOverflow g l) (honce : AckedOnce g l) (htime : InTime g l) (hm : Moves g l g') :
    Exact countstart g' := by
  have hsound := h.sound.step hover honce (htime.oldestFirst h.sound) hm
  obtain ⟨hs, hnonneg, hack, hguard, hleaving, hdone, hthrown, hrounds, hroundsle⟩ := h
  have hlim := hs.limit_le
  have hfits := hs.fits
  cases hm with
  | nextValue => exact ⟨hsound, hnonneg, hack, hguard, hleaving, hdone, hthrown, hrounds, hroundsle⟩
  | throws hset =>
    have h : Exact countstart g := ⟨hs, hnonneg, hack, hguard, hleaving, hdone, hthrown, hrounds, hroundsle⟩
    rw [h.unset honce htime] at hset
    cases hset
  | mark hunset =>
    refine ⟨hsound, hnonneg, fun v hv => ?_, hguard, fun _ _ hq => ?_, fun _ hq => ?_, hthrown, hrounds, hroundsle⟩
    · rcases List.mem_cons.mp hv with rfl | hv
      · exact htime
      · exact hack v hv
    · cases hq
    · cases hq
  | lock hfree =>
    have hnext : asLong (g.limit + 1) = g.limit + 1 := asLong_of_fits (by unfold FitsLong at *; omega)
    have hslot : slotOf g.limit ≤ g.limit := by
      unfold slotOf windowSize
      omega
    refine ⟨hsound, hnonneg, hack, fun index before hh => ?_, fun index hh => ?_, fun hh => ?_, hthrown,
      fun index before hh => ?_, ?_⟩
    · cases hh
      exact hslot
    · cases hh
    · rcases hh with hh | hh <;> cases hh
    · cases hh
      show ((0 : ℕ) : ℤ) = asLong (g.limit + 1) - 1 - g.limit
      omega
    · show ((0 : ℕ) : ℤ) ≤ windowSize
      decide
  | skip => exact ⟨hsound, hnonneg, hack, hguard, hleaving, hdone, hthrown, hrounds, hroundsle⟩
  | @scan index before hholder hset =>
    obtain ⟨hindex, hnext, -⟩ := hs.scan hholder hset
    have hround : ((g.rounds + 1 : ℕ) : ℤ) = index - g.limit := by
      have := hrounds index before hholder
      push_cast
      omega
    refine ⟨hsound, hnonneg, hack, fun i b hh => ?_, fun i hh => ?_, fun hh => ?_, hthrown, fun i b hh => ?_, ?_⟩
    · cases hh
      exact hguard index before hholder
    · cases hh
    · rcases hh with hh | hh <;> cases hh
    · cases hh
      show ((g.rounds + 1 : ℕ) : ℤ) = asLong (index + 1) - 1 - g.limit
      omega
    · show ((g.rounds + 1 : ℕ) : ℤ) ≤ windowSize
      have := hack index hindex
      omega
  | @leave index before hholder hend =>
    have h : Exact countstart g := ⟨hs, hnonneg, hack, hguard, hleaving, hdone, hthrown, hrounds, hroundsle⟩
    refine ⟨hsound, hnonneg, hack, fun i b hh => ?_, fun i hh _ => ?_, fun hh => ?_, hthrown, fun i b hh => ?_,
      hroundsle⟩
    · cases hh
    · cases hh
      exact h.leave_unset hholder hend
    · rcases hh with hh | hh <;> cases hh
    · cases hh
  | @publish index hholder =>
    have hfront : g.frontier = index - 1 := by simp only [frontier, hholder]
    have hprev : asLong (index - 1) = index - 1 := asLong_of_fits (by unfold FitsLong at *; omega)
    refine ⟨hsound, ?_, fun v hv => ?_, fun i b hh => ?_, fun i hh => ?_, fun _ hq => ?_, hthrown, fun i b hh => ?_,
      hroundsle⟩
    · show 0 ≤ asLong (index - 1)
      omega
    · show v ≤ asLong (index - 1) + windowSize
      have := hack v hv
      omega
    · cases hh
    · cases hh
    · show asLong (index - 1) + 1 ∉ g.acked
      rw [hprev, Int.sub_add_cancel]
      exact hleaving index hholder hq
    · cases hh
  | unlock hholder =>
    refine ⟨hsound, hnonneg, hack, fun i b hh => ?_, fun i hh => ?_, fun _ => hdone (.inr hholder), hthrown,
      fun i b hh => ?_, hroundsle⟩
    · cases hh
    · cases hh
    · cases hh

theorem exact_initial {countstart : ℤ} (hpos : 1 ≤ countstart) (hfits : FitsLong countstart) :
    Exact countstart (initial countstart) := by
  have hstart : FitsLong (countstart - 1) := by
    unfold FitsLong at *
    omega
  have hlimit : asLong (countstart - 1) = countstart - 1 := asLong_of_fits hstart
  refine ⟨sound_initial hstart hfits, ?_, fun v hv => absurd hv List.not_mem_nil, fun _ _ hh => ?_, fun _ hh => ?_,
    fun _ hq => ?_, rfl, fun _ _ hh => ?_, ?_⟩
  · show 0 ≤ asLong (countstart - 1)
    omega
  · cases hh
  · cases hh
  · cases hq
  · cases hh
  · show ((0 : ℕ) : ℤ) ≤ windowSize
    decide

/-- What the generator promises of a state: every value up to `lastValue()` has been
acknowledged; a flag is set when its value, the one within a window of the frontier, is; after
a drain that nobody has marked during, `lastValue()` is the largest value up to which all are;
nobody has thrown; and the loop goes on or ends, and has gone round at most once for each flag. -/
structure Promise (countstart : ℤ) (g : AcknowledgedCounterGenerator) : Prop where
  /-- Up to `lastValue()`. -/
  acked_upto : ∀ v, countstart ≤ v → v ≤ g.lastValue → v ∈ g.acked
  /-- The flags. -/
  flags : ∀ v, g.frontier < v → v ≤ g.frontier + windowSize → (g.window (slotOf v) = true ↔ v ∈ g.acked)
  /-- The frontier is the limit when no drain is under way. -/
  frontier_eq : g.holder = .free ∨ g.holder = .published → g.frontier = g.lastValue
  /-- After a quiet drain. -/
  greatest : g.holder = .free ∨ g.holder = .published → g.quiet = true →
    IsGreatest {L | ∀ v, countstart ≤ v → v ≤ L → v ∈ g.acked} g.lastValue
  /-- No exception. -/
  no_throw : g.thrown = 0
  /-- The loop can go on, to another round or to its end. -/
  no_stuck : ∀ index before, g.holder = .scanning index before → (AcknowledgedCounterGenerator.step g .scan).isSome
  /-- The loop ends. -/
  rounds_le : (g.rounds : ℤ) ≤ windowSize

theorem Exact.promise {countstart : ℤ} {g : AcknowledgedCounterGenerator} (h : Exact countstart g) :
    Promise countstart g := by
  have hlim := h.sound.limit_le
  have hupto : ∀ v, countstart ≤ v → v ≤ g.lastValue → v ∈ g.acked := fun v hv hle =>
    h.sound.upto v hv (hle.trans hlim.2.1)
  refine ⟨hupto, fun v hlt hle => ⟨fun hset => ?_, fun hmem => ?_⟩, fun hh => ?_, fun hh hq => ⟨hupto, fun L hL => ?_⟩,
    h.thrown_eq, fun index before hh => ?_, h.rounds_le⟩
  · -- the only other values of the slot are a window or more away
    obtain ⟨u, hu, hfu, hslot⟩ := (h.sound.window_iff _).mp hset
    have hule := h.acked_le u hu
    rcases lt_trichotomy u v with huv | rfl | huv
    · have := slotOf_inj_of_lt huv hslot
      omega
    · exact hu
    · have := slotOf_inj_of_lt huv hslot.symm
      omega
  · exact (h.sound.window_iff _).mpr ⟨v, hmem, hlt, rfl⟩
  · rcases hh with hh | hh <;> simp only [frontier, hh, lastValue]
  · by_contra hlt
    rw [not_le] at hlt
    exact h.quiet_done hh hq (hL _ (by omega) (by unfold lastValue at hlt; omega))
  · rw [AcknowledgedCounterGenerator.step, hh]
    dsimp only
    split_ifs <;> rfl

/-- **The generator keeps its promise** in every state of every run in which values are
acknowledged once and in time, and the counter does not overflow. -/
theorem acknowledged_exact {countstart : ℤ} (hpos : 1 ≤ countstart) (hfits : FitsLong countstart) {ls : List Label}
    (hls : Meets step (fun g l => (AckedOnce g l ∧ InTime g l) ∧ NoOverflow g l) (initial countstart) ls)
    {g : AcknowledgedCounterGenerator} (hrun : exec step (initial countstart) ls = some g) : Promise countstart g :=
  (exec_invariant_of (fun _ _ _ h hl hs => Exact.step h hl.2 hl.1.1 hl.1.2 (step_moves hs))
    (exact_initial hpos hfits) hls hrun).promise

/-- Two values, acknowledged the wrong way round. -/
theorem acknowledged_exact_two :
    ∃ g, exec step (initial 1) [.nextValue, .nextValue, .mark 2, .tryLock, .mark 1, .scan, .scan, .scan, .publish] =
        some g ∧ Promise 1 g := by
  have hsome : (exec step (initial 1)
      [.nextValue, .nextValue, .mark 2, .tryLock, .mark 1, .scan, .scan, .scan, .publish]).isSome := by decide
  obtain ⟨g, hrun⟩ := Option.isSome_iff_exists.mp hsome
  exact ⟨g, hrun, acknowledged_exact (by decide) (by decide) (by decide) hrun⟩

/-- The counter overflows after the first value: the second is the least `long`, and a quiet
drain after both have been acknowledged leaves `lastValue()` there. -/
theorem not_acknowledged_exact_overflow :
    Meets step (fun g l => AckedOnce g l ∧ InTime g l) (initial (2 ^ 63 - 1))
        [.nextValue, .nextValue, .mark (2 ^ 63 - 1), .mark (-2 ^ 63), .tryLock, .scan, .scan, .scan, .publish] ∧
      ∃ g, exec step (initial (2 ^ 63 - 1))
          [.nextValue, .nextValue, .mark (2 ^ 63 - 1), .mark (-2 ^ 63), .tryLock, .scan, .scan, .scan, .publish] =
          some g ∧
        g.holder = .published ∧ g.quiet = true ∧
        ¬ IsGreatest {L | ∀ v, (2 ^ 63 - 1 : ℤ) ≤ v → v ≤ L → v ∈ g.acked} g.lastValue := by
  refine ⟨by decide, ?_⟩
  have hfinal : (exec step (initial (2 ^ 63 - 1))
      [.nextValue, .nextValue, .mark (2 ^ 63 - 1), .mark (-2 ^ 63), .tryLock, .scan, .scan, .scan, .publish]).map
        (fun g => (g.holder, g.quiet, g.lastValue, g.acked)) =
      some (.published, true, -2 ^ 63, [-2 ^ 63, 2 ^ 63 - 1]) := by decide
  obtain ⟨g, hrun, hg⟩ := Option.map_eq_some_iff.mp hfinal
  simp only [Prod.mk.injEq] at hg
  obtain ⟨hholder, hquiet, hlast, hacked⟩ := hg
  refine ⟨g, hrun, hholder, hquiet, fun hgreatest => ?_⟩
  have hle : (2 ^ 63 - 1 : ℤ) ≤ g.lastValue := hgreatest.2 fun v hv hle => by
    rw [hacked, le_antisymm hle hv]
    exact List.mem_cons_of_mem _ List.mem_cons_self
  rw [hlast] at hle
  exact absurd hle (by decide)

end YcsbIvs.Generator.AcknowledgedCounterGenerator
