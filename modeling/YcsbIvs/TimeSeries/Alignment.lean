import YcsbIvs.TimeSeries.Queries
import YcsbIvs.TimeSeries.Reachable
import Mathlib.Algebra.GroupWithZero.Divisibility

/-!
# The timestamps that are stored

The timestamp generator counts in steps of `getOffset(1)`: the interval, in seconds if the unit is minutes, hours or days. The timestamps that queries ask for are such
steps after the first, and those that `nextDataPoint` stores are to be on the same grid.

Those of delayed inserts and of updates are not: they are the current or the first timestamp and a number of intervals, which are not scaled. **They are on the grid just if
that number is a multiple of the scale of the unit**, or the interval is 0 (`storesAligned_iff`), as long as the numbers fit. So they always are if the unit is
seconds or milliseconds (the scale is 1), and a delay of one interval of minutes is not.
-/

namespace YcsbIvs.TimeSeries

open YcsbIvs.Foundations YcsbIvs.Generator

/-! ### The grid -/

/-- `getOffset(1)`. -/
def gridStep (w : TimeSeriesWorkload) : ℤ := offsetOf w.timestampInterval w.timeUnits 1

/-- The timestamp is on the grid of the thread. -/
def Aligned (w : TimeSeriesWorkload) (s : ThreadState) (timestamp : ℤ) : Prop := ∃ k : ℤ, timestamp = s.startTimestamp + k * gridStep w

/-- By how many intervals the timestamp of the point is off: an insert by those of the delay, an update by those drawn. -/
def turnShift (w : TimeSeriesWorkload) (s : ThreadState) (isInsert : Bool) (draws : Draws) : ℤ :=
  if isInsert then
    if w.delayedSeries.positive ∧ w.delayedSeries.above (turnNumber w s) w.totalCardinality then
      let modulo := (turnNumber w s).tmod w.delayedIntervals
      if modulo < 0 then asInt (modulo * -1) else modulo
    else 0
  else draws.intervals % asInt ((asLong (s.timestampGenerator.currentTimestamp - s.startTimestamp)).tdiv w.timestampInterval)

/-- The timestamp, if nothing overflows. -/
def exactTimestamp (w : TimeSeriesWorkload) (s : ThreadState) (isInsert : Bool) (draws : Draws) : ℤ :=
  if isInsert then s.timestampGenerator.currentTimestamp - w.timestampInterval * turnShift w s isInsert draws
  else s.startTimestamp + w.timestampInterval * turnShift w s isInsert draws

/-- The timestamp that the generator goes on to, if nothing overflows. -/
def exactNext (w : TimeSeriesWorkload) (s : ThreadState) : ℤ :=
  match s.timestampGenerator.offsets with
  | none => s.timestampGenerator.currentTimestamp + gridStep w
  | some offsets => s.startTimestamp + (offsets.getD s.timestampGenerator.offsetIndex 0 - offsets.getD 0 0) * gridStep w

/-! ### What is stored, and when it is right -/

/-- Each timestamp that the call stores is on the grid. If the value has the name of the timestamp none is stored. -/
def StoresAligned (w : TimeSeriesWorkload) (s : ThreadState) (call : Bool × Draws) : Prop :=
  ∀ point s', nextDataPoint w s call.1 call.2 = .ok (point, s') → w.timestampKey ≠ w.valueKey →
    ∀ timestamp, point.map.get w.timestampKey = some (.long timestamp) → Aligned w s timestamp

/-- The shift of the call is a whole number of steps. -/
def ShiftsWhole (w : TimeSeriesWorkload) (s : ThreadState) (call : Bool × Draws) : Prop :=
  ∀ s₁, atTurn w s call.2 = .ok s₁ → w.timestampKey ≠ w.valueKey → w.timestampInterval = 0 ∨ w.timeUnits.scale ∣ turnShift w s₁ call.1 call.2

/-- The number of rounds of a call of `nextDataPoint`. -/
def roundsOf (w : TimeSeriesWorkload) (draws : Draws) : ℕ :=
  if w.sparsity.nonPositive then 1 else (max 1 (draws.iterations % w.sparsity.times w.perKeyCardinality)).toNat

/-- The numbers of the call fit: the timestamps that the generator goes through, and the shift and the timestamp of the point. -/
structure InRange (w : TimeSeriesWorkload) (s : ThreadState) (call : Bool × Draws) : Prop where
  rounds : ∀ n < roundsOf w call.2, ∀ s', passOver w n s = .ok s' → s'.rollover = true → FitsLong (exactNext w s')
  shift : ∀ s₁, atTurn w s call.2 = .ok s₁ → FitsInt (w.timestampInterval * turnShift w s₁ call.1 call.2)
  timestamp : ∀ s₁, atTurn w s call.2 = .ok s₁ → FitsLong (exactTimestamp w s₁ call.1 call.2)

section

variable {w : TimeSeriesWorkload} {s s' s₁ : ThreadState}

theorem gridStep_eq (h : FitsInt w.timestampInterval) : gridStep w = w.timestampInterval * w.timeUnits.scale := by
  have hscale : 1 ≤ w.timeUnits.scale ∧ w.timeUnits.scale ≤ 86400 := by
    cases w.timeUnits <;> decide
  rw [gridStep, offsetOf, one_mul]
  refine asLong_of_fits ?_
  rw [FitsInt] at h
  constructor
  · nlinarith
  · nlinarith

/-- The timestamps that queries begin at are on the grid. -/
theorem aligned_startOf (hinterval : FitsInt w.timestampInterval) (hgenerator : ∀ n, s.timestampGenerator.getOffset n = offsetOf w.timestampInterval w.timeUnits n)
    {offsets : ℤ} (hoffset : FitsLong (offsets * gridStep w)) (hstart : FitsLong (s.startTimestamp + offsets * gridStep w)) :
    Aligned w s (startOf s offsets) := by
  rw [startOf]
  by_cases hpos : 0 < offsets
  · refine ⟨offsets, ?_⟩
    rw [if_pos hpos, hgenerator, offsetOf, mul_assoc, ← gridStep_eq hinterval, asLong_of_fits hoffset, asLong_of_fits hstart]
  · rw [if_neg hpos]
    exact ⟨0, by rw [zero_mul, add_zero]⟩

/-- From a point of the grid, so many intervals are on it just if they are whole steps. -/
theorem aligned_shift_iff (hinterval : FitsInt w.timestampInterval) {base : ℤ} (hbase : Aligned w s base) (shift : ℤ) :
    Aligned w s (base + w.timestampInterval * shift) ↔ w.timestampInterval = 0 ∨ w.timeUnits.scale ∣ shift := by
  obtain ⟨b, rfl⟩ := hbase
  have hdvd : Aligned w s (s.startTimestamp + b * gridStep w + w.timestampInterval * shift) ↔ gridStep w ∣ w.timestampInterval * shift := by
    constructor
    · rintro ⟨k, hk⟩
      refine ⟨k - b, ?_⟩
      linarith
    · rintro ⟨c, hc⟩
      refine ⟨b + c, ?_⟩
      linarith
  rw [hdvd, gridStep_eq hinterval]
  by_cases hzero : w.timestampInterval = 0
  · rw [hzero, zero_mul, zero_mul]
    exact iff_of_true (dvd_refl 0) (.inl rfl)
  · rw [mul_dvd_mul_iff_left hzero, or_iff_right hzero]

/-! ### The generator stays on the grid -/

/-- The timestamps of the thread are on the grid: those of its generator, which is one of the workload's interval and unit. -/
structure OnTrack (w : TimeSeriesWorkload) (s : ThreadState) : Prop where
  getOffset : ∀ n, s.timestampGenerator.getOffset n = offsetOf w.timestampInterval w.timeUnits n
  current : Aligned w s s.timestampGenerator.currentTimestamp
  first : ∀ offsets, s.timestampGenerator.offsets = some offsets →
    s.startTimestamp = asLong (s.timestampGenerator.startTimestamp + offsets.getD 0 0 * gridStep w)

theorem OnTrack.countOn (h : OnTrack w s) : OnTrack w (countOn w s) := by
  rw [TimeSeries.countOn]
  dsimp only
  split_ifs <;> exact ⟨h.getOffset, h.current, h.first⟩

theorem startTimestamp_countOn : (TimeSeries.countOn w s).startTimestamp = s.startTimestamp := by
  rw [TimeSeries.countOn]
  dsimp only
  split_ifs <;> rfl

theorem startTimestamp_advance (h : TimeSeries.advance s = .ok s') : s'.startTimestamp = s.startTimestamp := by
  rw [TimeSeries.advance] at h
  split_ifs at h
  · obtain ⟨r, -, h⟩ := bind_inv h
    cases h
    rfl
  · cases h
    rfl

/-- What a generator gives, and what it keeps. -/
structure Given (g : TimestampGenerator) (r : ℤ × TimestampGenerator) : Prop where
  current : r.2.currentTimestamp = r.1
  getOffset : ∀ n, r.2.getOffset n = g.getOffset n
  startTimestamp : r.2.startTimestamp = g.startTimestamp
  offsets : r.2.offsets = g.offsets
  counts : g.offsets = none → r.1 = asLong (g.currentTimestamp + g.getOffset 1)
  draws : ∀ offsets, g.offsets = some offsets → r.1 = asLong (g.startTimestamp + offsets.getD g.offsetIndex 0 * g.getOffset 1)

theorem nextValue_given {g : TimestampGenerator} {r : ℤ × TimestampGenerator} (h : g.nextValue = .ok r) : Given g r := by
  rw [TimestampGenerator.nextValue] at h
  cases hoffsets : g.offsets with
  | none =>
    rw [hoffsets] at h
    cases h
    refine ⟨rfl, fun n => rfl, rfl, hoffsets.symm, fun _ => rfl, fun offsets ho => ?_⟩
    rw [hoffsets] at ho
    cases ho
  | some offsets =>
    rw [hoffsets] at h
    dsimp only at h
    cases hoffset : offsets[g.offsetIndex]? with
    | none =>
      rw [hoffset] at h
      cases h
    | some offset =>
      rw [hoffset] at h
      cases h
      refine ⟨rfl, fun n => rfl, rfl, hoffsets.symm, fun hnone => ?_, fun offsets' ho => ?_⟩
      · rw [hoffsets] at hnone
        cases hnone
      · rw [hoffsets] at ho
        cases ho
        rw [List.getD_eq_getElem?_getD, hoffset, Option.getD_some]

/-- What the generator goes on to, if it fits. -/
theorem nextValue_exact (h : OnTrack w s) (hfits : FitsLong (exactNext w s)) {r : ℤ × TimestampGenerator} (hr : s.timestampGenerator.nextValue = .ok r) :
    r.1 = exactNext w s := by
  have hgiven := nextValue_given hr
  rw [exactNext] at hfits ⊢
  cases hoffsets : s.timestampGenerator.offsets with
  | none =>
    rw [hoffsets] at hfits
    dsimp only at hfits ⊢
    rw [hgiven.counts hoffsets, h.getOffset 1]
    exact asLong_of_fits hfits
  | some offsets =>
    rw [hoffsets] at hfits
    dsimp only at hfits ⊢
    rw [hgiven.draws offsets hoffsets, h.getOffset 1, ← asLong_of_fits hfits, h.first offsets hoffsets, asLong_asLong_add, gridStep]
    congr 1
    ring

theorem OnTrack.advance (h : OnTrack w s) (hfits : s.rollover = true → FitsLong (exactNext w s)) (hadvance : advance s = .ok s') : OnTrack w s' := by
  rw [TimeSeries.advance] at hadvance
  by_cases hrollover : s.rollover = true
  · rw [if_pos hrollover] at hadvance
    obtain ⟨r, hr, hadvance⟩ := bind_inv hadvance
    cases hadvance
    have hgiven := nextValue_given hr
    refine ⟨fun n => (hgiven.getOffset n).trans (h.getOffset n), ?_, fun offsets ho => ?_⟩
    · change Aligned w s r.2.currentTimestamp
      rw [hgiven.current, nextValue_exact h (hfits hrollover) hr, exactNext]
      cases s.timestampGenerator.offsets with
      | none =>
        obtain ⟨k, hk⟩ := h.current
        refine ⟨k + 1, ?_⟩
        dsimp only
        rw [hk]
        ring
      | some offsets => exact ⟨_, rfl⟩
    · dsimp only
      rw [hgiven.startTimestamp]
      exact h.first offsets (hgiven.offsets ▸ ho)
  · rw [if_neg hrollover] at hadvance
    cases hadvance
    exact h

theorem OnTrack.passOver {n : ℕ} (h : OnTrack w s) (hfits : ∀ m < n, ∀ s', passOver w m s = .ok s' → s'.rollover = true → FitsLong (exactNext w s'))
    (hpass : passOver w n s = .ok s') : OnTrack w s' := by
  induction n generalizing s with
  | zero =>
    cases hpass
    exact h
  | succ n ih =>
    obtain ⟨s₁, hs₁, hpass⟩ := bind_inv hpass
    refine ih (h.advance (hfits 0 n.succ_pos s rfl) hs₁).countOn (fun m hm s' hs' => ?_) hpass
    refine hfits (m + 1) (Nat.succ_lt_succ hm) s' ?_
    rw [TimeSeries.passOver, bind_ok hs₁, hs']

/-- The rounds of a call, the last without its point. -/
theorem atTurn_inv {draws : Draws} (h : atTurn w s draws = .ok s₁) :
    ∃ n s', roundsOf w draws = n + 1 ∧ passOver w n s = .ok s' ∧ TimeSeries.advance s' = .ok s₁ := by
  rw [atTurn] at h
  rw [roundsOf]
  by_cases hsparsity : w.sparsity.nonPositive = true
  · rw [if_pos hsparsity] at h ⊢
    obtain ⟨iterations, hone, h⟩ := bind_inv h
    cases hone
    obtain ⟨s', hpass, h⟩ := bind_inv h
    exact ⟨0, s', rfl, hpass, h⟩
  · rw [if_neg hsparsity] at h ⊢
    obtain ⟨iterations, hnext, h⟩ := bind_inv h
    obtain ⟨s', hpass, h⟩ := bind_inv h
    refine ⟨_, s', ?_, hpass, h⟩
    rw [nextInt] at hnext
    split_ifs at hnext
    cases hnext
    split_ifs with hone
    · rw [max_eq_left (by omega)]
      rfl
    · rw [max_eq_right (by omega)]
      omega

theorem OnTrack.atTurn {call : Bool × Draws} (h : OnTrack w s) (hrange : InRange w s call) (hturn : atTurn w s call.2 = .ok s₁) : OnTrack w s₁ := by
  obtain ⟨n, s', hrounds, hpass, hadvance⟩ := atTurn_inv hturn
  have hs' : OnTrack w s' := h.passOver (fun m hm => hrange.rounds m (by omega)) hpass
  exact hs'.advance (hrange.rounds n (by omega) s' hpass) hadvance

theorem OnTrack.nextState {call : Bool × Draws} (h : OnTrack w s) (hrange : InRange w s call) (hstep : nextState w s call = some s') : OnTrack w s' := by
  obtain ⟨point, hnext⟩ := nextState_eq_some hstep
  rw [nextDataPoint_eq] at hnext
  obtain ⟨s₁, hturn, hnext⟩ := bind_inv hnext
  obtain ⟨point', -, hnext⟩ := bind_inv hnext
  cases hnext
  exact (h.atTurn hrange hturn).countOn

/-- A new generator, of a clock or a start, and with offsets in a random order or none. -/
theorem newTimestampGenerator_inv {clock : Clock} {shuffle : List ℤ → List ℤ} {g : TimestampGenerator} (h : newTimestampGenerator w clock shuffle = .ok g) :
    (∀ n, g.getOffset n = offsetOf w.timestampInterval w.timeUnits n) ∧ g.offsetIndex = 0 := by
  rw [newTimestampGenerator] at h
  have hmade : ∃ g' : TimestampGenerator, (∀ n, g'.getOffset n = offsetOf w.timestampInterval w.timeUnits n) ∧ g'.offsetIndex = 0 ∧
      (if w.randomizeTimestampOrder then rethrow (g'.setup w.maxOffsets shuffle) else .ok g') = .ok g := by
    cases hstart : w.insertstart with
    | unset =>
      rw [hstart] at h
      exact ⟨_, fun n => rfl, rfl, h⟩
    | notANumber =>
      rw [hstart] at h
      cases h
    | «at» start =>
      rw [hstart] at h
      exact ⟨_, fun n => rfl, rfl, h⟩
  obtain ⟨g', hoffset, hindex, h⟩ := hmade
  by_cases horder : w.randomizeTimestampOrder = true
  · rw [if_pos horder] at h
    have hsetup := rethrow_eq_ok h
    rw [TimestampGenerator.setup] at hsetup
    split_ifs at hsetup
    cases hsetup
    exact ⟨hoffset, rfl⟩
  · rw [if_neg horder] at h
    cases h
    exact ⟨hoffset, hindex⟩

/-- A new thread is on the grid. -/
theorem onTrack_newThreadState {clock : Clock} {shuffle : List ℤ → List ℤ} {threadID threadCount : ℤ}
    (h : newThreadState w clock shuffle threadID threadCount = .ok s) : OnTrack w s := by
  obtain ⟨g, hg, hfirst⟩ := newThreadState_timestamps h
  obtain ⟨hoffset, hindex⟩ := newTimestampGenerator_inv hg
  have hgiven := nextValue_given hfirst
  refine ⟨fun n => (hgiven.getOffset n).trans (hoffset n), ⟨0, ?_⟩, fun offsets ho => ?_⟩
  · rw [zero_mul, add_zero]
    exact hgiven.current
  · have hstart := hgiven.draws offsets (hgiven.offsets ▸ ho)
    rw [hindex, hoffset 1] at hstart
    exact hstart.trans (by rw [hgiven.startTimestamp]; rfl)

/-! ### The points -/

/-- The timestamp that the point is stored under. -/
theorem get_timestampKey {isInsert : Bool} {draws : Draws} {point : DataPoint} (hne : w.timestampKey ≠ w.valueKey)
    (h : makePoint w s isInsert draws = .ok point) : point.map.get w.timestampKey = some (.long (turnTimestamp w s isInsert draws)) := by
  obtain ⟨key, -, h⟩ := bind_inv h
  obtain ⟨weight, hweight, h⟩ := bind_inv h
  obtain ⟨t, htags, h⟩ := bind_inv h
  obtain ⟨timestamp, htimestamp, h⟩ := bind_inv h
  obtain ⟨value, -, h⟩ := bind_inv h
  cases h
  rw [SortedMap.get_put, if_neg hne, SortedMap.get_put, if_pos rfl,
    timestampOf_inv (fun hdelayed => overallIdx_eq_turnNumber hdelayed hweight htags) htimestamp]

/-- If the numbers fit it is the exact one. -/
theorem turnTimestamp_exact {isInsert : Bool} {draws : Draws} (hshift : FitsInt (w.timestampInterval * turnShift w s isInsert draws))
    (htimestamp : FitsLong (exactTimestamp w s isInsert draws)) : turnTimestamp w s isInsert draws = exactTimestamp w s isInsert draws := by
  rw [exactTimestamp] at htimestamp ⊢
  rw [turnTimestamp]
  cases isInsert with
  | false =>
    rw [if_neg (by decide)] at htimestamp ⊢
    rw [if_neg (by decide)]
    rw [← asLong_of_fits htimestamp, ← asInt_of_fits hshift, turnShift, if_neg (by decide), mul_comm w.timestampInterval]
  | true =>
    rw [if_pos rfl] at htimestamp ⊢
    rw [if_pos rfl]
    have hdelay : turnDelay w s = w.timestampInterval * turnShift w s true draws := by
      rw [← asInt_of_fits hshift, turnDelay, turnShift, if_pos rfl]
      by_cases hdelayed : w.delayedSeries.positive ∧ w.delayedSeries.above (turnNumber w s) w.totalCardinality
      · rw [if_pos hdelayed, if_pos hdelayed]
      · rw [if_neg hdelayed, if_neg hdelayed, mul_zero]
        rfl
    rw [hdelay, asLong_of_fits htimestamp]

/-- So it is on the grid just if the shift is a whole number of steps. -/
theorem OnTrack.aligned_iff (h : OnTrack w s) (hinterval : FitsInt w.timestampInterval) (isInsert : Bool) (draws : Draws) :
    Aligned w s (exactTimestamp w s isInsert draws) ↔ w.timestampInterval = 0 ∨ w.timeUnits.scale ∣ turnShift w s isInsert draws := by
  rw [exactTimestamp]
  cases isInsert with
  | false =>
    rw [if_neg (by decide)]
    exact aligned_shift_iff hinterval ⟨0, by rw [zero_mul, add_zero]⟩ _
  | true =>
    rw [if_pos rfl, sub_eq_add_neg, ← mul_neg, aligned_shift_iff hinterval h.current, dvd_neg]

/-- A call of a thread that is on the grid. -/
theorem storesAligned_step (h : OnTrack w s) (hinterval : FitsInt w.timestampInterval) {call : Bool × Draws} (hrange : InRange w s call)
    (hstep : nextState w s call = some s') : StoresAligned w s call ↔ ShiftsWhole w s call := by
  obtain ⟨point, hnext⟩ := nextState_eq_some hstep
  obtain ⟨s₁, hturn, hmake⟩ := bind_inv ((nextDataPoint_eq s call.1 call.2).symm.trans hnext)
  have hpoint := makePoint_of_nextDataPoint hnext hturn
  have hexact := turnTimestamp_exact (hrange.shift s₁ hturn) (hrange.timestamp s₁ hturn)
  have hstart : s₁.startTimestamp = s.startTimestamp :=
    atTurn_keeps (I := fun t => t.startTimestamp = s.startTimestamp)
      (fun t t' ht hadvance => by rw [← ht, startTimestamp_advance hadvance]) (fun t ht => by rw [startTimestamp_countOn, ht]) rfl hturn
  have haligned := (h.atTurn hrange hturn).aligned_iff hinterval call.1 call.2
  have hsame : ∀ timestamp, Aligned w s timestamp ↔ Aligned w s₁ timestamp := by
    intro timestamp
    rw [Aligned, Aligned, hstart]
  constructor
  · intro hstores t ht hne
    obtain rfl : s₁ = t := Except.ok.inj (hturn.symm.trans ht)
    have hstored := hstores point s' hnext hne _ (get_timestampKey hne hpoint)
    rw [hexact] at hstored
    exact haligned.mp ((hsame _).mp hstored)
  · intro hshift point' t ht hne timestamp hget
    have heq := hnext.symm.trans ht
    cases heq
    rw [get_timestampKey hne hpoint, hexact] at hget
    cases hget
    exact (hsame _).mpr (haligned.mpr (hshift s₁ hturn hne))

/-- **All timestamps that a thread stores are on its grid just if the shifts of its points are whole numbers of steps**, as long as the numbers fit. -/
theorem storesAligned_iff {p : Properties} {shuffles : Shuffles} (hinit : init p shuffles = .ok w) {clock : Clock} {shuffle : List ℤ → List ℤ}
    {threadID threadCount : ℤ} (hthread : newThreadState w clock shuffle threadID threadCount = .ok s) {calls : List (Bool × Draws)}
    (hrun : exec (nextState w) s calls = some s') (hrange : Meets (nextState w) (InRange w) s calls) :
    Meets (nextState w) (StoresAligned w) s calls ↔ Meets (nextState w) (ShiftsWhole w) s calls :=
  meets_congr (I := OnTrack w) (fun _ _ _ h hrange hstep => h.nextState hrange hstep)
    (fun _ _ _ h hrange hstep => storesAligned_step h (fitsInt_timestampInterval hinit) hrange hstep) (onTrack_newThreadState hthread) hrange hrun

end

set_option maxRecDepth 4000 in
/-- The first insert of two series: it is stored under the first timestamp. -/
theorem storesAligned_iff_first :
    ∃ w s s', init integrityOfTwo noShuffles = .ok w ∧ newThreadState w ⟨0, 0⟩ id 0 1 = .ok s ∧
      exec (nextState w) s [(true, ⟨0, 0, 0, 0, false⟩)] = some s' ∧ Meets (nextState w) (StoresAligned w) s [(true, ⟨0, 0, 0, 0, false⟩)] := by
  obtain ⟨w, s, s', s₁, hw, hs, hrun, hrounds, hrollover, hturn, hscale, hshift, htimestamp⟩ : ∃ w s s' s₁, init integrityOfTwo noShuffles = .ok w ∧
      newThreadState w ⟨0, 0⟩ id 0 1 = .ok s ∧ exec (nextState w) s [(true, ⟨0, 0, 0, 0, false⟩)] = some s' ∧
      roundsOf w ⟨0, 0, 0, 0, false⟩ = 1 ∧ s.rollover = false ∧ atTurn w s ⟨0, 0, 0, 0, false⟩ = .ok s₁ ∧ w.timeUnits.scale = 1 ∧
      FitsInt (w.timestampInterval * turnShift w s₁ true ⟨0, 0, 0, 0, false⟩) ∧ FitsLong (exactTimestamp w s₁ true ⟨0, 0, 0, 0, false⟩) :=
    ⟨_, _, _, _, rfl, rfl, rfl, rfl, rfl, rfl, rfl, by decide +kernel, by decide +kernel⟩
  have hrange : InRange w s (true, ⟨0, 0, 0, 0, false⟩) := by
    refine ⟨fun n hn t ht hroll => ?_, fun t ht => ?_, fun t ht => ?_⟩
    · obtain rfl : n = 0 := Nat.lt_one_iff.mp (hn.trans_eq hrounds)
      cases ht
      exact absurd (hrollover.symm.trans hroll) (by decide)
    · rwa [← Except.ok.inj (hturn.symm.trans ht)]
    · rwa [← Except.ok.inj (hturn.symm.trans ht)]
  refine ⟨w, s, s', hw, hs, hrun, (storesAligned_iff hw hs hrun ⟨hrange, fun _ _ => trivial⟩).mpr ⟨fun t _ _ => .inr ?_, fun _ _ => trivial⟩⟩
  rw [hscale]
  exact one_dvd _

/-- The same properties with minutes. -/
def minutesOfTwo : Properties := { integrityOfTwo with timestampunits := some .minutes }

set_option maxRecDepth 4000 in
/-- The second insert is delayed by one interval, of 60 seconds. A step of the grid is of 60 minutes. -/
theorem not_storesAligned :
    ¬ ∀ (p : Properties) (shuffles : Shuffles) (w : TimeSeriesWorkload), init p shuffles = .ok w →
      ∀ (clock : Clock) (shuffle : List ℤ → List ℤ) (threadID threadCount : ℤ) (s : ThreadState), 0 ≤ threadID →
        newThreadState w clock shuffle threadID threadCount = .ok s → ∀ (calls : List (Bool × Draws)) (s₁ : ThreadState),
          exec (nextState w) s calls = some s₁ → Meets (nextState w) (StoresAligned w) s calls := by
  intro h
  obtain ⟨w, s, s₁, s₂, point, hw, hs, hs₁, hs₂, hpoint, hne, hget, hstart, hgrid⟩ : ∃ w s s₁ s₂ point, init minutesOfTwo noShuffles = .ok w ∧
      newThreadState w ⟨0, 0⟩ id 0 1 = .ok s ∧ nextState w s (true, ⟨0, 0, 0, 0, false⟩) = some s₁ ∧
      exec (nextState w) s (List.replicate 2 (true, ⟨0, 0, 0, 0, false⟩)) = some s₂ ∧
      nextDataPoint w s₁ true ⟨0, 0, 0, 0, false⟩ = .ok (point, s₂) ∧ w.timestampKey ≠ w.valueKey ∧
      point.map.get w.timestampKey = some (.long 1451606340) ∧ s₁.startTimestamp = 1451606400 ∧ gridStep w = 3600 :=
    ⟨_, _, _, _, _, rfl, rfl, rfl, rfl, rfl, by decide, by decide, rfl, by decide⟩
  have hall := h _ _ w hw _ _ _ _ s (le_refl 0) hs _ s₂ hs₂
  obtain ⟨k, hk⟩ := (hall.2 s₁ hs₁).1 point s₂ hpoint hne _ hget
  rw [hstart, hgrid] at hk
  omega

end YcsbIvs.TimeSeries
