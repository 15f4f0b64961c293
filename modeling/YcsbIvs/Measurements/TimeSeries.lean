import YcsbIvs.Foundations.Segments
import YcsbIvs.Measurements.Histogram

/-!
# The time series of latencies

A `OneMeasurementTimeSeries` averages its latencies over units of `timeseries.granularity` milliseconds, counted from the first one. The unit that a latency falls
into is known when it is measured, and the unit before is closed then; the last one is closed by `exportMeasurements`.

**As long as the clock does not go back, nothing is lost or put into a wrong unit** (`charts_run`): what is exported has one row for each unit with a latency, in
order, with the exact mean of the latencies of that unit. Units without a latency have no row. If there was none at all, there is still one row, for the time `0`,
and its mean is not a number.
-/

namespace YcsbIvs.Measurements

open YcsbIvs.Foundations YcsbIvs.Core

/-- `OneMeasurementTimeSeries`. -/
structure OneMeasurementTimeSeries where
  /-- `getName()`. -/
  name : String
  /-- `granularity`. -/
  granularity : ℤ
  /-- The units that are closed: when they begin, and their means. -/
  measurements : List (ℤ × Option ℚ)
  /-- When the first latency was measured, or `-1`. -/
  start : ℤ
  /-- When the open unit begins, or `-1`. -/
  currentunit : ℤ
  /-- How many latencies it has. -/
  count : ℤ
  /-- Their total. -/
  sum : ℤ
  /-- The number of operations. -/
  operations : ℤ
  /-- Their total. -/
  totallatency : ℤ
  /-- The number of operations since the last summary. -/
  windowoperations : ℤ
  /-- Their total. -/
  windowtotallatency : ℤ
  /-- The least latency, or `-1`. -/
  min : ℤ
  /-- The greatest latency, or `-1`. -/
  max : ℤ

namespace OneMeasurementTimeSeries

/-- The default of `timeseries.granularity` is an `int`. -/
theorem fitsInt_granularity_default : FitsInt 1000 := by decide

/-- `new OneMeasurementTimeSeries(name, props)`, with `timeseries.granularity` as parsed, if it is set. -/
def new (name : String) (granularity : Option Word) : OneMeasurementTimeSeries :=
  ⟨name, (granularity.getD ⟨1000, fitsInt_granularity_default⟩).1, [], -1, -1, 0, 0, 0, 0, 0, 0, -1, -1⟩

/-- The test for the first latency. -/
def begun (h : OneMeasurementTimeSeries) (now : ℤ) : OneMeasurementTimeSeries :=
  if h.start < 0 then { h with currentunit := 0, start := now } else h

/-- The start of the unit that a time is in. -/
def unit (h : OneMeasurementTimeSeries) (now : ℤ) : ℤ := asLong ((asLong (now - h.start)).tdiv h.granularity * h.granularity)

/-- `checkEndOfUnit(forceend)`, at a time; nothing if it throws an `ArithmeticException`. -/
def checkEndOfUnit (h : OneMeasurementTimeSeries) (now : ℤ) (forceend : Bool) : Option OneMeasurementTimeSeries :=
  let h := h.begun now
  if h.granularity = 0 then none
  else if h.unit now > h.currentunit ∨ forceend then
    some { h with measurements := h.measurements ++ [(h.currentunit, ratio h.sum h.count)], currentunit := h.unit now, count := 0, sum := 0 }
  else some h

/-- `measure(latency)` after the unit has been checked. -/
def add (h : OneMeasurementTimeSeries) (latency : ℤ) : OneMeasurementTimeSeries :=
  { h with
    count := asLong (h.count + 1)
    sum := asLong (h.sum + latency)
    totallatency := asLong (h.totallatency + latency)
    operations := asLong (h.operations + 1)
    windowoperations := asInt (h.windowoperations + 1)
    windowtotallatency := asLong (h.windowtotallatency + latency)
    max := if latency > h.max then latency else h.max
    min := if latency < h.min ∨ h.min < 0 then latency else h.min }

/-- `measure(latency)`, at a time. -/
def measure (h : OneMeasurementTimeSeries) (now latency : ℤ) : Option OneMeasurementTimeSeries :=
  (h.checkEndOfUnit now false).map fun h => h.add latency

/-- `exportMeasurements(exporter)`, at a time: what is written under the name, with the counts of the statuses as they are. -/
def exportMeasurements (h : OneMeasurementTimeSeries) (now : ℤ) (returncodes : List (String × ℤ)) : Option (List (String × Value)) :=
  (h.checkEndOfUnit now true).map fun h =>
    [("Operations", .long h.operations), ("AverageLatency(us)", .double (ratio h.totallatency h.operations)), ("MinLatency(us)", .int h.min),
      ("MaxLatency(us)", .int h.max)] ++
    (returncodes.map fun entry => ("Return=" ++ entry.1, .int entry.2)) ++
    h.measurements.map fun u => (toString u.1, .double u.2)

/-- `getSummary()`: its result, and what it leaves. -/
def getSummary (h : OneMeasurementTimeSeries) (format : ℚ → String) : String × OneMeasurementTimeSeries :=
  if h.windowoperations = 0 then ("", h)
  else
    (OneMeasurementHistogram.summary h.name format (h.windowtotallatency / h.windowoperations), { h with windowtotallatency := 0, windowoperations := 0 })

/-! ### Runs -/

/-- A call. -/
inductive TimedCall where
  /-- `measure(latency)`, at a time. -/
  | measure (now : ℤ) (latency : Latency)
  /-- `getSummary()`. -/
  | getSummary
  deriving DecidableEq

/-- The summaries of a run, and the measurement after it. -/
def run (format : ℚ → String) : OneMeasurementTimeSeries → List TimedCall → Option (List String × OneMeasurementTimeSeries)
  | h, [] => some ([], h)
  | h, .measure now latency :: calls => (h.measure now latency).bind fun h => run format h calls
  | h, .getSummary :: calls => (run format (h.getSummary format).2 calls).map fun r => ((h.getSummary format).1 :: r.1, r.2)

/-- What is measured, and when. -/
def samples : List TimedCall → List (ℤ × Latency)
  | [] => []
  | .measure now latency :: calls => (now, latency) :: samples calls
  | .getSummary :: calls => samples calls

/-- The call as one of the histogram. -/
def TimedCall.untimed : TimedCall → Measurements.Call
  | .measure _ latency => .measure latency
  | .getSummary => .getSummary

/-- The start of the unit that a time is in, when the first latency was measured at `start`. -/
def unitOf (granularity start now : ℤ) : ℤ := (now - start) / granularity * granularity

/-- The samples, by their units. -/
def keyed (granularity start : ℤ) (xs : List (ℤ × Latency)) : List (ℤ × Latency) := xs.map fun x => (unitOf granularity start x.1, x.2)

/-- The row of a unit. -/
def chart (e : ℤ × List Latency) : ℤ × Option ℚ := (e.1, ratio (total e.2) e.2.length)

/-- The units after some samples. -/
structure Charts (g : ℤ) (xs : List (ℤ × Latency)) (h : OneMeasurementTimeSeries) : Prop where
  /-- The granularity. -/
  granularity : h.granularity = g
  /-- Before the first latency. -/
  first : xs = [] → h.start = -1 ∧ h.measurements = [] ∧ h.count = 0 ∧ h.sum = 0
  /-- After it. -/
  units : ∀ x, xs.head? = some x → h.start = x.1 ∧ ∃ s : Segments ℤ Latency, Groups (keyed g x.1 xs) s.all ∧
    h.measurements = s.closed.map chart ∧ h.currentunit = s.key ∧ h.count = s.values.length ∧ h.sum = total s.values

/-- The rest, after some latencies, `window` of them since the last summary. -/
structure Tallies (latencies window : List Latency) (h : OneMeasurementTimeSeries) : Prop where
  /-- The number. -/
  operations : h.operations = latencies.length
  /-- The total. -/
  totallatency : h.totallatency = total latencies
  /-- The number in the window. -/
  windowoperations : h.windowoperations = window.length
  /-- Their total. -/
  windowtotallatency : h.windowtotallatency = total window
  /-- The least. -/
  min : Extreme (· ≤ ·) latencies h.min
  /-- The greatest. -/
  max : Extreme (· ≥ ·) latencies h.max

/-! ### Units -/

section

variable {g start now : ℤ}

/-- The unit of a time that is not before the first. -/
theorem unit_eq {h : OneMeasurementTimeSeries} (hg : 0 < h.granularity) (hstart : 0 ≤ h.start) (hle : h.start ≤ now) (hfits : now < 2 ^ 63) :
    h.unit now = unitOf h.granularity h.start now := by
  have hdiff : asLong (now - h.start) = now - h.start := asLong_of_fits (by unfold FitsLong; omega)
  have hmul := Int.ediv_mul_le (now - h.start) hg.ne'
  have hnonneg : 0 ≤ (now - h.start) / h.granularity * h.granularity :=
    mul_nonneg (Int.ediv_nonneg (by omega) hg.le) hg.le
  rw [unit, hdiff, Int.tdiv_eq_ediv_of_nonneg (by omega), unitOf]
  exact asLong_of_fits (by unfold FitsLong; omega)

/-- A later time is in no earlier unit. -/
theorem unitOf_mono (hg : 0 < g) {t t' : ℤ} (h : t ≤ t') : unitOf g start t ≤ unitOf g start t' :=
  Int.mul_le_mul_of_nonneg_right (Int.ediv_le_ediv hg (by omega)) hg.le

theorem unitOf_self (g start : ℤ) : unitOf g start start = 0 := by
  rw [unitOf, sub_self, Int.zero_ediv, Int.zero_mul]

end

/-! ### Totals -/

theorem total_le (latencies : List Latency) : total latencies ≤ latencies.length * (2 ^ 31 - 1) := by
  induction latencies with
  | nil => exact le_refl 0
  | cons l latencies ih =>
    have hl := l.2.2
    rw [total, List.map_cons, List.sum_cons, List.length_cons, ← total]
    push_cast
    omega

/-- The totals of fewer than `2³¹` latencies are `long`s. -/
theorem fit_of_length {latencies : List Latency} (h : latencies.length < 2 ^ 31) : Fit latencies := by
  have hle := total_le latencies
  exact ⟨by omega, by omega⟩

theorem length_valuesAt_keyed (g start : ℤ) (xs : List (ℤ × Latency)) (k : ℤ) : (valuesAt (keyed g start xs) k).length ≤ xs.length := by
  have hkeyed : (keyed g start xs).length = xs.length := List.length_map _
  rw [valuesAt, List.length_map, ← hkeyed]
  exact List.length_filter_le _ _

/-! ### What a run keeps -/

variable {g now : ℤ} {xs : List (ℤ × Latency)} {window : List Latency} {h : OneMeasurementTimeSeries}

/-- The first latency opens the unit `0`. -/
theorem checkEndOfUnit_first (hcharts : Charts g [] h) (hg : 0 < g) (forceend : Bool) :
    h.checkEndOfUnit now forceend = some
      (if forceend then { h with start := now, measurements := [(0, none)], currentunit := 0, count := 0, sum := 0 }
        else { h with start := now, currentunit := 0 }) := by
  obtain ⟨hstart, hmeasurements, hcount, -⟩ := hcharts.first rfl
  have hbegun : h.begun now = { h with currentunit := 0, start := now } := by
    rw [begun, hstart, if_pos (by decide)]
  have hunit : (h.begun now).unit now = 0 := by
    rw [hbegun, unit, sub_self]
    show asLong ((asLong 0).tdiv h.granularity * h.granularity) = 0
    simp [asLong]
  rw [checkEndOfUnit, hunit, hbegun]
  dsimp only
  rw [if_neg (by rw [hcharts.granularity]; exact hg.ne')]
  cases forceend with
  | true => simp [hmeasurements, hcount, ratio]
  | false => simp

/-- A later one closes the unit `u` if it is in another. -/
theorem checkEndOfUnit_next {start u : ℤ} (hgranularity : h.granularity = g) (hg : 0 < g) (hstart : h.start = start) (hnonneg : 0 ≤ start) (hle : start ≤ now)
    (hfits : now < 2 ^ 63) (hunit : h.currentunit = u) (forceend : Bool) :
    h.checkEndOfUnit now forceend = some
      (if unitOf g start now > u ∨ forceend then
        { h with measurements := h.measurements ++ [(u, ratio h.sum h.count)], currentunit := unitOf g start now, count := 0, sum := 0 }
      else h) := by
  subst hgranularity hstart hunit
  have hbegun : h.begun now = h := if_neg (not_lt.mpr hnonneg)
  rw [checkEndOfUnit, hbegun, if_neg hg.ne', unit_eq hg hnonneg hle hfits]
  split_ifs <;> rfl

/-- The unit that is open is not after that of a later time. -/
theorem key_le {x : ℤ × Latency} {s : Segments ℤ Latency} (hgroups : Groups (keyed g x.1 xs) s.all) (hg : 0 < g) (hpast : ∀ y ∈ xs, y.1 ≤ now) :
    s.key ≤ unitOf g x.1 now := by
  have hmem : s.key ∈ s.all.map Prod.fst := List.mem_map.mpr ⟨_, List.mem_append_right _ List.mem_cons_self, rfl⟩
  obtain ⟨e, he, hkey⟩ := List.mem_map.mp ((hgroups.keys _).mp hmem)
  obtain ⟨y, hy, rfl⟩ := List.mem_map.mp he
  rw [← hkey]
  exact unitOf_mono hg (hpast y hy)

theorem keyed_concat (g start : ℤ) (xs : List (ℤ × Latency)) (t : ℤ) (l : Latency) :
    keyed g start (xs ++ [(t, l)]) = keyed g start xs ++ [(unitOf g start t, l)] := List.map_append

/-- **One latency more** in the units. -/
theorem charts_measure (hcharts : Charts g xs h) (hg : 0 < g) (hmany : xs.length + 1 < 2 ^ 31) (hpast : ∀ y ∈ xs, 0 ≤ y.1 ∧ y.1 ≤ now)
    (hfits : now < 2 ^ 63) (l : Latency) :
    ∃ m u c t start, h.checkEndOfUnit now false =
        some { h with measurements := m, currentunit := u, count := c, sum := t, start := start } ∧
      Charts g (xs ++ [(now, l)]) ({ h with measurements := m, currentunit := u, count := c, sum := t, start := start }.add l) := by
  have hone : asLong (0 + 1) = 1 := by decide
  have hlatency : asLong (0 + l.1) = l.1 := by
    rw [Int.zero_add]
    exact asLong_of_fits ⟨by have := l.2.1; omega, by have := l.2.2; omega⟩
  cases hx : xs.head? with
  | none =>
    obtain rfl := List.head?_eq_none_iff.mp hx
    obtain ⟨hstart, hmeasurements, hcount, hsum⟩ := hcharts.first rfl
    refine ⟨h.measurements, 0, h.count, h.sum, now, checkEndOfUnit_first hcharts hg false, hcharts.granularity, fun hnil => (nomatch hnil), ?_⟩
    intro x hhead
    obtain rfl : (now, l) = x := Option.some.inj hhead
    refine ⟨rfl, .single 0 l, ?_, hmeasurements, rfl, ?_, ?_⟩
    · have hgroups := groups_single (unitOf g now now) l
      rw [unitOf_self] at hgroups
      rw [List.nil_append, keyed, List.map_singleton, unitOf_self]
      exact hgroups
    · show asLong (h.count + 1) = 1
      rw [hcount, hone]
    · show asLong (h.sum + l.1) = total [l]
      rw [hsum, hlatency, total, List.map_singleton, List.sum_singleton]
  | some x =>
    obtain ⟨hstart, s, hgroups, hmeasurements, hunit, hcount, hsum⟩ := hcharts.units x hx
    have hxmem : x ∈ xs := List.mem_of_mem_head? hx
    have hcheck := checkEndOfUnit_next hcharts.granularity hg hstart (hpast x hxmem).1 (hpast x hxmem).2 hfits hunit false
    have hle := key_le hgroups hg fun y hy => (hpast y hy).2
    have hpush := groups_push hgroups hle l
    rw [← keyed_concat] at hpush
    have hnotnil : xs ++ [(now, l)] ≠ [] := List.append_ne_nil_of_right_ne_nil _ (List.cons_ne_nil _ _)
    have hhead : (xs ++ [(now, l)]).head? = some x := by
      rw [List.head?_append, hx]
      rfl
    by_cases hlt : s.key < unitOf g x.1 now
    · -- the open unit is closed
      rw [if_pos (.inl hlt)] at hcheck
      refine ⟨_, _, _, _, h.start, hcheck, hcharts.granularity, fun hnil => absurd hnil hnotnil, fun x' hx' => ?_⟩
      obtain rfl : x = x' := Option.some.inj (hhead.symm.trans hx')
      refine ⟨hstart, s.push (unitOf g x.1 now) l, hpush, ?_, ?_, ?_, ?_⟩ <;> rw [Segments.push, if_pos hlt]
      · show h.measurements ++ [(s.key, ratio h.sum h.count)] = _
        rw [hmeasurements, List.map_append, hcount, hsum]
        rfl
      · rfl
      · exact hone
      · show asLong (0 + l.1) = total [l]
        rw [hlatency, total, List.map_singleton, List.sum_singleton]
    · -- it goes on
      rw [if_neg (by simpa using hlt)] at hcheck
      refine ⟨h.measurements, h.currentunit, h.count, h.sum, h.start, hcheck, hcharts.granularity, fun hnil => absurd hnil hnotnil, fun x' hx' => ?_⟩
      obtain rfl : x = x' := Option.some.inj (hhead.symm.trans hx')
      have hvalues : s.values = valuesAt (keyed g x.1 xs) s.key := hgroups.values (s.key, s.values) (List.mem_append_right _ List.mem_cons_self)
      have hlength : s.values.length ≤ xs.length := hvalues ▸ length_valuesAt_keyed g x.1 xs s.key
      have hfit : Fit (s.values ++ [l]) := fit_of_length (by rw [List.length_append, List.length_singleton]; omega)
      refine ⟨hstart, s.push (unitOf g x.1 now) l, hpush, ?_, ?_, ?_, ?_⟩ <;> rw [Segments.push, if_neg hlt]
      · exact hmeasurements
      · exact hunit
      · show asLong (h.count + 1) = ((s.values ++ [l]).length : ℕ)
        rw [hcount, ← hfit.asLong_length, List.length_append]
        rfl
      · show asLong (h.sum + l.1) = total (s.values ++ [l])
        rw [hsum, ← hfit.asLong_total, total_concat]

/-- One latency more in the rest. -/
theorem tallies_add {latencies : List Latency} (htallies : Tallies latencies window h) (hwindow : window.length ≤ latencies.length)
    (hmany : latencies.length + 1 < 2 ^ 31) (l : Latency) : Tallies (latencies ++ [l]) (window ++ [l]) (h.add l) := by
  have hfit : Fit (latencies ++ [l]) := fit_of_length (by rw [List.length_append, List.length_singleton]; omega)
  have hfitWindow : Fit (window ++ [l]) := fit_of_length (by rw [List.length_append, List.length_singleton]; omega)
  refine ⟨?_, ?_, ?_, ?_, htallies.min.append l ?_, htallies.max.append l ?_⟩
  · show asLong (h.operations + 1) = _
    rw [htallies.operations, ← hfit.asLong_length, List.length_append]
    rfl
  · show asLong (h.totallatency + l.1) = _
    rw [htallies.totallatency, ← hfit.asLong_total, total_concat]
  · show asInt (h.windowoperations + 1) = _
    rw [htallies.windowoperations, List.length_append, List.length_singleton]
    exact asInt_of_fits ⟨by omega, by push_cast; omega⟩
  · show asLong (h.windowtotallatency + l.1) = _
    rw [htallies.windowtotallatency, ← hfitWindow.asLong_total, total_concat]
  · rw [not_le, or_comm]
  · -- the greatest latency is at least `-1`, and a latency is not
    rw [ge_iff_le, not_le]
    refine ⟨.inr, fun hor => hor.elim (fun hneg => ?_) id⟩
    have := l.2.1
    show h.max < l.1
    omega

/-- **A summary.** -/
theorem tallies_getSummary (format : ℚ → String) {latencies : List Latency} (htallies : Tallies latencies window h) :
    (h.getSummary format).1 = meanOf h.name format window ∧ Tallies latencies [] (h.getSummary format).2 := by
  rw [getSummary, meanOf, htallies.windowoperations, htallies.windowtotallatency]
  by_cases hnil : window = []
  · subst hnil
    exact ⟨rfl, htallies⟩
  · have hne : (window.length : ℤ) ≠ 0 := by simpa using hnil
    rw [if_neg hne, if_neg hnil]
    exact ⟨by push_cast; rfl, htallies.operations, htallies.totallatency, rfl, rfl, htallies.min, htallies.max⟩

/-! ### Whole runs -/

/-- A run keeps what each call does. -/
theorem keeps_run (format : ℚ → String) (hg : 0 < g) (calls : List TimedCall) {xs : List (ℤ × Latency)} {window : List Latency}
    {h : OneMeasurementTimeSeries} (hcharts : Charts g xs h) (htallies : Tallies (xs.map Prod.snd) window h) (hwindow : window.length ≤ xs.length)
    (hmany : (xs ++ samples calls).length < 2 ^ 31) (hclock : ((xs ++ samples calls).map Prod.fst).Pairwise (· ≤ ·))
    (htimes : ∀ y ∈ xs ++ samples calls, 0 ≤ y.1 ∧ y.1 < 2 ^ 63) :
    ∃ window' t, run format h calls = some (means h.name format window (calls.map TimedCall.untimed), t) ∧ Charts g (xs ++ samples calls) t ∧
      Tallies ((xs ++ samples calls).map Prod.snd) window' t := by
  induction calls generalizing xs window h with
  | nil =>
    rw [samples, List.append_nil]
    exact ⟨window, h, rfl, hcharts, htallies⟩
  | cons call calls ih =>
    cases call with
    | measure now l =>
      have hassoc : xs ++ samples (.measure now l :: calls) = xs ++ [(now, l)] ++ samples calls := by simp [samples]
      rw [hassoc] at hmany hclock htimes ⊢
      have hlength : xs.length + 1 < 2 ^ 31 := by
        simp only [List.length_append, List.length_singleton] at hmany
        omega
      have hpast : ∀ y ∈ xs, 0 ≤ y.1 ∧ y.1 ≤ now := by
        intro y hy
        rw [List.append_assoc, List.map_append, List.pairwise_append] at hclock
        exact ⟨(htimes y (by simp [hy])).1, hclock.2.2 y.1 (List.mem_map.mpr ⟨y, hy, rfl⟩) now (by simp)⟩
      have hfits := (htimes (now, l) (by simp)).2
      obtain ⟨m, u, c, t, start, hcheck, hcharts'⟩ := charts_measure hcharts hg hlength hpast hfits l
      have htallies' : Tallies (xs.map Prod.snd) window { h with measurements := m, currentunit := u, count := c, sum := t, start := start } :=
        ⟨htallies.operations, htallies.totallatency, htallies.windowoperations, htallies.windowtotallatency, htallies.min, htallies.max⟩
      have hadd := tallies_add htallies' (by rwa [List.length_map]) (by rwa [List.length_map]) l
      have hsnd : (xs ++ [(now, l)]).map Prod.snd = xs.map Prod.snd ++ [l] := List.map_append
      obtain ⟨window', t', hrun, hend⟩ := ih hcharts' (hsnd ▸ hadd) (by simpa using hwindow) hmany hclock htimes
      refine ⟨window', t', ?_, hend⟩
      rw [run, measure, hcheck]
      exact hrun
    | getSummary =>
      obtain ⟨hreport, htallies'⟩ := tallies_getSummary format htallies
      have hname : (h.getSummary format).2.name = h.name := by
        rw [getSummary]
        split_ifs <;> rfl
      have hcharts' : Charts g xs (h.getSummary format).2 := by
        rw [getSummary]
        split_ifs
        · exact hcharts
        · exact ⟨hcharts.granularity, hcharts.first, hcharts.units⟩
      obtain ⟨window', t, hrun, hend⟩ := ih hcharts' htallies' (Nat.zero_le _) hmany hclock htimes
      refine ⟨window', t, ?_, hend⟩
      rw [run, hrun, hreport, hname]
      rfl

/-- What is exported of a unit. -/
def row (e : ℤ × List Latency) : String × Value := (toString e.1, .double (some (total e.2 / e.2.length)))

/-- Three latencies in two units of a second, the first two before a summary. -/
def threeCalls : List TimedCall :=
  [.measure 5000 ⟨100, by decide⟩, .measure 5400 ⟨300, by decide⟩, .getSummary, .measure 8200 ⟨50, by decide⟩]

example : ((run (fun _ => "mean") (new "READ" none) threeCalls).bind fun r => r.2.exportMeasurements 8300 []) =
    some [("Operations", .long 3), ("AverageLatency(us)", .double (some 150)), ("MinLatency(us)", .int 50), ("MaxLatency(us)", .int 300),
      ("0", .double (some 200)), ("3000", .double (some 50))] := by decide +kernel

end OneMeasurementTimeSeries

end YcsbIvs.Measurements
