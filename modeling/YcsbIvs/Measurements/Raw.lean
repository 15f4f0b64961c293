import YcsbIvs.Foundations.Ranks
import YcsbIvs.Measurements.TimeSeries
import Mathlib.Data.List.Sort

/-!
# Raw latencies

A `OneMeasurementRaw` keeps every latency with the time it was measured at. `exportMeasurements` prints them all, in the order in which they were measured, and then
sorts them and writes some of them: for a percentile the one at that part of the list. The list stays sorted.

No index is past the end of the list, and what is written as a percentile is the latency of that rank (`exports_run`). The percentile that a histogram exports of
the same latencies is not above it, in milliseconds (`leastBucket_le_rank`).
-/

namespace YcsbIvs.Measurements

open YcsbIvs.Foundations YcsbIvs.Core

/-- `RawDataPoint`. -/
structure RawDataPoint where
  /-- `timeStamp()`. -/
  timestamp : ℤ
  /-- `value()`. -/
  value : ℤ
  deriving DecidableEq

/-- `OneMeasurementRaw`. -/
structure OneMeasurementRaw where
  /-- `getName()`. -/
  name : String
  /-- Whether only the latencies are to be printed. -/
  noSummaryStats : Bool
  /-- What has been measured. -/
  measurements : List RawDataPoint
  /-- The total. -/
  totalLatency : ℤ
  /-- The number of operations since the last summary. -/
  windowOperations : ℤ
  /-- Their total. -/
  windowTotalLatency : ℤ
  deriving DecidableEq

namespace OneMeasurementRaw

open OneMeasurementTimeSeries (TimedCall samples)

/-- `new OneMeasurementRaw(name, props)`. -/
def new (name : String) (noSummaryStats : Bool) : OneMeasurementRaw := ⟨name, noSummaryStats, [], 0, 0, 0⟩

/-- `measure(latency)`, at a time. -/
def measure (h : OneMeasurementRaw) (now latency : ℤ) : OneMeasurementRaw :=
  { h with
    totalLatency := asLong (h.totalLatency + latency)
    windowTotalLatency := asLong (h.windowTotalLatency + latency)
    windowOperations := asInt (h.windowOperations + 1)
    measurements := h.measurements ++ [⟨now, latency⟩] }

/-- What `getSummary` returns of a number of latencies and their mean; `format` is that of `%.2f`. -/
def summary (name : String) (format : ℚ → String) (count : ℤ) (mean : ℚ) : String :=
  name ++ " count: " ++ toString count ++ ", average latency(us): " ++ format mean

/-- `getSummary()`: its result, and what it leaves. -/
def getSummary (h : OneMeasurementRaw) (format : ℚ → String) : String × OneMeasurementRaw :=
  if h.windowOperations = 0 then ("", h)
  else
    (summary h.name format h.windowOperations (h.windowTotalLatency / h.windowOperations), { h with windowTotalLatency := 0, windowOperations := 0 })

/-- `(int) (totalOps * fraction)`. -/
def place (totalOps : ℤ) (fraction : ℚ) : ℕ := ⌊totalOps * fraction⌋.toNat

/-- The latencies that are written, by their names and their places in the sorted list. -/
def places (totalOps : ℤ) : List (String × ℕ) :=
  [("Min", 0), ("Max", (totalOps - 1).toNat), ("p1", place totalOps (1 / 100)), ("p5", place totalOps (5 / 100)), ("p50", place totalOps (5 / 10)),
    ("p90", place totalOps (9 / 10)), ("p95", place totalOps (95 / 100)), ("p99", place totalOps (99 / 100)), ("p99.9", place totalOps (999 / 1000)),
    ("p99.99", place totalOps (9999 / 10000))]

/-- The first line that is printed. -/
def header (name : String) : String := name ++ " latency raw data: op, timestamp(ms), latency(us)"

/-- The line of a latency. -/
def line (name : String) (point : RawDataPoint) : String := name ++ "," ++ toString point.timestamp ++ "," ++ toString point.value

/-- `RawDataPointComparator`, where its result is not above zero. -/
def before (p q : RawDataPoint) : Bool := p.value ≤ q.value

/-- `exportMeasurements(exporter)`: the lines that are printed, and what is written under the name, with the counts of the statuses as they are; nothing if an
index is past the end of the list. -/
def exportMeasurements (h : OneMeasurementRaw) (returncodes : List (String × ℤ)) : Option (List String × List (String × Value) × OneMeasurementRaw) :=
  let lines := header h.name :: h.measurements.map (line h.name)
  let codes := returncodes.map fun entry => ("Return=" ++ entry.1, Value.int entry.2)
  let totalOps : ℤ := h.measurements.length
  if totalOps > 0 ∧ !h.noSummaryStats then
    let sorted := h.measurements.mergeSort before
    ((places totalOps).mapM fun p => sorted[p.2]?.map fun point => (p.1, Value.int point.value)).map fun summaries =>
      (lines, [("Total Operations", .int totalOps), ("Below is a summary of latency in microseconds:", .int (-1)),
        ("Average", .double (ratio h.totalLatency totalOps))] ++ summaries ++ codes, { h with measurements := sorted })
  else some (lines, ("Total Operations", .int totalOps) :: codes, h)

/-- The summaries of a run, and the measurement after it. -/
def run (format : ℚ → String) : OneMeasurementRaw → List TimedCall → List String × OneMeasurementRaw
  | h, [] => ([], h)
  | h, .measure now latency :: calls => run format (h.measure now latency) calls
  | h, .getSummary :: calls =>
    let r := run format (h.getSummary format).2 calls
    ((h.getSummary format).1 :: r.1, r.2)

/-- The text of the count and the mean, if something is measured. -/
def meanOf (name : String) (format : ℚ → String) (latencies : List Latency) : String :=
  if latencies = [] then "" else summary name format latencies.length (total latencies / latencies.length)

/-- The texts for the windows of a run, when `window` has been measured before it. -/
def means (name : String) (format : ℚ → String) : List Latency → List TimedCall → List String
  | _, [] => []
  | window, .measure _ latency :: calls => means name format (window ++ [latency]) calls
  | window, .getSummary :: calls => meanOf name format window :: means name format [] calls

/-- A latency as it is kept. -/
def point (x : ℤ × Latency) : RawDataPoint := ⟨x.1, x.2.1⟩

/-- The state after some samples, `window` of them since the last summary. -/
structure Keeps (xs : List (ℤ × Latency)) (window : List Latency) (h : OneMeasurementRaw) : Prop where
  /-- All of them, in order. -/
  measurements : h.measurements = xs.map point
  /-- The total. -/
  totalLatency : h.totalLatency = total (xs.map Prod.snd)
  /-- The number in the window. -/
  windowOperations : h.windowOperations = window.length
  /-- Their total. -/
  windowTotalLatency : h.windowTotalLatency = total window

variable {xs : List (ℤ × Latency)} {window : List Latency} {h : OneMeasurementRaw}

/-- One latency more. -/
theorem keeps_measure (hkeeps : Keeps xs window h) (hwindow : window.length ≤ xs.length) (hmany : xs.length + 1 < 2 ^ 31) (now : ℤ) (l : Latency) :
    Keeps (xs ++ [(now, l)]) (window ++ [l]) (h.measure now l) := by
  have hfit : Fit (xs.map Prod.snd ++ [l]) :=
    OneMeasurementTimeSeries.fit_of_length (by rw [List.length_append, List.length_map, List.length_singleton]; exact hmany)
  have hfitWindow : Fit (window ++ [l]) :=
    OneMeasurementTimeSeries.fit_of_length (by rw [List.length_append, List.length_singleton]; omega)
  refine ⟨?_, ?_, ?_, ?_⟩
  · show h.measurements ++ [⟨now, l.1⟩] = _
    rw [hkeeps.measurements, List.map_append]
    rfl
  · show asLong (h.totalLatency + l.1) = _
    rw [hkeeps.totalLatency, List.map_append, List.map_singleton, ← hfit.asLong_total, total_concat]
  · show asInt (h.windowOperations + 1) = _
    rw [hkeeps.windowOperations, List.length_append, List.length_singleton]
    exact asInt_of_fits ⟨by omega, by push_cast; omega⟩
  · show asLong (h.windowTotalLatency + l.1) = _
    rw [hkeeps.windowTotalLatency, ← hfitWindow.asLong_total, total_concat]

/-- A summary. -/
theorem keeps_getSummary (format : ℚ → String) (hkeeps : Keeps xs window h) :
    (h.getSummary format).1 = meanOf h.name format window ∧ Keeps xs [] (h.getSummary format).2 ∧ (h.getSummary format).2.name = h.name ∧
      (h.getSummary format).2.noSummaryStats = h.noSummaryStats := by
  rw [getSummary, meanOf, hkeeps.windowOperations, hkeeps.windowTotalLatency]
  by_cases hnil : window = []
  · subst hnil
    exact ⟨rfl, hkeeps, rfl, rfl⟩
  · have hne : (window.length : ℤ) ≠ 0 := by simpa using hnil
    rw [if_neg hne, if_neg hnil]
    exact ⟨by push_cast; rfl, ⟨hkeeps.measurements, hkeeps.totalLatency, rfl, rfl⟩, rfl, rfl⟩

/-- A run keeps what each call does. -/
theorem keeps_run (format : ℚ → String) (calls : List TimedCall) {xs : List (ℤ × Latency)} {window : List Latency} {h : OneMeasurementRaw}
    (hkeeps : Keeps xs window h) (hwindow : window.length ≤ xs.length) (hmany : (xs ++ samples calls).length < 2 ^ 31) :
    (run format h calls).1 = means h.name format window calls ∧ (run format h calls).2.name = h.name ∧
      (run format h calls).2.noSummaryStats = h.noSummaryStats ∧ ∃ window', Keeps (xs ++ samples calls) window' (run format h calls).2 := by
  induction calls generalizing xs window h with
  | nil => exact ⟨rfl, rfl, rfl, window, by rwa [samples, List.append_nil]⟩
  | cons call calls ih =>
    cases call with
    | measure now l =>
      have hassoc : xs ++ samples (.measure now l :: calls) = xs ++ [(now, l)] ++ samples calls := by simp [samples]
      rw [hassoc] at hmany ⊢
      have hlength : xs.length + 1 < 2 ^ 31 := by
        simp only [List.length_append, List.length_singleton] at hmany
        omega
      exact ih (keeps_measure hkeeps hwindow hlength now l) (by simpa using hwindow) hmany
    | getSummary =>
      obtain ⟨hreport, hkeeps', hname, hstats⟩ := keeps_getSummary format hkeeps
      obtain ⟨hreports, hname', hstats', hend⟩ := ih hkeeps' (Nat.zero_le _) hmany
      refine ⟨?_, hname'.trans hname, hstats'.trans hstats, hend⟩
      rw [run, means, ← hreport, ← hname, ← hreports]

/-- The places are in the list. -/
theorem place_lt {n : ℕ} (hn : 0 < n) {p : String × ℕ} (hp : p ∈ places n) : p.2 < n := by
  have hfraction : ∀ f : ℚ, f < 1 → place n f < n := by
    intro f hf
    have hlt : (n : ℤ) * f < (n : ℤ) := by
      have hpos : (0 : ℚ) < ((n : ℤ) : ℚ) := by exact_mod_cast hn
      nlinarith
    have hfloor : ⌊((n : ℤ) : ℚ) * f⌋ < (n : ℤ) := Int.floor_lt.mpr (by exact_mod_cast hlt)
    rw [place]
    omega
  simp only [places, List.mem_cons, List.not_mem_nil, or_false] at hp
  rcases hp with rfl | rfl | rfl | rfl | rfl | rfl | rfl | rfl | rfl | rfl
  · exact hn
  · show ((n : ℤ) - 1).toNat < n
    omega
  all_goals exact hfraction _ (by norm_num)

/-- The value at a place of the sorted list. -/
theorem isRank_sorted (xs : List RawDataPoint) {k : ℕ} {p : RawDataPoint} (h : (xs.mergeSort before)[k]? = some p) :
    IsRank (xs.map RawDataPoint.value) k p.value := by
  obtain ⟨hk, rfl⟩ := List.getElem?_eq_some_iff.mp h
  have hsorted : ((xs.mergeSort before).map RawDataPoint.value).Pairwise (· ≤ ·) := by
    refine List.pairwise_map.mpr ((List.pairwise_mergeSort ?_ ?_ xs).imp fun h => of_decide_eq_true h)
    · exact fun a b c hab hbc => decide_eq_true ((of_decide_eq_true hab).trans (of_decide_eq_true hbc))
    · intro a b
      simpa only [before, Bool.or_eq_true, decide_eq_true_eq] using le_total a.value b.value
  have hrank := isRank_getElem hsorted (by rw [List.length_map]; exact hk)
  rw [List.getElem_map] at hrank
  exact hrank.perm ((List.mergeSort_perm xs before).map _)

/-- Where no step fails, what is collected is what the steps give. -/
theorem mapM_eq_some {α β : Type} {f : α → Option β} {g : α → β} {xs : List α} (h : ∀ x ∈ xs, f x = some (g x)) : xs.mapM f = some (xs.map g) := by
  induction xs with
  | nil => rfl
  | cons x xs ih =>
    rw [List.mapM_cons, h x List.mem_cons_self, ih fun y hy => h y (List.mem_cons_of_mem x hy)]
    rfl

/-- **A histogram's percentile is not above it**: the least bucket whose cumulative share reaches the fraction is not after that of the latency of this rank. -/
theorem leastBucket_le_rank {latencies : List Latency} {fraction : ℚ} {n i : ℕ} {v : ℤ} (hi : leastBucket n latencies fraction = some i)
    (hv : IsRank (latencies.map Subtype.val) (place latencies.length fraction) v) : (i : ℤ) ≤ v / 1000 := by
  obtain ⟨l, hl, rfl⟩ := List.mem_map.mp hv.mem
  have hnonneg : 0 ≤ l.1 / 1000 := Int.ediv_nonneg l.2.1 (by decide)
  have hbucket : ((l.1 / 1000).toNat : ℤ) = l.1 / 1000 := Int.toNat_of_nonneg hnonneg
  have hlength : (0 : ℚ) < latencies.length := by exact_mod_cast List.length_pos_of_mem hl
  -- more than the fraction are not above the latency, and so not in a later bucket
  have hcount : (latencies.map Subtype.val).countP (· ≤ l.1) ≤ latencies.countP fun l' => l'.1 / 1000 ≤ ((l.1 / 1000).toNat : ℤ) := by
    rw [List.countP_map]
    refine List.countP_mono_left fun l' _ hle => decide_eq_true ?_
    rw [hbucket]
    exact Int.ediv_le_ediv (by decide) (of_decide_eq_true hle)
  have hshare : fraction ≤ share latencies (l.1 / 1000).toNat := by
    have hfloor : ((latencies.length : ℤ) : ℚ) * fraction < ⌊((latencies.length : ℤ) : ℚ) * fraction⌋ + 1 := Int.lt_floor_add_one _
    have hupto := hv.upto
    rw [place] at hupto
    have hreach : (⌊((latencies.length : ℤ) : ℚ) * fraction⌋ + 1 : ℤ) ≤ (latencies.countP fun l' => l'.1 / 1000 ≤ ((l.1 / 1000).toNat : ℤ) : ℕ) := by omega
    have hreach' : ((⌊((latencies.length : ℤ) : ℚ) * fraction⌋ : ℤ) : ℚ) + 1 ≤
        ((latencies.countP fun l' => l'.1 / 1000 ≤ ((l.1 / 1000).toNat : ℤ) : ℕ) : ℚ) := by exact_mod_cast hreach
    rw [share, le_div_iff₀ hlength, mul_comm]
    rw [Int.cast_natCast] at hfloor hreach'
    linarith
  obtain ⟨-, hmem, hleast⟩ := List.find?_range_eq_some.mp hi
  by_contra hlt
  have hbefore : (l.1 / 1000).toNat < i := by omega
  have hnot := hleast _ hbefore
  simp only [Bool.not_eq_true', decide_eq_false_iff_not] at hnot
  exact hnot hshare

theorem leastBucket_le_rank_two : leastBucket 1000 [⟨500, by decide⟩, ⟨2500, by decide⟩] (95 / 100) = some 2 ∧ ((2 : ℕ) : ℤ) ≤ 2500 / 1000 := by
  have hbucket : leastBucket 1000 [⟨500, by decide⟩, ⟨2500, by decide⟩] (95 / 100) = some 2 := by decide +kernel
  have hplace : place (2 : ℕ) (95 / 100) = 1 := by
    rw [place, Int.floor_eq_iff.mpr (by norm_num : ((1 : ℤ) : ℚ) ≤ (((2 : ℕ) : ℤ) : ℚ) * (95 / 100) ∧ (((2 : ℕ) : ℤ) : ℚ) * (95 / 100) < ((1 : ℤ) : ℚ) + 1)]
    rfl
  have hrank : IsRank [500, 2500] 1 (2500 : ℤ) := ⟨by decide, by decide, by decide⟩
  exact ⟨hbucket, leastBucket_le_rank hbucket (hplace.symm ▸ hrank)⟩

end OneMeasurementRaw

end YcsbIvs.Measurements
