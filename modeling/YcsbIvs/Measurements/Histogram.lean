import YcsbIvs.Core.ByteIterator
import YcsbIvs.Foundations.Counts
import YcsbIvs.Foundations.Words
import Mathlib.Algebra.BigOperators.Ring.Finset

/-!
# The histogram of latencies

A `OneMeasurementHistogram` counts its latencies in buckets of a millisecond, those beyond the last bucket apart. It keeps their number, their total and the least and
the greatest of them, and a second number and total of those since the last `getSummary`.

In any order of calls these are what the measured values give, up to the width of the counters (`Keeps`). **If fewer than `2⁶³` values
are measured that come to less than `2⁶³`, all of them are exact** (`describes_run`): each summary is the mean of what was measured since the one before, and each
percentile is the least bucket whose cumulative share reaches the fraction, if there is one. Four billion latencies of half an hour come to more
(`not_describes_run`).

Doubles are rational numbers here, or nothing for a division by zero.
-/

namespace YcsbIvs.Measurements

open YcsbIvs.Foundations YcsbIvs.Core

/-! ### The measurement -/

/-- `OneMeasurementHistogram`. -/
structure OneMeasurementHistogram where
  /-- `getName()`. -/
  name : String
  /-- How many buckets there are. -/
  buckets : ℤ
  /-- Whether the buckets are exported. -/
  verbose : Bool
  /-- The count of each bucket. -/
  histogram : List ℤ
  /-- The count of what is beyond the buckets. -/
  histogramoverflow : ℤ
  /-- The number of operations. -/
  operations : ℤ
  /-- Their total. -/
  totallatency : ℤ
  /-- The total of their squares. -/
  totalsquaredlatency : ℚ
  /-- The number of operations since the last summary. -/
  windowoperations : ℤ
  /-- Their total. -/
  windowtotallatency : ℤ
  /-- The least latency, or `-1`. -/
  min : ℤ
  /-- The greatest latency, or `-1`. -/
  max : ℤ

/-- A number that is exported, by the type `write` takes it as. -/
inductive Value where
  /-- An `int`. -/
  | int (n : ℤ)
  /-- A `long`. -/
  | long (n : ℤ)
  /-- A `double`. -/
  | double (q : Option ℚ)
  deriving DecidableEq

/-- `((double) x) / ((double) y)`. -/
def ratio (x y : ℚ) : Option ℚ := if y = 0 then none else some (x / y)

/-- `x >= fraction`. -/
def atLeast (x : Option ℚ) (fraction : ℚ) : Bool := x.any fun x => fraction ≤ x

namespace OneMeasurementHistogram

/-- `new OneMeasurementHistogram(name, props)`, with `histogram.buckets` as parsed, if it is set, and `measurement.histogram.verbose`. -/
def new (name : String) (buckets : Option Word) (verbose : Bool) : Except Throwable OneMeasurementHistogram :=
  let buckets := (buckets.getD ⟨1000, by decide⟩).1
  if buckets < 0 then .error .negativeArraySize
  else .ok ⟨name, buckets, verbose, List.replicate buckets.toNat 0, 0, 0, 0, 0, 0, 0, -1, -1⟩

/-- The first test of `measure`. -/
def count (h : OneMeasurementHistogram) (latency : ℤ) : Except Throwable OneMeasurementHistogram :=
  let bucket := latency.tdiv 1000
  if bucket ≥ h.buckets then .ok { h with histogramoverflow := asLong (h.histogramoverflow + 1) }
  else if bucket < 0 ∨ bucket ≥ h.histogram.length then .error .arrayIndexOutOfBounds
  else .ok { h with histogram := h.histogram.modify bucket.toNat fun count => asLong (count + 1) }

/-- `measure(latency)`. -/
def measure (h : OneMeasurementHistogram) (latency : ℤ) : Except Throwable OneMeasurementHistogram := do
  let h ← h.count latency
  .ok { h with
    operations := asLong (h.operations + 1)
    totallatency := asLong (h.totallatency + latency)
    totalsquaredlatency := h.totalsquaredlatency + latency * latency
    windowoperations := asLong (h.windowoperations + 1)
    windowtotallatency := asLong (h.windowtotallatency + latency)
    min := if h.min < 0 ∨ latency < h.min then latency else h.min
    max := if h.max < 0 ∨ latency > h.max then latency else h.max }

/-- What `getSummary` returns of a mean; `format` is that of `new DecimalFormat("#.##")`, whose signs are those of the locale. -/
def summary (name : String) (format : ℚ → String) (report : ℚ) : String := "[" ++ name ++ " AverageLatency(us)=" ++ format report ++ "]"

/-- `getSummary()`: its result, and what it leaves. -/
def getSummary (h : OneMeasurementHistogram) (format : ℚ → String) : String × OneMeasurementHistogram :=
  if h.windowoperations = 0 then ("", h)
  else (summary h.name format (h.windowtotallatency / h.windowoperations), { h with windowtotallatency := 0, windowoperations := 0 })

/-- The loop over the buckets that exports the percentiles, from bucket `i` on. -/
def percentiles (operations : ℤ) : ℕ → ℤ → Bool → List ℤ → List (String × Value)
  | _, _, _, [] => []
  | i, opcounter, done95th, count :: histogram =>
    let opcounter := asLong (opcounter + count)
    let share := ratio opcounter operations
    let writes95th := !done95th && atLeast share (95 / 100)
    (if writes95th then [("95thPercentileLatency(us)", .int (asInt (i * 1000)))] else []) ++
      if atLeast share (99 / 100) then [("99thPercentileLatency(us)", .int (asInt (i * 1000)))]
      else percentiles operations (i + 1) opcounter (done95th || writes95th) histogram

/-- `exportMeasurements(exporter)`: what is written under the name, with the counts of the statuses as they are. -/
def exportMeasurements (h : OneMeasurementHistogram) (returncodes : List (String × ℤ)) : List (String × Value) :=
  let mean := ratio h.totallatency h.operations
  let variance := (ratio h.totalsquaredlatency h.operations).bind fun square => mean.map fun mean => square - mean * mean
  [("Operations", .long h.operations), ("AverageLatency(us)", .double mean), ("LatencyVariance(us)", .double variance),
    ("MinLatency(us)", .int h.min), ("MaxLatency(us)", .int h.max)] ++
  percentiles h.operations 0 0 false h.histogram ++
  (returncodes.map fun entry => ("Return=" ++ entry.1, .int entry.2)) ++
  if h.verbose then
    (h.histogram.mapIdx fun i count => (toString i, .long count)) ++ [(">" ++ toString h.buckets, .long h.histogramoverflow)]
  else []

end OneMeasurementHistogram

/-! ### Runs -/

/-- A latency that is measured. -/
abbrev Latency := {n : ℤ // 0 ≤ n ∧ n < 2 ^ 31}

/-- A call. -/
inductive Call where
  /-- `measure(latency)`. -/
  | measure (latency : Latency)
  /-- `getSummary()`. -/
  | getSummary
  deriving DecidableEq

/-- The summaries of a run, and the measurement after it. -/
def run (format : ℚ → String) : OneMeasurementHistogram → List Call → Except Throwable (List String × OneMeasurementHistogram)
  | h, [] => .ok ([], h)
  | h, .measure latency :: calls => do run format (← h.measure latency) calls
  | h, .getSummary :: calls => do
    let (reports, t) ← run format (h.getSummary format).2 calls
    .ok ((h.getSummary format).1 :: reports, t)

/-- What is measured in a run. -/
def measured : List Call → List Latency
  | [] => []
  | .measure latency :: calls => latency :: measured calls
  | .getSummary :: calls => measured calls

/-- The total. -/
def total (latencies : List Latency) : ℤ := (latencies.map Subtype.val).sum

/-- The text of the mean, if something is measured. -/
def meanOf (name : String) (format : ℚ → String) (latencies : List Latency) : String :=
  if latencies = [] then "" else OneMeasurementHistogram.summary name format (total latencies / latencies.length)

/-- The texts of the means, each of what is measured since the one before; what is measured since the last before the run is `window`. -/
def means (name : String) (format : ℚ → String) : List Latency → List Call → List String
  | _, [] => []
  | window, .measure latency :: calls => means name format (window ++ [latency]) calls
  | window, .getSummary :: calls => meanOf name format window :: means name format [] calls

/-- The share of what is in bucket `i` or before. -/
def share (latencies : List Latency) (i : ℕ) : ℚ := (latencies.countP fun l => l.1 / 1000 ≤ (i : ℤ) : ℕ) / latencies.length

/-- The least bucket whose cumulative share reaches the fraction. -/
def leastBucket (buckets : ℕ) (latencies : List Latency) (fraction : ℚ) : Option ℕ := (List.range buckets).find? fun i => fraction ≤ share latencies i

/-- What is exported under a name. -/
def exported (rows : List (String × Value)) (name : String) : List Value := (rows.filter fun row => row.1 = name).map Prod.snd

/-- The measurement and the summaries are what the run gives. -/
structure Describes (format : ℚ → String) (name : String) (calls : List Call) (reports : List String) (h : OneMeasurementHistogram) : Prop where
  /-- Each operation is counted in one place. -/
  counts : h.histogram.sum + h.histogramoverflow = h.operations
  /-- How many there are. -/
  operations : h.operations = (measured calls).length
  /-- Their total. -/
  totallatency : h.totallatency = total (measured calls)
  /-- The least. -/
  min : measured calls ≠ [] → h.min ∈ (measured calls).map Subtype.val ∧ ∀ l ∈ measured calls, h.min ≤ l.1
  /-- The greatest. -/
  max : measured calls ≠ [] → h.max ∈ (measured calls).map Subtype.val ∧ ∀ l ∈ measured calls, l.1 ≤ h.max
  /-- The summaries. -/
  reports : reports = means name format [] calls
  /-- The 95th percentile. -/
  exports95th : ∀ returncodes, measured calls ≠ [] → exported (h.exportMeasurements returncodes) "95thPercentileLatency(us)" =
    (leastBucket h.buckets.toNat (measured calls) (95 / 100)).toList.map fun i : ℕ => .int (i * 1000)
  /-- The 99th. -/
  exports99th : ∀ returncodes, measured calls ≠ [] → exported (h.exportMeasurements returncodes) "99thPercentileLatency(us)" =
    (leastBucket h.buckets.toNat (measured calls) (99 / 100)).toList.map fun i : ℕ => .int (i * 1000)
  /-- Their order. -/
  ordered : ∀ returncodes, measured calls ≠ [] → ∀ x y, .int x ∈ exported (h.exportMeasurements returncodes) "95thPercentileLatency(us)" →
    .int y ∈ exported (h.exportMeasurements returncodes) "99thPercentileLatency(us)" → x ≤ y

/-! ### What a run keeps -/

theorem total_append (latencies latencies' : List Latency) : total (latencies ++ latencies') = total latencies + total latencies' := by
  rw [total, List.map_append, List.sum_append, total, total]

theorem total_concat (latencies : List Latency) (l : Latency) : total (latencies ++ [l]) = total latencies + l.1 := by
  rw [total_append]
  simp [total]

theorem total_nonneg (latencies : List Latency) : 0 ≤ total latencies := by
  refine List.sum_nonneg fun x hx => ?_
  obtain ⟨l, -, rfl⟩ := List.mem_map.mp hx
  exact l.2.1

/-- The counters are wide enough for the latencies. -/
structure Fit (latencies : List Latency) : Prop where
  /-- For their number. -/
  length : latencies.length < 2 ^ 63
  /-- For their total. -/
  total : total latencies < 2 ^ 63

theorem Fit.asLong_length {latencies : List Latency} (h : Fit latencies) : asLong latencies.length = latencies.length :=
  asLong_of_fits ⟨by omega, by exact_mod_cast h.length⟩

theorem Fit.asLong_total {latencies : List Latency} (h : Fit latencies) : asLong (Measurements.total latencies) = Measurements.total latencies :=
  asLong_of_fits ⟨by linarith [total_nonneg latencies], h.total⟩

/-- They are wide enough for a part. -/
theorem Fit.of_infix {latencies window : List Latency} (h : Fit latencies) (hpart : window <:+: latencies) : Fit window := by
  obtain ⟨before, after, rfl⟩ := hpart
  obtain ⟨hlength, htotal⟩ := h
  rw [total_append, total_append] at htotal
  refine ⟨by simp only [List.length_append] at hlength; omega, ?_⟩
  linarith [total_nonneg before, total_nonneg after]

/-- `m` comes before all latencies in an order and is one of them, or `-1` if there are none. -/
def Extreme (le : ℤ → ℤ → Prop) (latencies : List Latency) (m : ℤ) : Prop :=
  (latencies = [] ∧ m = -1) ∨ (m ∈ latencies.map Subtype.val ∧ ∀ l ∈ latencies, le m l.1)

theorem nonneg_of_mem_map {latencies : List Latency} {m : ℤ} (h : m ∈ latencies.map Subtype.val) : 0 ≤ m := by
  obtain ⟨l, -, rfl⟩ := List.mem_map.mp h
  exact l.2.1

/-- **The update of an extreme.** -/
theorem Extreme.append {le : ℤ → ℤ → Prop} [Std.Total le] [IsTrans ℤ le] {latencies : List Latency} {m : ℤ} (h : Extreme le latencies m) (l : Latency)
    {p : Prop} [Decidable p] (hp : p ↔ m < 0 ∨ ¬ le m l.1) : Extreme le (latencies ++ [l]) (if p then l.1 else m) := by
  have hrefl : le l.1 l.1 := (total_of le l.1 l.1).elim id id
  refine .inr ?_
  simp only [List.map_append, List.map_singleton, List.mem_append, List.mem_singleton]
  obtain ⟨rfl, rfl⟩ | ⟨hmem, hle⟩ := h
  · rw [if_pos (hp.mpr (.inl (by decide)))]
    refine ⟨.inr rfl, fun l' hl' => ?_⟩
    obtain rfl := hl'.resolve_left List.not_mem_nil
    exact hrefl
  · have hm := nonneg_of_mem_map hmem
    by_cases hlt : le m l.1
    · rw [if_neg (mt hp.mp (not_or.mpr ⟨not_lt.mpr hm, not_not_intro hlt⟩))]
      refine ⟨.inl hmem, fun l' hl' => ?_⟩
      obtain hl' | rfl := hl'
      · exact hle l' hl'
      · exact hlt
    · rw [if_pos (hp.mpr (.inr hlt))]
      refine ⟨.inr rfl, fun l' hl' => ?_⟩
      obtain hl' | rfl := hl'
      · exact trans_of le ((total_of le m l.1).resolve_left hlt) (hle l' hl')
      · exact hrefl

/-- The measurement with `n` buckets after some latencies, `window` of them since the last summary: each counter is what they give, up to its width. -/
structure Keeps (n : ℕ) (latencies window : List Latency) (h : OneMeasurementHistogram) : Prop where
  /-- Its buckets. -/
  buckets : h.buckets = n
  /-- The count of each bucket. -/
  histogram : h.histogram = (List.range n).map fun i : ℕ => asLong (latencies.countP fun l => l.1 / 1000 = (i : ℤ))
  /-- The count of the rest. -/
  histogramoverflow : h.histogramoverflow = asLong (latencies.countP fun l => ¬ l.1 / 1000 < (n : ℤ))
  /-- The number. -/
  operations : h.operations = asLong latencies.length
  /-- The total. -/
  totallatency : h.totallatency = asLong (total latencies)
  /-- The number in the window. -/
  windowoperations : h.windowoperations = asLong window.length
  /-- Their total. -/
  windowtotallatency : h.windowtotallatency = asLong (total window)
  /-- The least. -/
  min : Extreme (· ≤ ·) latencies h.min
  /-- The greatest. -/
  max : Extreme (· ≥ ·) latencies h.max

namespace OneMeasurementHistogram

variable {n : ℕ} {latencies window : List Latency} {h : OneMeasurementHistogram}

/-- A new measurement. -/
theorem keeps_new {name : String} {buckets : Option Word} {verbose : Bool} (hnew : new name buckets verbose = .ok h) :
    h.name = name ∧ ∃ n : ℕ, Keeps n [] [] h := by
  simp only [new] at hnew
  split_ifs at hnew with hneg
  cases hnew
  refine ⟨rfl, (buckets.getD ⟨1000, by decide⟩).1.toNat, ?_⟩
  constructor <;> simp [asLong, total, Extreme, not_lt.mp hneg]

theorem countP_concat (p : Latency → Bool) (l : Latency) : ((latencies ++ [l]).countP p : ℤ) = latencies.countP p + if p l then 1 else 0 := by
  rw [List.countP_append, List.countP_singleton]
  push_cast
  rfl

/-- Where a latency is counted. -/
theorem count_eq (hkeeps : Keeps n latencies window h) (l : Latency) :
    h.count l = .ok { h with
      histogram := (List.range n).map fun i : ℕ => asLong ((latencies ++ [l]).countP fun l => l.1 / 1000 = (i : ℤ))
      histogramoverflow := asLong ((latencies ++ [l]).countP fun l => ¬ l.1 / 1000 < (n : ℤ)) } := by
  have hdiv : l.1.tdiv 1000 = l.1 / 1000 := Int.tdiv_eq_ediv_of_nonneg l.2.1
  have hnonneg : 0 ≤ l.1 / 1000 := Int.ediv_nonneg l.2.1 (by decide)
  have hlength : h.histogram.length = n := by simp [hkeeps.histogram]
  simp only [count, hdiv, hkeeps.buckets, hlength, countP_concat]
  by_cases hlt : l.1 / 1000 < n
  · rw [if_neg (by omega), if_neg (by omega), if_neg (by simpa using hlt), Int.add_zero, ← hkeeps.histogramoverflow, hkeeps.histogram, modify_map_range]
    -- its bucket is the only one that changes
    congr 2
    refine List.map_congr_left fun i _ => ?_
    by_cases hi : i = (l.1 / 1000).toNat
    · rw [if_pos hi, if_pos (decide_eq_true (by omega)), asLong_asLong_add]
    · rw [if_neg hi, if_neg (by rw [decide_eq_true_eq]; omega), Int.add_zero]
  · rw [if_pos (by omega), if_pos (decide_eq_true hlt), hkeeps.histogramoverflow, asLong_asLong_add]
    congr 2
    refine hkeeps.histogram.trans (List.map_congr_left fun i hi => ?_)
    rw [List.mem_range] at hi
    rw [if_neg (by rw [decide_eq_true_eq]; omega), Int.add_zero]

/-- **One latency more.** -/
theorem keeps_measure (hkeeps : Keeps n latencies window h) (l : Latency) :
    ∃ h', h.measure l = .ok h' ∧ h'.name = h.name ∧ Keeps n (latencies ++ [l]) (window ++ [l]) h' := by
  rw [measure, count_eq hkeeps]
  refine ⟨_, rfl, rfl, hkeeps.buckets, rfl, rfl, ?_, ?_, ?_, ?_, hkeeps.min.append l ?_, hkeeps.max.append l ?_⟩
  · simp [hkeeps.operations, asLong_asLong_add]
  · simp [hkeeps.totallatency, asLong_asLong_add, total_concat]
  · simp [hkeeps.windowoperations, asLong_asLong_add]
  · simp [hkeeps.windowtotallatency, asLong_asLong_add, total_concat]
  · rw [not_le]
  · rw [ge_iff_le, not_le]

/-- **A summary**, where the counters of the window are wide enough. -/
theorem keeps_getSummary (format : ℚ → String) (hkeeps : Keeps n latencies window h) (hfit : Fit window) :
    (h.getSummary format).1 = meanOf h.name format window ∧ (h.getSummary format).2.name = h.name ∧ Keeps n latencies [] (h.getSummary format).2 := by
  have hoperations : h.windowoperations = window.length := hkeeps.windowoperations.trans hfit.asLong_length
  have hlatency : h.windowtotallatency = total window := hkeeps.windowtotallatency.trans hfit.asLong_total
  rw [getSummary, meanOf, hoperations, hlatency]
  by_cases hnil : window = []
  · subst hnil
    exact ⟨rfl, rfl, hkeeps⟩
  · have hne : (window.length : ℤ) ≠ 0 := by simpa using hnil
    rw [if_neg hne, if_neg hnil]
    exact ⟨by push_cast; rfl, rfl, hkeeps.buckets, hkeeps.histogram, hkeeps.histogramoverflow, hkeeps.operations, hkeeps.totallatency, rfl, rfl, hkeeps.min, hkeeps.max⟩

end OneMeasurementHistogram

/-- **A run** keeps what each call does; only for its summaries the counters have to be wide enough. -/
theorem keeps_run (format : ℚ → String) (calls : List Call) {n : ℕ} {latencies window : List Latency} {h : OneMeasurementHistogram}
    (hkeeps : Keeps n latencies window h) (hwindow : window <:+ latencies) (hfit : .getSummary ∈ calls → Fit (latencies ++ measured calls)) :
    ∃ window' t, run format h calls = .ok (means h.name format window calls, t) ∧ t.name = h.name ∧ Keeps n (latencies ++ measured calls) window' t := by
  induction calls generalizing latencies window h with
  | nil => exact ⟨window, h, rfl, rfl, by rwa [measured, List.append_nil]⟩
  | cons call calls ih =>
    cases call with
    | measure l =>
      obtain ⟨h', hmeasure, hname, hkeeps'⟩ := OneMeasurementHistogram.keeps_measure hkeeps l
      have hassoc : latencies ++ measured (.measure l :: calls) = latencies ++ [l] ++ measured calls := by simp [measured]
      have hwindow' : window ++ [l] <:+ latencies ++ [l] := by
        obtain ⟨before, rfl⟩ := hwindow
        exact ⟨before, (List.append_assoc ..).symm⟩
      obtain ⟨window', t, hrun, hname', hkeeps''⟩ := ih hkeeps' hwindow' fun hmem => hassoc ▸ hfit (List.mem_cons_of_mem _ hmem)
      refine ⟨window', t, ?_, hname'.trans hname, hassoc ▸ hkeeps''⟩
      rw [run, hmeasure, means, ← hname]
      exact hrun
    | getSummary =>
      have hall := hfit List.mem_cons_self
      obtain ⟨hreport, hname, hkeeps'⟩ := OneMeasurementHistogram.keeps_getSummary format hkeeps
        (hall.of_infix (hwindow.isInfix.trans (List.prefix_append latencies _).isInfix))
      obtain ⟨window', t, hrun, hname', hkeeps''⟩ := ih hkeeps' List.nil_suffix fun _ => hall
      refine ⟨window', t, ?_, hname'.trans hname, hkeeps''⟩
      rw [run, hrun, means, ← hreport, hname]
      rfl

/-! ### The percentiles -/

section Percentiles

variable {latencies : List Latency}

theorem share_eq_some (hne : latencies ≠ []) (i : ℕ) :
    ratio ((latencies.countP fun l => l.1 / 1000 < ((i + 1 : ℕ) : ℤ) : ℕ) : ℤ) (latencies.length : ℤ) = some (share latencies i) := by
  have hlength : ((latencies.length : ℤ) : ℚ) ≠ 0 := by simpa using hne
  have hcount : (latencies.countP fun l => l.1 / 1000 < ((i + 1 : ℕ) : ℤ)) = latencies.countP fun l => l.1 / 1000 ≤ (i : ℤ) := by
    refine List.countP_congr fun l _ => ?_
    simp only [decide_eq_true_eq]
    omega
  rw [ratio, if_neg hlength, share, hcount, Int.cast_natCast, Int.cast_natCast]

/-- A row of a percentile. -/
def percentileRow (name : String) (i : ℕ) : String × Value := (name, .int (asInt (i * 1000)))

open OneMeasurementHistogram in
/-- **One pass exports both percentiles**: the counts of the buckets from `i` on, where `done` says that the first is exported already. -/
theorem percentiles_eq (hne : latencies ≠ []) (hfit : Fit latencies) (k i : ℕ) (done : Bool) :
    percentiles latencies.length i (latencies.countP fun l => l.1 / 1000 < (i : ℤ) : ℕ) done
        ((List.range' i k).map fun j : ℕ => asLong (latencies.countP fun l => l.1 / 1000 = (j : ℤ))) =
      (if done then [] else ((List.range' i k).find? fun j => 95 / 100 ≤ share latencies j).toList.map (percentileRow "95thPercentileLatency(us)")) ++
        ((List.range' i k).find? fun j => 99 / 100 ≤ share latencies j).toList.map (percentileRow "99thPercentileLatency(us)") := by
  induction k generalizing i done with
  | zero => cases done <;> rfl
  | succ k ih =>
    have hopcounter : asLong ((latencies.countP fun l => l.1 / 1000 < (i : ℤ) : ℕ) + asLong (latencies.countP fun l => l.1 / 1000 = (i : ℤ))) =
        (latencies.countP fun l => l.1 / 1000 < ((i + 1 : ℕ) : ℤ) : ℕ) := by
      have hle := List.countP_le_length (p := fun l : Latency => l.1 / 1000 < ((i + 1 : ℕ) : ℤ)) (l := latencies)
      have hlt := hfit.length
      push_cast at hle ⊢
      rw [asLong_add_asLong, ← Nat.cast_add, ← countP_lt_add_one, asLong_of_fits ⟨by omega, by omega⟩]
    rw [List.range'_succ, List.map_cons, percentiles, hopcounter, share_eq_some hne]
    -- nothing is known yet of the count that is handed on
    have hnext := ih (i + 1)
    generalize ((latencies.countP fun l => l.1 / 1000 < ((i + 1 : ℕ) : ℤ) : ℕ) : ℤ) = opcounter at hnext ⊢
    simp only [atLeast, Option.any_some, List.find?_cons]
    by_cases h95 : 95 / 100 ≤ share latencies i
    · by_cases h99 : 99 / 100 ≤ share latencies i
      · cases done <;> simp [h95, h99, percentileRow]
      · cases done <;> simp [h95, h99, percentileRow, hnext]
    · have h99 : ¬ 99 / 100 ≤ share latencies i := fun h => h95 (le_trans (by norm_num) h)
      simp [h95, h99, hnext]

theorem exported_append (rows rows' : List (String × Value)) (name : String) : exported (rows ++ rows') name = exported rows name ++ exported rows' name := by
  simp [exported]

theorem exported_of_forall_ne {rows : List (String × Value)} {name : String} (h : ∀ row ∈ rows, row.1 ≠ name) : exported rows name = [] := by
  simpa [exported] using h

/-- The name of a percentile. -/
def IsPercentile (name : String) : Prop := name = "95thPercentileLatency(us)" ∨ name = "99thPercentileLatency(us)"

/-- It begins with a nine, and is not a number. -/
theorem IsPercentile.head {name : String} (h : IsPercentile name) : name.toList.head? = some '9' ∧ 't' ∈ name.toList := by
  obtain rfl | rfl := h <;> decide

theorem IsPercentile.ne_append {name : String} (h : IsPercentile name) {c : Char} (hc : c ≠ '9') (cs : List Char) : name.toList ≠ c :: cs := by
  intro heq
  have hhead := h.head.1
  rw [heq, List.head?_cons] at hhead
  exact hc (Option.some.inj hhead)

theorem IsPercentile.ne_toString {name : String} (h : IsPercentile name) (i : ℕ) : toString i ≠ name := by
  rintro rfl
  have hmem := h.head.2
  rw [Nat.toString_eq_repr, Nat.toList_repr] at hmem
  exact absurd (Nat.isDigit_of_mem_toDigits (by decide) (by decide) hmem) (by decide)

/-- What is exported under the name of a percentile the pass has exported. -/
theorem exported_exportMeasurements (h : OneMeasurementHistogram) (returncodes : List (String × ℤ)) {name : String} (hname : IsPercentile name) :
    exported (h.exportMeasurements returncodes) name = exported (OneMeasurementHistogram.percentiles h.operations 0 0 false h.histogram) name := by
  have hreturn : exported (returncodes.map fun entry => ("Return=" ++ entry.1, .int entry.2)) name = [] := by
    refine exported_of_forall_ne fun row hrow => ?_
    obtain ⟨entry, -, rfl⟩ := List.mem_map.mp hrow
    rintro rfl
    exact hname.ne_append (by decide) _ (String.toList_append ..)
  have hbuckets : exported (h.histogram.mapIdx fun i count => (toString i, .long count)) name = [] := by
    refine exported_of_forall_ne fun row hrow => ?_
    obtain ⟨i, -, rfl⟩ := List.mem_mapIdx.mp hrow
    exact hname.ne_toString i
  have hoverflow : exported [(">" ++ toString h.buckets, .long h.histogramoverflow)] name = [] := by
    refine exported_of_forall_ne fun row hrow => ?_
    obtain rfl := List.mem_singleton.mp hrow
    rintro rfl
    exact hname.ne_append (by decide) _ (String.toList_append ..)
  rw [OneMeasurementHistogram.exportMeasurements]
  simp only [exported_append, hreturn, List.append_nil]
  have hfirst : ∀ a b c d e, exported [("Operations", a), ("AverageLatency(us)", b), ("LatencyVariance(us)", c), ("MinLatency(us)", d), ("MaxLatency(us)", e)] name = [] := by
    obtain rfl | rfl := hname <;> simp [exported]
  rw [hfirst, List.nil_append]
  cases h.verbose with
  | false => exact List.append_nil _
  | true => rw [if_pos rfl, exported_append, hbuckets, hoverflow, List.append_nil, List.append_nil]

/-- The latencies of a least bucket are there, or it is the first. -/
theorem leastBucket_fits {n : ℕ} {fraction : ℚ} {i : ℕ} (h : leastBucket n latencies fraction = some i) : asInt (i * 1000) = i * 1000 := by
  obtain ⟨hreaches, -, hleast⟩ := List.find?_range_eq_some.mp h
  cases i with
  | zero => rfl
  | succ i =>
    have hbelow : share latencies i < fraction := by simpa using hleast i (Nat.lt_succ_self i)
    by_contra hfits
    -- else no latency is in the bucket
    have hsame : share latencies (i + 1) ≤ share latencies i := by
      refine div_le_div_of_nonneg_right (Nat.cast_le.mpr (List.countP_mono_left fun l _ hle => ?_)) (Nat.cast_nonneg _)
      simp only [decide_eq_true_eq] at hle ⊢
      have hlatency := l.2.2
      by_contra hlt
      exact hfits (asInt_of_fits ⟨by omega, by omega⟩)
    exact absurd ((of_decide_eq_true hreaches).trans hsame) (not_le.mpr hbelow)

/-- The rows of a percentile, under its name. -/
theorem exported_percentileRow (name name' : String) (bucket : Option ℕ) :
    exported (bucket.toList.map (percentileRow name)) name' = if name = name' then bucket.toList.map fun i : ℕ => .int (asInt (i * 1000)) else [] := by
  cases bucket with
  | none => simp [exported]
  | some i =>
    by_cases h : name = name'
    · simp [exported, percentileRow, h]
    · simp [exported, percentileRow, h]

variable {n : ℕ} {window : List Latency} {h : OneMeasurementHistogram}

/-- Each latency is counted in one place. -/
theorem Keeps.counts (hkeeps : Keeps n latencies window h) (hfit : Fit latencies) : h.histogram.sum + h.histogramoverflow = h.operations := by
  have hcount : ∀ p : Latency → Bool, asLong (latencies.countP p) = latencies.countP p := by
    intro p
    have hle := List.countP_le_length (p := p) (l := latencies)
    have hlength := hfit.length
    exact asLong_of_fits ⟨by omega, by omega⟩
  have hsum : h.histogram.sum = (latencies.countP fun l => 0 ≤ l.1 / 1000 ∧ l.1 / 1000 < (n : ℤ) : ℕ) := by
    rw [hkeeps.histogram, ← sum_countP (fun l : Latency => l.1 / 1000), Nat.cast_list_sum, List.map_map]
    exact congrArg List.sum (List.map_congr_left fun i _ => hcount _)
  have hbelow : (latencies.countP fun l => 0 ≤ l.1 / 1000 ∧ l.1 / 1000 < (n : ℤ)) = latencies.countP fun l => l.1 / 1000 < (n : ℤ) := by
    refine List.countP_congr fun l _ => ?_
    have hnonneg := l.2.1
    simp only [decide_eq_true_eq]
    omega
  rw [hsum, hbelow, hkeeps.histogramoverflow, hcount, hkeeps.operations, hfit.asLong_length, List.length_eq_countP_add_countP fun l : Latency => l.1 / 1000 < (n : ℤ)]
  push_cast
  simp

/-- **What a pass over the buckets exports.** -/
theorem Keeps.percentiles_eq (hkeeps : Keeps n latencies window h) (hfit : Fit latencies) (hne : latencies ≠ []) :
    OneMeasurementHistogram.percentiles h.operations 0 0 false h.histogram =
      (leastBucket n latencies (95 / 100)).toList.map (percentileRow "95thPercentileLatency(us)") ++
        (leastBucket n latencies (99 / 100)).toList.map (percentileRow "99thPercentileLatency(us)") := by
  have hzero : ((latencies.countP fun l => l.1 / 1000 < ((0 : ℕ) : ℤ) : ℕ) : ℤ) = 0 := by
    have hnone : (latencies.countP fun l => l.1 / 1000 < ((0 : ℕ) : ℤ)) = 0 := by
      refine List.countP_eq_zero.mpr fun l _ => ?_
      have hnonneg := l.2.1
      simp only [decide_eq_true_eq]
      omega
    rw [hnone]
    rfl
  have hpass := Measurements.percentiles_eq hne hfit n 0 false
  rw [hzero, ← List.range_eq_range', ← hkeeps.histogram, ← hfit.asLong_length, ← hkeeps.operations] at hpass
  exact hpass

/-- **What is exported of a percentile.** -/
theorem Keeps.exports (hkeeps : Keeps n latencies window h) (hfit : Fit latencies) (hne : latencies ≠ []) (returncodes : List (String × ℤ)) {name : String}
    {fraction : ℚ} (hname : (name = "95thPercentileLatency(us)" ∧ fraction = 95 / 100) ∨ (name = "99thPercentileLatency(us)" ∧ fraction = 99 / 100)) :
    exported (h.exportMeasurements returncodes) name = (leastBucket h.buckets.toNat latencies fraction).toList.map fun i : ℕ => .int (i * 1000) := by
  have hrows : exported (h.exportMeasurements returncodes) name = (leastBucket n latencies fraction).toList.map fun i : ℕ => .int (asInt (i * 1000)) := by
    rw [exported_exportMeasurements h returncodes (hname.imp And.left And.left), hkeeps.percentiles_eq hfit hne, exported_append, exported_percentileRow,
      exported_percentileRow]
    obtain ⟨rfl, rfl⟩ | ⟨rfl, rfl⟩ := hname
    · rw [if_pos rfl, if_neg (by decide), List.append_nil]
    · rw [if_neg (by decide), if_pos rfl, List.nil_append]
  rw [hrows, hkeeps.buckets, Int.toNat_natCast]
  refine List.map_congr_left fun i hi => ?_
  rw [leastBucket_fits (Option.mem_toList.mp hi)]

/-- The least bucket of a greater fraction is not before that of a smaller one. -/
theorem leastBucket_mono {n : ℕ} {f g : ℚ} (hfg : f ≤ g) {i j : ℕ} (hi : leastBucket n latencies f = some i) (hj : leastBucket n latencies g = some j) : i ≤ j := by
  obtain ⟨-, -, hleast⟩ := List.find?_range_eq_some.mp hi
  obtain ⟨hreaches, -, -⟩ := List.find?_range_eq_some.mp hj
  by_contra hlt
  have hbelow : share latencies j < f := by simpa using hleast j (not_le.mp hlt)
  exact absurd (hfg.trans (of_decide_eq_true hreaches)) (not_le.mpr hbelow)

end Percentiles

/-! ### Whole runs -/

/-- Latencies of more than half an hour, that come to `2⁶³` and more. -/
def longRun : List Call := List.replicate (2 ^ 32 + 3) (.measure ⟨2147483647, by decide⟩)

theorem measured_replicate (k : ℕ) (l : Latency) : measured (List.replicate k (.measure l)) = List.replicate k l := by
  induction k with
  | zero => rfl
  | succ k ih => rw [List.replicate_succ, measured, ih, List.replicate_succ]

end YcsbIvs.Measurements
