import YcsbIvs.Generator.Crashes
import YcsbIvs.TimeSeries.Coverage
import YcsbIvs.TimeSeries.Queries
import YcsbIvs.TimeSeries.Reachable
import YcsbIvs.Workloads.NextKeynum

/-!
# The operations of a thread

A thread inserts and updates points, reads, scans and deletes; of its state only inserts and updates change anything (`perform`). What a
chooser or generator draws with a remainder is drawn here, and so are the keys of a `ScrambledZipfianGenerator`, from what its zipfian generator gives. What
the service answers a read with is an argument.

The loops of `nextDataPoint` that count on take their indices to be in range. Here they are written with the accesses that could throw
(`nextDataPointChecked`); in every state that a thread can reach it is the same (`nextDataPointChecked_eq`).
-/

namespace YcsbIvs.TimeSeries

open YcsbIvs.Core YcsbIvs.Foundations YcsbIvs.Generator
open YcsbIvs.Workloads (KeyDraw)

/-! ### Counting, with its accesses -/

/-- The loop of `nextDataPoint` over the tags before number `i`, from the last on. -/
def rollLoopChecked (tagCardinality : List ℕ) (firstIncrementableCardinality : ℕ) : ℕ → List ℕ → Bool → Except Thrown (List ℕ × Bool)
  | 0, tagValueIdxs, tagRollover => .ok (tagValueIdxs, tagRollover)
  | i + 1, tagValueIdxs, tagRollover => do
    let card ← elementAt tagCardinality i
    if card ≤ 1 then rollLoopChecked tagCardinality firstIncrementableCardinality i tagValueIdxs true
    else do
      let tvidx ← elementAt tagValueIdxs i
      if card ≤ tvidx + 1 then
        rollLoopChecked tagCardinality firstIncrementableCardinality i (tagValueIdxs.set i 0)
          (if i = firstIncrementableCardinality then true else tagRollover)
      else .ok (tagValueIdxs.set i (tvidx + 1), tagRollover)

/-- The end of a round of `nextDataPoint`. -/
def countOnChecked (w : TimeSeriesWorkload) (s : ThreadState) : Except Thrown ThreadState := do
  let (tagValueIdxs, tagRollover) ←
    rollLoopChecked w.tagCardinality w.firstIncrementableCardinality w.tagCardinality.length s.tagValueIdxs false
  let s := { s with tagValueIdxs := tagValueIdxs }
  .ok (if tagRollover then
      if s.keyIdxEnd ≤ s.keyIdx + 1 then { s with keyIdx := s.keyIdxStart, rollover := true }
      else { s with keyIdx := s.keyIdx + 1 }
    else s)

/-- The rounds of `nextDataPoint` that write nothing. -/
def passOverChecked (w : TimeSeriesWorkload) : ℕ → ThreadState → Except Thrown ThreadState
  | 0, s => .ok s
  | n + 1, s => do
    let s ← advance s
    let s ← countOnChecked w s
    passOverChecked w n s

/-- `nextDataPoint(map, isInsert)`. -/
def nextDataPointChecked (w : TimeSeriesWorkload) (s : ThreadState) (isInsert : Bool) (draws : Draws) :
    Except Thrown (DataPoint × ThreadState) := do
  let iterations ← if w.sparsity.nonPositive then .ok 1 else nextInt (w.sparsity.times w.perKeyCardinality) draws.iterations
  let iterations := if iterations < 1 then 1 else iterations
  let s ← passOverChecked w (iterations.toNat - 1) s
  let s ← advance s
  let point ← makePoint w s isInsert draws
  let s ← countOnChecked w s
  .ok (point, s)

/-! ### Choosers -/

/-- `new ScrambledZipfianGenerator(min, max).nextValue()`, if `gen.nextValue()` gives `ret`. -/
def scrambled (min max ret : ℤ) : Except Thrown ℤ := do
  let r ← modulo (Workloads.hash ret) (asLong (max - min + 1))
  .ok (asLong (min + r))

/-- The `keychooser` that `init` makes for so many keys; none for a `ScrambledZipfianGenerator`. -/
def newKeyChooser (numKeys : ℤ) : KeyChooser → Option Workloads.KeyChooser
  | .uniform => some (.uniform (.new 0 (numKeys - 1)))
  | .sequential => some (.sequential (.new 0 (numKeys - 1)))
  | .zipfian => none
  | .hotspot hotsetfraction hotopnfraction => some (.hotspot (.new 0 (numKeys - 1) hotsetfraction hotopnfraction))

/-- What is drawn for a read, and the answer of the service. -/
structure ReadDraws where
  /-- What was drawn for the values that threads have taken from `keychooser` before. -/
  before : List KeyDraw
  /-- What it draws for this one. -/
  key : KeyDraw
  /-- `nextLong()` is a number of 64 bits. -/
  fits : FitsLong key.number
  /-- What the zipfian generator gives. -/
  ret : ℤ
  /-- What else is drawn. -/
  query : QueryDraws
  /-- `cells`, if the status is `OK`. -/
  cells : Option (List (Utf16 × Cell))

/-- `keychooser.nextValue()`. -/
def nextKeynum (w : TimeSeriesWorkload) (d : ReadDraws) : Except Thrown ℤ :=
  match newKeyChooser w.keys.length w.keychooser with
  | some c => ((c.after d.before).nextValue d.key).1
  | none => scrambled 0 (w.keys.length - 1) d.ret

/-- What is drawn for a scan. -/
structure ScanDraws where
  /-- `nextLong()`, for a length that is uniform. -/
  nextLong : ℤ
  /-- What a zipfian generator of lengths gives. -/
  ret : ℤ
  /-- What else is drawn. -/
  query : QueryDraws

/-- `scanlength.nextValue()`. -/
def nextScanLength (w : TimeSeriesWorkload) (d : ScanDraws) : Except Thrown ℤ :=
  match w.scanlength with
  | .uniform => (UniformLongGenerator.new 1 w.maxscanlength).nextValue d.nextLong
  | .zipfian => .ok d.ret

/-! ### Operations -/

/-- What `doTransactionDelete` deletes. -/
def deleteQuery (w : TimeSeriesWorkload) (s : ThreadState) (draws : QueryDraws) : Except Thrown Query := do
  let n ← nextInt w.keys.length draws.keyIdx
  let keyname ← elementAt w.keys n
  let offsets ← nextInt (asInt (w.maxOffsets - 1)) draws.offsets
  let startTimestamp := startOf s offsets
  let tags ← chooseTags w draws.values (List.range w.tagPairs)
  let endTimestamp ← endOf w startTimestamp draws.span
  .ok ⟨keyname, startTimestamp, endTimestamp, tags⟩

/-- `doTransactionDelete(db, threadstate)`: the string of what is deleted. -/
def doTransactionDelete (w : TimeSeriesWorkload) (s : ThreadState) (draws : QueryDraws) : Except Thrown Utf16 := do
  let q ← deleteQuery w s draws
  .ok (q.keyname ++ (q.tags.map fun tag => w.deleteDelimiter ++ tagField w tag).flatten ++ w.deleteDelimiter ++ timestampField w q)

/-- The end of `doTransactionRead`. -/
def verifyCells (w : TimeSeriesWorkload) (cells : Option (List (Utf16 × Cell))) : Except Thrown Unit :=
  match cells with
  | some cells =>
    if w.dataintegrity then do
      let _ ← verifyRow w cells
      .ok ()
    else .ok ()
  | none => .ok ()

/-- A call of `nextDataPoint` by an insert or an update, or of another operation. -/
inductive Call where
  /-- `doTransactionInsert`, and `doInsert`. -/
  | insert (draws : Draws)
  /-- `doTransactionUpdate`. -/
  | update (draws : Draws)
  /-- `doTransactionRead`. -/
  | read (draws : ReadDraws)
  /-- `doTransactionScan`. -/
  | scan (draws : ScanDraws)
  /-- `doTransactionDelete`. -/
  | delete (draws : QueryDraws)

/-- A call: the state after it. A scan draws its key before its length, which makes no difference, since the key can not throw. -/
def perform (w : TimeSeriesWorkload) (s : ThreadState) : Call → Except Thrown ThreadState
  | .insert draws => do
    let (_, s) ← nextDataPointChecked w s true draws
    .ok s
  | .update draws => do
    let (_, s) ← nextDataPointChecked w s false draws
    .ok s
  | .read draws => do
    let keynum ← nextKeynum w draws
    let _ ← doTransactionRead w s { draws.query with keynum := keynum }
    let _ ← verifyCells w draws.cells
    .ok s
  | .scan draws => do
    let len ← nextScanLength w draws
    let _ ← doTransactionScan w s { draws.query with len := len }
    .ok s
  | .delete draws => do
    let _ ← doTransactionDelete w s draws
    .ok s

/-! ### What operations keep -/

/-- **What holds of a thread in every state**: it is the turn of one of its series, and its keys are keys of the workload. -/
structure InTurn (w : TimeSeriesWorkload) (s : ThreadState) : Prop where
  /-- It is the turn of one of its series. -/
  turn : IsSeries w s s.turn
  /-- Its first key is one of the workload. -/
  start_nonneg : 0 ≤ s.keyIdxStart
  /-- Its last key is one of the workload. -/
  end_le : s.keyIdxEnd ≤ w.keys.length
  /-- Offsets are below the number of intervals. -/
  queryOffsetGenerator_eq : s.queryOffsetGenerator = .new 0 (asInt (w.maxOffsets - 2))

section

variable {w : TimeSeriesWorkload} {s s' : ThreadState}

theorem IsNew.inTurn (h : IsNew w s) (haccepted : Accepted w) : InTurn w s :=
  ⟨h.isSeries haccepted, h.start_nonneg, h.end_le, h.queryOffsetGenerator_eq⟩

theorem InTurn.length_tagValueIdxs (h : InTurn w s) : s.tagValueIdxs.length = w.tagCardinality.length := by
  have hlen := h.turn.2.2.length_eq
  rw [List.length_map] at hlen
  exact hlen.symm

theorem InTurn.advance (h : InTurn w s) (hadvance : advance s = .ok s') : InTurn w s' := by
  obtain ⟨hsame, hturn, -⟩ := advance_inv hadvance
  refine ⟨hturn ▸ hsame.isSeries_iff.mpr h.turn, hsame.start_eq ▸ h.start_nonneg, hsame.end_eq ▸ h.end_le, ?_⟩
  rw [TimeSeries.advance] at hadvance
  split_ifs at hadvance
  · obtain ⟨o, -, hadvance⟩ := bind_inv hadvance
    cases hadvance
    exact h.queryOffsetGenerator_eq
  · cases hadvance
    exact h.queryOffsetGenerator_eq

theorem queryOffsetGenerator_countOn : (countOn w s).queryOffsetGenerator = s.queryOffsetGenerator := by
  rw [countOn]
  dsimp only
  split_ifs <;> rfl

theorem InTurn.countOn (h : InTurn w s) : InTurn w (countOn w s) := by
  have hsame : SameKeys s (TimeSeries.countOn w s) := ⟨keyIdxStart_countOn, keyIdxEnd_countOn⟩
  exact ⟨hsame.isSeries_iff.mpr (isSeries_countOn h.turn), hsame.start_eq ▸ h.start_nonneg, hsame.end_eq ▸ h.end_le,
    queryOffsetGenerator_countOn.trans h.queryOffsetGenerator_eq⟩

theorem InTurn.passOver (h : InTurn w s) {n : ℕ} (hpass : passOver w n s = .ok s') : InTurn w s' :=
  passOver_keeps (fun _ _ hI => hI.advance) (fun _ hI => hI.countOn) h hpass

theorem InTurn.atTurn (h : InTurn w s) {draws : Draws} (hturn : atTurn w s draws = .ok s') : InTurn w s' :=
  atTurn_keeps (fun _ _ hI => hI.advance) (fun _ hI => hI.countOn) h hturn

theorem InTurn.nextDataPoint (h : InTurn w s) {isInsert : Bool} {draws : Draws} {point : DataPoint}
    (hnext : nextDataPoint w s isInsert draws = .ok (point, s')) : InTurn w s' :=
  nextDataPoint_keeps (fun _ _ hI => hI.advance) (fun _ hI => hI.countOn) h hnext

/-! ### The accesses of the loops -/

/-- The loop over the tags goes through indices of both arrays. -/
theorem rollLoopChecked_eq {cards idxs : List ℕ} (first : ℕ) {i : ℕ} (tagRollover : Bool) (hlen : idxs.length = cards.length) (hi : i ≤ cards.length) :
    rollLoopChecked cards first i idxs tagRollover = .ok (rollLoop cards first i idxs tagRollover) := by
  induction i generalizing idxs tagRollover with
  | zero => rfl
  | succ i ih =>
    obtain ⟨card, hcard⟩ := elementAt_of_lt (l := cards) (i := i) (by omega) (by omega)
    obtain ⟨tvidx, htvidx⟩ := elementAt_of_lt (l := idxs) (i := i) (by omega) (by omega)
    have hset : ∀ x, (idxs.set i x).length = cards.length := fun x => List.length_set.trans hlen
    rw [rollLoopChecked, bind_ok hcard, rollLoop, elementAt_inv hcard, elementAt_inv htvidx]
    by_cases hone : card ≤ 1
    · rw [if_pos hone, if_pos hone]
      exact ih true hlen (by omega)
    · rw [if_neg hone, if_neg hone, bind_ok htvidx]
      by_cases hlast : card ≤ tvidx + 1
      · rw [if_pos hlast, if_pos hlast]
        exact ih _ (hset 0) (by omega)
      · rw [if_neg hlast, if_neg hlast]

theorem InTurn.countOnChecked_eq (h : InTurn w s) : countOnChecked w s = .ok (TimeSeries.countOn w s) := by
  rw [countOnChecked, bind_ok (rollLoopChecked_eq w.firstIncrementableCardinality false h.length_tagValueIdxs (le_refl _))]
  rfl

theorem InTurn.passOverChecked_eq (h : InTurn w s) (n : ℕ) : passOverChecked w n s = TimeSeries.passOver w n s := by
  induction n generalizing s with
  | zero => rfl
  | succ n ih =>
    rw [passOverChecked, TimeSeries.passOver]
    cases hadvance : TimeSeries.advance s with
    | error e => rfl
    | ok s₁ =>
      have h₁ := h.advance hadvance
      rw [bind_ok rfl, bind_ok rfl, bind_ok h₁.countOnChecked_eq]
      exact ih h₁.countOn

/-- **In every state of a thread the indices of the loops are in range.** -/
theorem InTurn.nextDataPointChecked_eq (h : InTurn w s) (isInsert : Bool) (draws : Draws) :
    nextDataPointChecked w s isInsert draws = TimeSeries.nextDataPoint w s isInsert draws := by
  have hrest : ∀ first : Except Thrown ℤ, (do
        let iterations ← first
        let iterations := if iterations < 1 then 1 else iterations
        let s ← passOverChecked w (iterations.toNat - 1) s
        let s ← TimeSeries.advance s
        let point ← makePoint w s isInsert draws
        let s ← countOnChecked w s
        .ok (point, s)) = (do
        let iterations ← first
        let iterations := if iterations < 1 then 1 else iterations
        let s ← TimeSeries.passOver w (iterations.toNat - 1) s
        let s ← TimeSeries.advance s
        let point ← makePoint w s isInsert draws
        .ok (point, TimeSeries.countOn w s)) := by
    intro first
    refine bind_congr fun iterations => ?_
    dsimp only
    rw [h.passOverChecked_eq]
    cases hpass : TimeSeries.passOver w ((if iterations < 1 then 1 else iterations).toNat - 1) s with
    | error e => rfl
    | ok s₁ =>
      rw [bind_ok rfl, bind_ok rfl]
      cases hadvance : TimeSeries.advance s₁ with
      | error e => rfl
      | ok s₂ =>
        rw [bind_ok rfl, bind_ok rfl, ((h.passOver hpass).advance hadvance).countOnChecked_eq]
        rfl
  rw [nextDataPointChecked, TimeSeries.nextDataPoint]
  by_cases hsparsity : w.sparsity.nonPositive = true
  · rw [if_pos hsparsity, if_pos hsparsity]
    exact hrest _
  · rw [if_neg hsparsity, if_neg hsparsity]
    exact hrest _

/-- **Every operation keeps it.** -/
theorem InTurn.perform (h : InTurn w s) {call : Call} (hperform : perform w s call = .ok s') : InTurn w s' := by
  cases call with
  | insert draws =>
    obtain ⟨⟨point, s₁⟩, hnext, hperform⟩ := bind_inv hperform
    cases hperform
    rw [h.nextDataPointChecked_eq] at hnext
    exact h.nextDataPoint hnext
  | update draws =>
    obtain ⟨⟨point, s₁⟩, hnext, hperform⟩ := bind_inv hperform
    cases hperform
    rw [h.nextDataPointChecked_eq] at hnext
    exact h.nextDataPoint hnext
  | read draws =>
    obtain ⟨keynum, -, hperform⟩ := bind_inv hperform
    obtain ⟨fields, -, hperform⟩ := bind_inv hperform
    obtain ⟨-, -, hperform⟩ := bind_inv hperform
    cases hperform
    exact h
  | scan draws =>
    obtain ⟨len, -, hperform⟩ := bind_inv hperform
    obtain ⟨fields, -, hperform⟩ := bind_inv hperform
    cases hperform
    exact h
  | delete draws =>
    obtain ⟨key, -, hperform⟩ := bind_inv hperform
    cases hperform
    exact h

end

end YcsbIvs.TimeSeries
