import YcsbIvs.Foundations.SortedMap
import YcsbIvs.TimeSeries.Workload
import YcsbIvs.Workloads.Values

/-!
# The state of a thread

A thread of `TimeSeriesWorkload` has a range of the keys, and writes a point of each of their series
for one timestamp before it goes on to the next. `nextDataPoint` makes a point of the series whose turn it
is, and counts on (`countOn`): the last tag is the fastest, then come the others, and then the key.
After the last series `rollover` is set, and the next call advances the timestamp generator.

If `sparsity` is positive a random number of series is passed over first. An update is stored under an older
timestamp than the current one, and so is an insert if the series is delayed; the value of a point under
`dataintegrity` is a hash of its tags and the current timestamp (`validationFunction`).

The map of a point is sorted by its names, as a `TreeMap` is.
-/

namespace YcsbIvs.TimeSeries

open YcsbIvs.Foundations YcsbIvs.Generator
open YcsbIvs.Workloads (hashCode)

/-! ### Points -/

/-- What a `StringByteIterator` or a `NumericByteIterator` holds. -/
inductive Cell where
  /-- A string. -/
  | string (s : Utf16)
  /-- A number of 64 bits. -/
  | long (n : ℤ)
  /-- A double, by its bits. -/
  | double (bits : UInt64)
  deriving DecidableEq

/-- A point: its key, and the map of its cells. -/
structure DataPoint where
  /-- The key. -/
  key : Utf16
  /-- The cells, by their names. -/
  map : SortedMap Utf16 Cell

/-- What is drawn for a point. -/
structure Draws where
  /-- How many series are passed over. -/
  iterations : ℕ
  /-- How old an update is. -/
  intervals : ℕ
  /-- `random.nextInt()`. -/
  integer : ℤ
  /-- `random.nextDouble() * (double) 100000`, by its bits. -/
  double : UInt64
  /-- `random.nextBoolean()`. -/
  boolean : Bool

/-! ### The state -/

/-- `ThreadState`. -/
structure ThreadState where
  /-- The timestamp generator. -/
  timestampGenerator : TimestampGenerator
  /-- What offsets of queries are drawn from. -/
  queryOffsetGenerator : UniformLongGenerator
  /-- The key whose turn it is. -/
  keyIdx : ℤ
  /-- The first key of the thread. -/
  keyIdxStart : ℤ
  /-- The end of its keys. -/
  keyIdxEnd : ℤ
  /-- The values of the tags whose turn it is. -/
  tagValueIdxs : List ℕ
  /-- Whether all series have had their turn. -/
  rollover : Bool
  /-- The first timestamp. -/
  startTimestamp : ℤ

/-- The timestamp generator of a new thread. -/
def newTimestampGenerator (w : TimeSeriesWorkload) (clock : Clock) (shuffle : List ℤ → List ℤ) : Except InitError TimestampGenerator := do
  let g ← match w.insertstart with
    | .unset => .ok (TimestampGenerator.ofClock clock w.timestampInterval w.timeUnits)
    | .notANumber => .error .insertStart
    | .at startTimestamp => .ok (TimestampGenerator.ofStart w.timestampInterval w.timeUnits startTimestamp)
  if w.randomizeTimestampOrder then rethrow (g.setup w.maxOffsets shuffle) else .ok g

/-- `new ThreadState(threadID, threadCount)`. -/
def newThreadState (w : TimeSeriesWorkload) (clock : Clock) (shuffle : List ℤ → List ℤ) (threadID threadCount : ℤ) :
    Except InitError ThreadState :=
  let totalThreads := if 0 < threadCount then threadCount else 1
  if totalThreads ≤ threadID then .error (.thrown .illegalState)
  else if (w.keys.length : ℤ) < threadCount then .error .threadCount
  else do
    let keysPerThread := (w.keys.length : ℤ).tdiv totalThreads
    let keyIdx := asInt (keysPerThread * threadID)
    let g ← newTimestampGenerator w clock shuffle
    let (startTimestamp, g) ← rethrow g.nextValue
    .ok
      { timestampGenerator := g
        queryOffsetGenerator := .new 0 (asInt (w.maxOffsets - 2))
        keyIdx := keyIdx
        keyIdxStart := keyIdx
        keyIdxEnd := if totalThreads - 1 = threadID then w.keys.length else asInt (keyIdx + keysPerThread)
        tagValueIdxs := List.replicate w.tagPairs 0
        rollover := false
        startTimestamp := startTimestamp }

/-! ### Counting -/

/-- The loop of `nextDataPoint` over the tags before number `i`, from the last on. The indices are in range. -/
def rollLoop (tagCardinality : List ℕ) (firstIncrementableCardinality : ℕ) : ℕ → List ℕ → Bool → List ℕ × Bool
  | 0, tagValueIdxs, tagRollover => (tagValueIdxs, tagRollover)
  | i + 1, tagValueIdxs, tagRollover =>
    if tagCardinality.getD i 0 ≤ 1 then rollLoop tagCardinality firstIncrementableCardinality i tagValueIdxs true
    else if tagCardinality.getD i 0 ≤ tagValueIdxs.getD i 0 + 1 then
      rollLoop tagCardinality firstIncrementableCardinality i (tagValueIdxs.set i 0)
        (if i = firstIncrementableCardinality then true else tagRollover)
    else (tagValueIdxs.set i (tagValueIdxs.getD i 0 + 1), tagRollover)

/-- The end of a round of `nextDataPoint`: the next series. -/
def countOn (w : TimeSeriesWorkload) (s : ThreadState) : ThreadState :=
  let (tagValueIdxs, tagRollover) :=
    rollLoop w.tagCardinality w.firstIncrementableCardinality w.tagCardinality.length s.tagValueIdxs false
  let s := { s with tagValueIdxs := tagValueIdxs }
  if tagRollover then
    if s.keyIdxEnd ≤ s.keyIdx + 1 then { s with keyIdx := s.keyIdxStart, rollover := true }
    else { s with keyIdx := s.keyIdx + 1 }
  else s

/-- The beginning of a round of `nextDataPoint`. -/
def advance (s : ThreadState) : Except Thrown ThreadState :=
  if s.rollover then do
    let (_, g) ← s.timestampGenerator.nextValue
    .ok { s with timestampGenerator := g, rollover := false }
  else .ok s

/-- The rounds of `nextDataPoint` that write nothing. -/
def passOver (w : TimeSeriesWorkload) : ℕ → ThreadState → Except Thrown ThreadState
  | 0, s => .ok s
  | n + 1, s => do
    let s ← advance s
    passOver w n (countOn w s)

/-! ### Making a point -/

/-- `a ^ b`. -/
def xorLong (a b : ℤ) : ℤ := (BitVec.ofInt 64 a ^^^ BitVec.ofInt 64 b).toInt

/-- `validationFunction(key, timestamp, tags)`. The key is used for the capacity of the buffer only. -/
def validationFunction (w : TimeSeriesWorkload) (timestamp : ℤ) (tags : SortedMap Utf16 Utf16) : Except Thrown ℤ := do
  let key ← elementAt w.keys 0
  let tagKey ← elementAt w.tagKeys 0
  let card ← elementAt w.tagCardinality 1
  if asInt (key.length + w.tagPairs * tagKey.length + w.tagPairs * card) < 0 then .error .negativeArraySize
  else
    let validationBuffer := (tags.entries.map fun pair => pair.1 ++ pair.2).flatten
    .ok (xorLong (hashCode validationBuffer) timestamp)

/-- What the loop over the tags makes. -/
structure TagState where
  /-- `map`. -/
  map : SortedMap Utf16 Cell
  /-- `validationTags`. -/
  validationTags : SortedMap Utf16 Utf16
  /-- `overallIdx`. -/
  overallIdx : ℤ

/-- The loop over the tags, of those in `is`. -/
def tagLoop (w : TimeSeriesWorkload) (s : ThreadState) : List ℕ → TagState → Except Thrown TagState
  | [], t => .ok t
  | i :: is, t => do
    let tvidx ← elementAt s.tagValueIdxs i
    let tagKey ← elementAt w.tagKeys i
    let tagValue ← elementAt w.tagValues tvidx
    let map := t.map.put tagKey (.string tagValue)
    let validationTags := if w.dataintegrity then t.validationTags.put tagKey tagValue else t.validationTags
    if w.delayedSeries.positive then do
      let weight ← elementAt w.cumulativeCardinality (i + 1)
      tagLoop w s is ⟨map, validationTags, asInt (t.overallIdx + tvidx * weight)⟩
    else tagLoop w s is ⟨map, validationTags, t.overallIdx⟩

/-- How far a series is delayed. -/
def delayOf (w : TimeSeriesWorkload) (overallIdx : ℤ) : Except Thrown ℤ :=
  if w.delayedSeries.positive then
    if w.delayedSeries.above overallIdx w.totalCardinality then do
      let modulo ← modulo overallIdx w.delayedIntervals
      let modulo := if modulo < 0 then asInt (modulo * -1) else modulo
      .ok (asInt (w.timestampInterval * modulo))
    else .ok 0
  else .ok 0

/-- The timestamp a point is stored under. -/
def timestampOf (w : TimeSeriesWorkload) (s : ThreadState) (overallIdx : ℤ) (isInsert : Bool) (draws : Draws) : Except Thrown ℤ :=
  if !isInsert then do
    let delta ← divide (asLong (s.timestampGenerator.currentTimestamp - s.startTimestamp)) w.timestampInterval
    let intervals ← nextInt (asInt delta) draws.intervals
    .ok (asLong (s.startTimestamp + asInt (intervals * w.timestampInterval)))
  else do
    let delay ← delayOf w overallIdx
    .ok (asLong (s.timestampGenerator.currentTimestamp - delay))

/-- The value of a point. -/
def valueOf (w : TimeSeriesWorkload) (s : ThreadState) (validationTags : SortedMap Utf16 Utf16) (draws : Draws) : Except Thrown Cell :=
  if w.dataintegrity then do
    let hash ← validationFunction w s.timestampGenerator.currentTimestamp validationTags
    .ok (.long hash)
  else match w.valueType with
    | .integers => .ok (.long (asInt draws.integer))
    | .floats => .ok (.double draws.double)
    | .mixed => .ok (if draws.boolean then .long (asInt draws.integer) else .double draws.double)

/-- The part of `nextDataPoint` that makes the point of the series whose turn it is. -/
def makePoint (w : TimeSeriesWorkload) (s : ThreadState) (isInsert : Bool) (draws : Draws) : Except Thrown DataPoint := do
  let key ← elementAt w.keys s.keyIdx
  let weight ← elementAt w.cumulativeCardinality 0
  let t ← tagLoop w s (List.range w.tagPairs) ⟨.empty, .empty, asInt (s.keyIdx * weight)⟩
  let timestamp ← timestampOf w s t.overallIdx isInsert draws
  let map := t.map.put w.timestampKey (.long timestamp)
  let value ← valueOf w s t.validationTags draws
  .ok ⟨key, map.put w.valueKey value⟩

/-- `nextDataPoint(map, isInsert)`: the point, and the state after it. -/
def nextDataPoint (w : TimeSeriesWorkload) (s : ThreadState) (isInsert : Bool) (draws : Draws) :
    Except Thrown (DataPoint × ThreadState) := do
  let iterations ← if w.sparsity.nonPositive then .ok 1 else nextInt (w.sparsity.times w.perKeyCardinality) draws.iterations
  let iterations := if iterations < 1 then 1 else iterations
  let s ← passOver w (iterations.toNat - 1) s
  let s ← advance s
  let point ← makePoint w s isInsert draws
  .ok (point, countOn w s)

end YcsbIvs.TimeSeries
