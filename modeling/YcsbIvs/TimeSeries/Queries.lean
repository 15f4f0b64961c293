import YcsbIvs.TimeSeries.ThreadState
import YcsbIvs.Workloads.KeyNumbers

/-!
# Queries

A read or a scan of `TimeSeriesWorkload` asks for the points of a series from a timestamp on, the first or a later one by a number
of intervals; if `querytimespan` is positive, up to another. The tags of the series get values that are drawn. All of this goes to the binding as a set
of strings: a pair of key and value for each tag, one for the timestamps, and one for the downsampling if it is on.

The pair of the downsampling is written in two ways (`downsampleField`, `downsampleFieldOfScan`).
-/

namespace YcsbIvs.TimeSeries

open YcsbIvs.Foundations YcsbIvs.Generator
open YcsbIvs.Workloads (longToString)

/-- What is drawn for a query. -/
structure QueryDraws where
  /-- `keychooser.nextValue()`, of a read. -/
  keynum : ℤ
  /-- The number of the key, of a scan. -/
  keyIdx : ℕ
  /-- `scanlength.nextValue()`. -/
  len : ℤ
  /-- `nextLong()` of `queryOffsetGenerator`, of a read. -/
  nextLong : ℤ
  /-- The offset, of a scan. -/
  offsets : ℕ
  /-- The numbers of the values. -/
  values : ℕ → ℕ
  /-- How long the time span is. -/
  span : ℕ

/-- What a read or a scan asks for. -/
structure Query where
  /-- `keyname`. -/
  keyname : Utf16
  /-- `startTimestamp`. -/
  startTimestamp : ℤ
  /-- `endTimestamp`, if the query has a time span. -/
  endTimestamp : Option ℤ
  /-- The keys of the tags and the values drawn for them; none is drawn for a tag to group by. -/
  tags : List (Utf16 × Option Utf16)

/-! ### What is chosen -/

/-- `startTimestamp`, so many intervals after the first. -/
def startOf (s : ThreadState) (offsets : ℤ) : ℤ :=
  if 0 < offsets then asLong (s.startTimestamp + s.timestampGenerator.getOffset offsets) else s.startTimestamp

/-- A round of the loop over the tags: the key of tag number `i`, and a value. -/
def chooseTag (w : TimeSeriesWorkload) (draw : ℕ) (i : ℕ) : Except Thrown (Utf16 × Option Utf16) := do
  let grouped ← if w.groupBy then elementAt w.groupBys i else .ok false
  let tagKey ← elementAt w.tagKeys i
  if grouped then .ok (tagKey, none)
  else do
    let card ← elementAt w.tagCardinality i
    let n ← nextInt card draw
    let tagValue ← elementAt w.tagValues n
    .ok (tagKey, some tagValue)

/-- The loop over the tags, of those in `is`. -/
def chooseTags (w : TimeSeriesWorkload) (values : ℕ → ℕ) : List ℕ → Except Thrown (List (Utf16 × Option Utf16))
  | [] => .ok []
  | i :: is => do
    let tag ← chooseTag w (values i) i
    let tags ← chooseTags w values is
    .ok (tag :: tags)

/-- `endTimestamp`. -/
def endOf (w : TimeSeriesWorkload) (startTimestamp : ℤ) (span : ℕ) : Except Thrown (Option ℤ) :=
  if 0 < w.queryTimeSpan then
    if w.queryRandomTimeSpan then do
      let bound ← divide w.queryTimeSpan w.timestampInterval
      let intervals ← nextInt bound span
      .ok (some (asLong (startTimestamp + asInt (w.timestampInterval * intervals))))
    else .ok (some (asLong (startTimestamp + w.queryTimeSpan)))
  else .ok none

/-- What `doTransactionRead` reads. -/
def readQuery (w : TimeSeriesWorkload) (s : ThreadState) (draws : QueryDraws) : Except Thrown Query := do
  let keyname ← elementAt w.keys (asInt draws.keynum)
  let offsets ← s.queryOffsetGenerator.nextValue draws.nextLong
  let startTimestamp := startOf s (asInt offsets)
  let tags ← chooseTags w draws.values (List.range w.tagPairs)
  let endTimestamp ← endOf w startTimestamp draws.span
  .ok ⟨keyname, startTimestamp, endTimestamp, tags⟩

/-- What `doTransactionScan` scans, and the length of the scan. -/
def scanQuery (w : TimeSeriesWorkload) (s : ThreadState) (draws : QueryDraws) : Except Thrown (Query × ℤ) := do
  let n ← nextInt w.keys.length draws.keyIdx
  let keyname ← elementAt w.keys n
  let len := asInt draws.len
  let offsets ← nextInt (asInt (w.maxOffsets - 1)) draws.offsets
  let startTimestamp := startOf s offsets
  let tags ← chooseTags w draws.values (List.range w.tagPairs)
  let endTimestamp ← endOf w startTimestamp draws.span
  .ok (⟨keyname, startTimestamp, endTimestamp, tags⟩, len)

/-! ### The strings of a query -/

/-- A string that is appended, or `null`. -/
def orNull (s : Option Utf16) : Utf16 := s.getD [0x6E, 0x75, 0x6C, 0x6C]

/-- The string of a tag. -/
def tagField (w : TimeSeriesWorkload) (tag : Utf16 × Option Utf16) : Utf16 :=
  match tag.2 with
  | none => tag.1
  | some value => tag.1 ++ w.tagPairDelimiter ++ value

/-- The timestamps of a query. -/
def Query.timestamps (w : TimeSeriesWorkload) (q : Query) : Utf16 :=
  match q.endTimestamp with
  | none => longToString q.startTimestamp
  | some endTimestamp => longToString q.startTimestamp ++ w.queryTimeSpanDelimiter ++ longToString endTimestamp

/-- The string of the timestamps. -/
def timestampField (w : TimeSeriesWorkload) (q : Query) : Utf16 := w.timestampKey ++ w.tagPairDelimiter ++ q.timestamps w

/-- The string to group by. -/
def groupByField (w : TimeSeriesWorkload) : Utf16 := w.groupByKey ++ w.tagPairDelimiter ++ orNull w.groupByFunction

/-- The string of the downsampling, in a read. -/
def downsampleField (w : TimeSeriesWorkload) : Utf16 :=
  w.downsampleKey ++ w.tagPairDelimiter ++ (orNull w.downsampleFunction ++ longToString w.downsampleInterval)

/-- The string of the downsampling, in a scan. -/
def downsampleFieldOfScan (w : TimeSeriesWorkload) : Utf16 :=
  w.downsampleKey ++ w.tagPairDelimiter ++ (orNull w.downsampleFunction ++ w.tagPairDelimiter ++ longToString w.downsampleInterval)

/-- The strings of a query, with this string of the downsampling. -/
def Query.strings (w : TimeSeriesWorkload) (q : Query) (downsampling : Utf16) : List Utf16 :=
  (q.tags.map (tagField w) ++ [timestampField w q] ++ (if w.groupBy then [groupByField w] else [])
    ++ if w.downsample then [downsampling] else []).dedup

/-- `doTransactionRead(db, threadstate)`: the key and the fields that are read. -/
def doTransactionRead (w : TimeSeriesWorkload) (s : ThreadState) (draws : QueryDraws) : Except Thrown (Utf16 × List Utf16) := do
  let q ← readQuery w s draws
  .ok (q.keyname, q.strings w (downsampleField w))

/-- `doTransactionScan(db, threadstate)`: the key, the length and the fields of the scan. -/
def doTransactionScan (w : TimeSeriesWorkload) (s : ThreadState) (draws : QueryDraws) : Except Thrown (Utf16 × ℤ × List Utf16) := do
  let (q, len) ← scanQuery w s draws
  .ok (q.keyname, len, q.strings w (downsampleFieldOfScan w))

end YcsbIvs.TimeSeries
