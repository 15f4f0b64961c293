import YcsbIvs.Core.DB
import YcsbIvs.Foundations.Doubles
import YcsbIvs.TimeSeries.ThreadState

/-!
# Verifying a point

With `dataintegrity` the value of a point is a hash of its tags and a timestamp. `verifyRow` makes the hash again, of the tags and
the timestamp that it finds in the cells, and compares the two as doubles.

`nextDataPoint` hashes the timestamp its generator is at. It does not store that of an update, nor of an insert of a delayed series, but
an older one; and `validateSettings` forbids neither. Besides, a cell is taken for the timestamp or the value by its name, and
nothing keeps a tag from having that name, or the two from having the same.

**What `nextDataPoint` makes is verified just if the hash is found again in its cells** (`verifyRow_iff`). If the names are apart
this is so of an insert that is not delayed (`verifyRow_of_undelayed`).
-/

namespace YcsbIvs.TimeSeries

open YcsbIvs.Core YcsbIvs.Foundations YcsbIvs.Generator
open YcsbIvs.Workloads (hashCode)

/-! ### Cells -/

/-- `Utils.longToBytes(val)`. -/
def longToBytes (val : ℤ) : Bytes := putInt (val / 2 ^ 32) ++ putInt val

namespace Cell

/-- `getLong()` of the cell as a `NumericByteIterator`. -/
def getLong : Cell → Except Thrown ℤ
  | string _ => .error .classCast
  | long n => .ok n
  | double _ => .error .illegalState

/-- The value of the cell as a `NumericByteIterator`. -/
def getValue : Cell → Except Thrown Float
  | string _ => .error .classCast
  | long n => .ok (longToDouble n)
  | double bits => .ok (.ofBits bits)

/-- `toString()`. -/
def toString : Cell → Utf16
  | string s => s
  | long n => decode (longToBytes n)
  | double bits => decode (longToBytes bits.toNat)

end Cell

/-! ### `verifyRow` -/

/-- What `verifyRow` has found. -/
structure Row where
  /-- `value`. -/
  value : Float
  /-- `timestamp`. -/
  timestamp : ℤ
  /-- `validationTags`. -/
  validationTags : SortedMap Utf16 Utf16

/-- A round of the loop of `verifyRow`. -/
def readCell (w : TimeSeriesWorkload) (row : Row) (entry : Utf16 × Cell) : Except Thrown Row :=
  if entry.1 = w.timestampKey then do
    let timestamp ← entry.2.getLong
    .ok { row with timestamp := timestamp }
  else if entry.1 = w.valueKey then do
    let value ← entry.2.getValue
    .ok { row with value := value }
  else .ok { row with validationTags := row.validationTags.put entry.1 entry.2.toString }

/-- `verifyRow(key, cells)`, the cells in the order in which they are gone through. The key is not used. -/
def verifyRow (w : TimeSeriesWorkload) (cells : List (Utf16 × Cell)) : Except Thrown Status := do
  let row ← cells.foldlM (readCell w) ⟨0, 0, .empty⟩
  let hash ← validationFunction w row.timestamp row.validationTags
  .ok (if longToDouble hash == row.value then .ok else .unexpectedState)

/-! ### What the loop finds -/

section

variable {w : TimeSeriesWorkload} {timestamp value : ℤ} {tags : SortedMap Utf16 Utf16}

/-- The cell is a timestamp, a value or a tag, as its name says. -/
def IsCell (w : TimeSeriesWorkload) (timestamp value : ℤ) (tags : SortedMap Utf16 Utf16) (entry : Utf16 × Cell) : Prop :=
  if entry.1 = w.timestampKey then entry.2 = .long timestamp
  else if entry.1 = w.valueKey then entry.2 = .long value
  else tags.get entry.1 = some entry.2.toString

/-- What the loop makes of cells with these names. -/
structure Found (w : TimeSeriesWorkload) (timestamp value : ℤ) (tags : SortedMap Utf16 Utf16) (names : List Utf16) (row row' : Row) : Prop where
  /-- The timestamp. -/
  timestamp : row'.timestamp = if w.timestampKey ∈ names then timestamp else row.timestamp
  /-- The value: a cell that may be either is taken for the timestamp. -/
  value : row'.value = if w.valueKey ∈ names ∧ w.valueKey ≠ w.timestampKey then longToDouble value else row.value
  /-- The tags. -/
  tags : ∀ k, row'.validationTags.get k =
    if k ∈ names ∧ k ≠ w.timestampKey ∧ k ≠ w.valueKey then tags.get k else row.validationTags.get k

theorem readCell_isCell {entry : Utf16 × Cell} (h : IsCell w timestamp value tags entry) (row : Row) :
    ∃ row', readCell w row entry = .ok row' ∧ Found w timestamp value tags [entry.1] row row' := by
  rw [IsCell] at h
  rw [readCell]
  by_cases ht : entry.1 = w.timestampKey
  · rw [if_pos ht] at h ⊢
    rw [h, ht]
    refine ⟨_, rfl, by simp, ?_, fun k => ?_⟩
    · rw [if_neg]
      rintro ⟨hmem, hne⟩
      exact hne (List.mem_singleton.mp hmem)
    · rw [if_neg]
      rintro ⟨hmem, hne, -⟩
      exact hne (List.mem_singleton.mp hmem)
  rw [if_neg ht] at h ⊢
  by_cases hv : entry.1 = w.valueKey
  · rw [if_pos hv] at h ⊢
    rw [h, hv]
    refine ⟨_, rfl, ?_, ?_, fun k => ?_⟩
    · rw [if_neg]
      intro hmem
      exact ht (hv.trans (List.mem_singleton.mp hmem).symm)
    · rw [if_pos ⟨List.mem_singleton_self _, fun heq => ht (hv.trans heq)⟩]
    · rw [if_neg]
      rintro ⟨hmem, -, hne⟩
      exact hne (List.mem_singleton.mp hmem)
  · rw [if_neg hv] at h ⊢
    refine ⟨_, rfl, ?_, ?_, fun k => ?_⟩
    · rw [if_neg fun hmem => ht (List.mem_singleton.mp hmem).symm]
    · rw [if_neg fun hmem => hv (List.mem_singleton.mp hmem.1).symm]
    · rw [SortedMap.get_put]
      by_cases hk : k = entry.1
      · rw [if_pos hk, if_pos ⟨List.mem_singleton.mpr hk, hk ▸ ht, hk ▸ hv⟩, hk, h]
      · rw [if_neg hk, if_neg fun hmem => hk (List.mem_singleton.mp hmem.1)]

theorem Found.append {names names' : List Utf16} {row row' row'' : Row} (h : Found w timestamp value tags names row row')
    (h' : Found w timestamp value tags names' row' row'') : Found w timestamp value tags (names ++ names') row row'' := by
  refine ⟨?_, ?_, fun k => ?_⟩
  · rw [h'.timestamp, h.timestamp]
    simp only [List.mem_append]
    split_ifs <;> first | rfl | tauto
  · rw [h'.value, h.value]
    simp only [List.mem_append]
    split_ifs <;> first | rfl | tauto
  · rw [h'.tags, h.tags]
    simp only [List.mem_append]
    split_ifs <;> first | rfl | tauto

theorem readCells_isCell {cells : List (Utf16 × Cell)} (h : ∀ entry ∈ cells, IsCell w timestamp value tags entry) (row : Row) :
    ∃ row', cells.foldlM (readCell w) row = .ok row' ∧ Found w timestamp value tags (cells.map Prod.fst) row row' := by
  induction cells generalizing row with
  | nil => exact ⟨row, rfl, by simp, by simp, by simp⟩
  | cons entry cells ih =>
    obtain ⟨row₁, hread, hfound⟩ := readCell_isCell (h entry List.mem_cons_self) row
    obtain ⟨row₂, hreads, hrest⟩ := ih (fun e he => h e (List.mem_cons_of_mem _ he)) row₁
    refine ⟨row₂, ?_, hfound.append hrest⟩
    rw [List.foldlM_cons, hread]
    exact hreads

end

/-! ### The series whose turn it is -/

/-- Its tags. -/
def turnTags (w : TimeSeriesWorkload) (s : ThreadState) : SortedMap Utf16 Utf16 :=
  (List.range w.tagPairs).foldl
    (fun tags i => tags.put (w.tagKeys.getD i []) (w.tagValues.getD (s.tagValueIdxs.getD i 0) [])) .empty

/-- Its number among all series. -/
def turnNumber (w : TimeSeriesWorkload) (s : ThreadState) : ℤ :=
  (List.range w.tagPairs).foldl
    (fun n i => asInt (n + s.tagValueIdxs.getD i 0 * w.cumulativeCardinality.getD (i + 1) 0))
    (asInt (s.keyIdx * w.cumulativeCardinality.getD 0 0))

/-- How far it is delayed. -/
def turnDelay (w : TimeSeriesWorkload) (s : ThreadState) : ℤ :=
  if w.delayedSeries.positive ∧ w.delayedSeries.above (turnNumber w s) w.totalCardinality then
    let modulo := (turnNumber w s).tmod w.delayedIntervals
    asInt (w.timestampInterval * if modulo < 0 then asInt (modulo * -1) else modulo)
  else 0

/-- The timestamp that a point of it is stored under. -/
def turnTimestamp (w : TimeSeriesWorkload) (s : ThreadState) (isInsert : Bool) (draws : Draws) : ℤ :=
  if isInsert then asLong (s.timestampGenerator.currentTimestamp - turnDelay w s)
  else
    let delta := (asLong (s.timestampGenerator.currentTimestamp - s.startTimestamp)).tdiv w.timestampInterval
    asLong (s.startTimestamp + asInt (draws.intervals % asInt delta * w.timestampInterval))

section

variable {w : TimeSeriesWorkload} {s : ThreadState}

theorem elementAt_inv {α : Type} {array : List α} {i : ℕ} {a : α} (h : elementAt array i = .ok a) (d : α) : array.getD i d = a := by
  rw [elementAt, if_neg (by omega), Int.toNat_natCast] at h
  rw [List.getD_eq_getElem?_getD]
  cases hi : array[i]? with
  | none =>
    rw [hi] at h
    cases h
  | some b =>
    rw [hi] at h
    exact Except.ok.inj h

/-- The loop puts the same tags into both maps. -/
theorem tagLoop_inv (hintegrity : w.dataintegrity = true) {is : List ℕ} {t t' : TagState} (h : tagLoop w s is t = .ok t')
    (hmap : t.map = t.validationTags.map Cell.string) :
    t'.map = t'.validationTags.map Cell.string ∧
      t'.validationTags = is.foldl
        (fun tags i => tags.put (w.tagKeys.getD i []) (w.tagValues.getD (s.tagValueIdxs.getD i 0) [])) t.validationTags := by
  induction is generalizing t with
  | nil =>
    cases h
    exact ⟨hmap, rfl⟩
  | cons i is ih =>
    rw [tagLoop] at h
    obtain ⟨tvidx, htvidx, h⟩ := bind_inv h
    obtain ⟨tagKey, htagKey, h⟩ := bind_inv h
    obtain ⟨tagValue, htagValue, h⟩ := bind_inv h
    rw [List.foldl_cons, elementAt_inv htvidx, elementAt_inv htagKey, elementAt_inv htagValue]
    dsimp only at h
    rw [if_pos hintegrity] at h
    have hput : t.map.put tagKey (.string tagValue) = (t.validationTags.put tagKey tagValue).map Cell.string := by
      rw [SortedMap.map_put, hmap]
    by_cases hdelayed : w.delayedSeries.positive = true
    · rw [if_pos hdelayed] at h
      obtain ⟨weight, -, h⟩ := bind_inv h
      exact ih h hput
    · rw [if_neg hdelayed] at h
      exact ih h hput

/-- It adds up the number of the series, if there are delayed ones. -/
theorem overallIdx_tagLoop (hdelayed : w.delayedSeries.positive = true) {is : List ℕ} {t t' : TagState} (h : tagLoop w s is t = .ok t') :
    t'.overallIdx = is.foldl
      (fun n i => asInt (n + s.tagValueIdxs.getD i 0 * w.cumulativeCardinality.getD (i + 1) 0)) t.overallIdx := by
  induction is generalizing t with
  | nil =>
    cases h
    rfl
  | cons i is ih =>
    rw [tagLoop] at h
    obtain ⟨tvidx, htvidx, h⟩ := bind_inv h
    obtain ⟨tagKey, -, h⟩ := bind_inv h
    obtain ⟨tagValue, -, h⟩ := bind_inv h
    dsimp only at h
    rw [if_pos hdelayed] at h
    obtain ⟨weight, hweight, h⟩ := bind_inv h
    rw [List.foldl_cons, elementAt_inv htvidx, elementAt_inv (i := i + 1) hweight]
    exact ih h

/-- So it makes that of the series whose turn it is. -/
theorem overallIdx_eq_turnNumber (hdelayed : w.delayedSeries.positive = true) {weight : ℤ} (hweight : elementAt w.cumulativeCardinality 0 = .ok weight)
    {map : SortedMap Utf16 Cell} {tags : SortedMap Utf16 Utf16} {t : TagState}
    (h : tagLoop w s (List.range w.tagPairs) ⟨map, tags, asInt (s.keyIdx * weight)⟩ = .ok t) : t.overallIdx = turnNumber w s := by
  rw [overallIdx_tagLoop hdelayed h, turnNumber, elementAt_inv (i := 0) hweight]

theorem delayOf_inv {n d : ℤ} (h : delayOf w n = .ok d) :
    d = if w.delayedSeries.positive ∧ w.delayedSeries.above n w.totalCardinality then
      asInt (w.timestampInterval * if n.tmod w.delayedIntervals < 0 then asInt (n.tmod w.delayedIntervals * -1) else n.tmod w.delayedIntervals)
    else 0 := by
  rw [delayOf] at h
  by_cases hdelayed : w.delayedSeries.positive = true
  · rw [if_pos hdelayed] at h
    by_cases habove : w.delayedSeries.above n w.totalCardinality = true
    · rw [if_pos habove] at h
      obtain ⟨m, hm, h⟩ := bind_inv h
      rw [modulo] at hm
      split_ifs at hm
      cases hm
      rw [if_pos ⟨hdelayed, habove⟩]
      exact (Except.ok.inj h).symm
    · rw [if_neg habove] at h
      rw [if_neg fun hand => habove hand.2]
      exact (Except.ok.inj h).symm
  · rw [if_neg hdelayed] at h
    rw [if_neg fun hand => hdelayed hand.1]
    exact (Except.ok.inj h).symm

theorem timestampOf_inv {n timestamp : ℤ} (hn : w.delayedSeries.positive = true → n = turnNumber w s) {isInsert : Bool} {draws : Draws}
    (h : timestampOf w s n isInsert draws = .ok timestamp) : timestamp = turnTimestamp w s isInsert draws := by
  rw [timestampOf] at h
  rw [turnTimestamp]
  cases isInsert with
  | false =>
    rw [if_pos (by decide)] at h
    obtain ⟨delta, hdelta, h⟩ := bind_inv h
    obtain ⟨intervals, hintervals, h⟩ := bind_inv h
    rw [divide] at hdelta
    split_ifs at hdelta
    cases hdelta
    rw [nextInt] at hintervals
    split_ifs at hintervals
    cases hintervals
    exact (Except.ok.inj h).symm
  | true =>
    rw [if_neg (by decide)] at h
    obtain ⟨d, hd, h⟩ := bind_inv h
    have hdelay : d = turnDelay w s := by
      rw [delayOf_inv hd, turnDelay]
      by_cases hdelayed : w.delayedSeries.positive = true
      · rw [hn hdelayed]
      · rw [if_neg fun hand => hdelayed hand.1, if_neg fun hand => hdelayed hand.1]
    rw [if_pos rfl, ← hdelay]
    exact (Except.ok.inj h).symm

/-! ### The hash -/

/-- The hash of the names and values of tags. -/
def tagHash (tags : SortedMap Utf16 Utf16) : ℤ := hashCode (tags.entries.map fun pair => pair.1 ++ pair.2).flatten

/-- If one call of `validationFunction` does not throw none does. -/
theorem validationFunction_inv {timestamp hash : ℤ} {tags : SortedMap Utf16 Utf16} (h : validationFunction w timestamp tags = .ok hash) :
    ∀ timestamp' tags', validationFunction w timestamp' tags' = .ok (xorLong (tagHash tags') timestamp') := by
  intro timestamp' tags'
  rw [validationFunction] at h ⊢
  obtain ⟨key, hkey, h⟩ := bind_inv h
  obtain ⟨tagKey, htagKey, h⟩ := bind_inv h
  obtain ⟨card, hcard, h⟩ := bind_inv h
  rw [bind_ok hkey, bind_ok htagKey, bind_ok hcard]
  split_ifs at h ⊢
  rfl

/-- What a point is made of. -/
theorem makePoint_inv (hintegrity : w.dataintegrity = true) {isInsert : Bool} {draws : Draws} {point : DataPoint}
    (h : makePoint w s isInsert draws = .ok point) :
    point.map = (((turnTags w s).map Cell.string).put w.timestampKey (.long (turnTimestamp w s isInsert draws))).put w.valueKey
        (.long (xorLong (tagHash (turnTags w s)) s.timestampGenerator.currentTimestamp)) ∧
      ∀ timestamp tags, validationFunction w timestamp tags = .ok (xorLong (tagHash tags) timestamp) := by
  rw [makePoint] at h
  obtain ⟨key, hkey, h⟩ := bind_inv h
  obtain ⟨weight, hweight, h⟩ := bind_inv h
  obtain ⟨t, htags, h⟩ := bind_inv h
  obtain ⟨timestamp, htimestamp, h⟩ := bind_inv h
  obtain ⟨value, hvalue, h⟩ := bind_inv h
  obtain ⟨hmap, hturn⟩ := tagLoop_inv hintegrity htags rfl
  have hn : w.delayedSeries.positive = true → t.overallIdx = turnNumber w s := fun hdelayed => overallIdx_eq_turnNumber hdelayed hweight htags
  rw [valueOf, if_pos hintegrity] at hvalue
  obtain ⟨hash, hhash, hvalue⟩ := bind_inv hvalue
  have hall := validationFunction_inv hhash
  rw [hall] at hhash
  cases hhash
  cases hvalue
  cases h
  refine ⟨?_, hall⟩
  rw [← timestampOf_inv hn htimestamp, hmap, hturn]
  rfl

end

/-! ### Finding the hash again -/

/-- The hash of the tags and the timestamp `current` is found again when `stored` is the timestamp that is stored: without the
tags whose names are taken for that of the timestamp or the value, and as a double. Where these two are the same name the value is taken
for the timestamp, and 0 for the value. -/
def findsHash (w : TimeSeriesWorkload) (tags : SortedMap Utf16 Utf16) (current stored : ℤ) : Bool :=
  let found := (tags.delete w.timestampKey).delete w.valueKey
  let hash := xorLong (tagHash tags) current
  if w.timestampKey = w.valueKey then longToDouble (xorLong (tagHash found) hash) == 0
  else longToDouble (xorLong (tagHash found) stored) == longToDouble hash

/-- The state in which `nextDataPoint` makes the point: some series may have been passed over. -/
def atTurn (w : TimeSeriesWorkload) (s : ThreadState) (draws : Draws) : Except Thrown ThreadState := do
  let iterations ← if w.sparsity.nonPositive then .ok 1 else nextInt (w.sparsity.times w.perKeyCardinality) draws.iterations
  let iterations := if iterations < 1 then 1 else iterations
  let s ← passOver w (iterations.toNat - 1) s
  advance s

section

variable {w : TimeSeriesWorkload}

/-- `nextDataPoint` makes the point in that state, and counts on. -/
theorem nextDataPoint_eq (s : ThreadState) (isInsert : Bool) (draws : Draws) :
    nextDataPoint w s isInsert draws =
      atTurn w s draws >>= fun s₁ => makePoint w s₁ isInsert draws >>= fun point => .ok (point, countOn w s₁) := by
  rw [nextDataPoint, atTurn]
  by_cases hsparsity : w.sparsity.nonPositive = true
  · rw [if_pos hsparsity, if_pos hsparsity]
    simp only [bind_assoc]
  · rw [if_neg hsparsity, if_neg hsparsity]
    simp only [bind_assoc]

theorem makePoint_of_nextDataPoint {s s' s₁ : ThreadState} {isInsert : Bool} {draws : Draws} {point : DataPoint}
    (hnext : nextDataPoint w s isInsert draws = .ok (point, s')) (hturn : atTurn w s draws = .ok s₁) :
    makePoint w s₁ isInsert draws = .ok point := by
  rw [nextDataPoint_eq, bind_ok hturn] at hnext
  obtain ⟨point', hpoint, hnext⟩ := bind_inv hnext
  cases hnext
  exact hpoint

/-- The cells of a point. -/
theorem isCell_of_mem {tags : SortedMap Utf16 Utf16} {stored hash : ℤ} {entry : Utf16 × Cell}
    (h : entry ∈ (((tags.map Cell.string).put w.timestampKey (.long stored)).put w.valueKey (.long hash)).entries) :
    IsCell w (if w.timestampKey = w.valueKey then hash else stored) hash tags entry := by
  have hget := SortedMap.mem_entries.mp h
  rw [SortedMap.get_put, SortedMap.get_put, SortedMap.get_map] at hget
  rw [IsCell]
  by_cases ht : entry.1 = w.timestampKey
  · rw [if_pos ht] at hget ⊢
    rw [ht] at hget
    split_ifs at hget ⊢
    · exact (Option.some.inj hget).symm
    · exact (Option.some.inj hget).symm
  rw [if_neg ht] at hget ⊢
  by_cases hv : entry.1 = w.valueKey
  · rw [if_pos hv] at hget ⊢
    exact (Option.some.inj hget).symm
  · rw [if_neg hv] at hget ⊢
    obtain ⟨v, hv, heq⟩ := Option.map_eq_some_iff.mp hget
    rw [hv, ← heq]
    rfl

theorem mem_names_iff {tags : SortedMap Utf16 Utf16} {stored hash : ℤ} {k : Utf16} :
    k ∈ (((tags.map Cell.string).put w.timestampKey (.long stored)).put w.valueKey (.long hash)).entries.map Prod.fst ↔
      k = w.timestampKey ∨ k = w.valueKey ∨ tags.get k ≠ none := by
  have hmem : ∀ m : SortedMap Utf16 Cell, k ∈ m.entries.map Prod.fst ↔ m.get k ≠ none := by
    intro m
    rw [List.mem_map, Option.ne_none_iff_exists']
    constructor
    · rintro ⟨⟨k, c⟩, he, rfl⟩
      exact ⟨c, SortedMap.mem_entries.mp he⟩
    · rintro ⟨c, hc⟩
      exact ⟨(k, c), SortedMap.mem_entries.mpr hc, rfl⟩
  rw [hmem, SortedMap.get_put, SortedMap.get_put, SortedMap.get_map]
  by_cases hv : k = w.valueKey
  · simp [hv]
  · by_cases ht : k = w.timestampKey
    · rw [if_neg hv, if_pos ht]
      simp [ht]
    · simp [hv, ht]

/-- **Cells are verified just if the hash is found again in them**, in whatever order they are gone through. -/
theorem verifyRow_cells_iff (hvalidation : ∀ timestamp tags, validationFunction w timestamp tags = .ok (xorLong (tagHash tags) timestamp))
    {tags : SortedMap Utf16 Utf16} {current stored : ℤ} {cells : List (Utf16 × Cell)}
    (hcells : cells.Perm (((tags.map Cell.string).put w.timestampKey (.long stored)).put w.valueKey
      (.long (xorLong (tagHash tags) current))).entries) :
    verifyRow w cells = .ok .ok ↔ findsHash w tags current stored = true := by
  obtain ⟨row, hrow, hfound⟩ := readCells_isCell (fun entry he => isCell_of_mem (hcells.mem_iff.mp he)) ⟨0, 0, .empty⟩
  have hnames : ∀ k, k ∈ cells.map Prod.fst ↔ k = w.timestampKey ∨ k = w.valueKey ∨ tags.get k ≠ none :=
    fun k => (hcells.map Prod.fst).mem_iff.trans mem_names_iff
  have htags : row.validationTags = (tags.delete w.timestampKey).delete w.valueKey := by
    refine SortedMap.ext_get fun k => ?_
    rw [hfound.tags, SortedMap.get_delete, SortedMap.get_delete]
    simp only [hnames]
    by_cases hv : k = w.valueKey
    · simp [hv]
    · by_cases ht : k = w.timestampKey
      · simp [ht]
      · cases hk : tags.get k with
        | none => simp [hv, ht]
        | some v => simp [hv, ht]
  have htimestamp := hfound.timestamp
  have hvalue := hfound.value
  rw [if_pos ((hnames _).mpr (.inl rfl))] at htimestamp
  rw [verifyRow, bind_ok hrow, bind_ok (hvalidation _ _), htags, findsHash]
  by_cases hsame : w.timestampKey = w.valueKey
  · rw [if_pos hsame] at htimestamp
    rw [if_neg fun hand => hand.2 hsame.symm] at hvalue
    rw [htimestamp, hvalue, if_pos hsame]
    split_ifs with heq <;> simp [heq]
  · rw [if_neg hsame] at htimestamp
    rw [if_pos ⟨(hnames _).mpr (.inr (.inl rfl)), Ne.symm hsame⟩] at hvalue
    rw [htimestamp, hvalue, if_neg hsame]
    split_ifs with heq <;> simp [heq]

/-- **A point is verified just if the hash is found again in its cells**, in whatever order they are gone through. -/
theorem verifyRow_iff (hintegrity : w.dataintegrity = true) {s s' s₁ : ThreadState} {isInsert : Bool} {draws : Draws} {point : DataPoint}
    (hnext : nextDataPoint w s isInsert draws = .ok (point, s')) (hturn : atTurn w s draws = .ok s₁) {cells : List (Utf16 × Cell)}
    (hcells : cells.Perm point.map.entries) :
    verifyRow w cells = .ok .ok ↔
      findsHash w (turnTags w s₁) s₁.timestampGenerator.currentTimestamp (turnTimestamp w s₁ isInsert draws) = true := by
  obtain ⟨hmap, hvalidation⟩ := makePoint_inv hintegrity (makePoint_of_nextDataPoint hnext hturn)
  rw [hmap] at hcells
  exact verifyRow_cells_iff hvalidation hcells

theorem fitsLong_epoch : FitsLong 1451606400 := by decide

/-- Properties for data integrity, with two tags and the delayed series that are the default. -/
def integrityOfTwo : Properties :=
  { Properties.defaults with
    dataintegrity := true
    valuetype := some .integers
    randomtimeseriesorder := false
    insertstart := .at ⟨1451606400, fitsLong_epoch⟩
    fieldlength := .of 1
    tagcount := .of 2
    tagkeylength := .of 1
    tagvaluelength := .of 1
    tagcardinality := [some (.of 1), some (.of 2)] }

set_option maxRecDepth 4000 in
/-- The first insert: its series is delayed by 0 intervals. -/
theorem verifyRow_iff_first :
    ∃ w s s' point, init integrityOfTwo noShuffles = .ok w ∧ newThreadState w ⟨0, 0⟩ id 0 1 = .ok s ∧
      nextDataPoint w s true ⟨0, 0, 0, 0, false⟩ = .ok (point, s') ∧ verifyRow w point.map.entries = .ok .ok := by
  obtain ⟨w, s, s', s₁, point, hw, hintegrity, hs, hpoint, hturn, hfinds⟩ : ∃ w s s' s₁ point, init integrityOfTwo noShuffles = .ok w ∧
      w.dataintegrity = true ∧ newThreadState w ⟨0, 0⟩ id 0 1 = .ok s ∧ nextDataPoint w s true ⟨0, 0, 0, 0, false⟩ = .ok (point, s') ∧
      atTurn w s ⟨0, 0, 0, 0, false⟩ = .ok s₁ ∧
      findsHash w (turnTags w s₁) s₁.timestampGenerator.currentTimestamp (turnTimestamp w s₁ true ⟨0, 0, 0, 0, false⟩) = true :=
    ⟨_, _, _, _, _, rfl, rfl, rfl, rfl, rfl, by decide +kernel⟩
  exact ⟨w, s, s', point, hw, hs, hpoint, (verifyRow_iff hintegrity hpoint hturn (List.Perm.refl _)).mpr hfinds⟩

/-- A call of `nextDataPoint` that does not throw. -/
def nextState (w : TimeSeriesWorkload) (s : ThreadState) (call : Bool × Draws) : Option ThreadState :=
  (nextDataPoint w s call.1 call.2).toOption.map Prod.snd

set_option maxRecDepth 4000 in
/-- The second insert: its series is delayed by one interval. -/
theorem not_verified :
    ¬ ∀ (p : Properties) (shuffles : Shuffles) (w : TimeSeriesWorkload), init p shuffles = .ok w → w.dataintegrity = true →
      ∀ (clock : Clock) (shuffle : List ℤ → List ℤ) (threadID threadCount : ℤ) (s : ThreadState), 0 ≤ threadID →
        newThreadState w clock shuffle threadID threadCount = .ok s → ∀ (calls : List (Bool × Draws)) (s₁ : ThreadState),
          exec (nextState w) s calls = some s₁ → ∀ (isInsert : Bool) (draws : Draws) (point : DataPoint) (s₂ : ThreadState),
            nextDataPoint w s₁ isInsert draws = .ok (point, s₂) → verifyRow w point.map.entries = .ok .ok := by
  intro h
  obtain ⟨w, s, s₁, s₂, point, hw, hintegrity, hs, hs₁, hpoint, hverify⟩ : ∃ w s s₁ s₂ point, init integrityOfTwo noShuffles = .ok w ∧
      w.dataintegrity = true ∧ newThreadState w ⟨0, 0⟩ id 0 1 = .ok s ∧ exec (nextState w) s [(true, ⟨0, 0, 0, 0, false⟩)] = some s₁ ∧
      nextDataPoint w s₁ true ⟨0, 0, 0, 0, false⟩ = .ok (point, s₂) ∧
      (verifyRow w point.map.entries).toOption = some .unexpectedState :=
    ⟨_, _, _, _, _, rfl, rfl, rfl, rfl, rfl, by decide +kernel⟩
  rw [h _ _ w hw hintegrity _ _ _ _ s (le_refl 0) hs _ s₁ hs₁ _ _ _ _ hpoint] at hverify
  exact absurd hverify (by decide)

/-- The names of the timestamp, the value and the tags are different. -/
structure NamesApart (w : TimeSeriesWorkload) : Prop where
  /-- Those of the timestamp and the value are. -/
  ne : w.timestampKey ≠ w.valueKey
  /-- That of the timestamp is not one of a tag. -/
  timestamp : ∀ i < w.tagPairs, w.tagKeys.getD i [] ≠ w.timestampKey
  /-- That of the value is not. -/
  value : ∀ i < w.tagPairs, w.tagKeys.getD i [] ≠ w.valueKey

theorem get_turnTags {s : ThreadState} {k : Utf16} (h : ∀ i < w.tagPairs, w.tagKeys.getD i [] ≠ k) : (turnTags w s).get k = none := by
  have hfold : ∀ (is : List ℕ) (tags : SortedMap Utf16 Utf16), (∀ i ∈ is, w.tagKeys.getD i [] ≠ k) → tags.get k = none →
      (is.foldl (fun tags i => tags.put (w.tagKeys.getD i []) (w.tagValues.getD (s.tagValueIdxs.getD i 0) [])) tags).get k = none := by
    intro is
    induction is with
    | nil => exact fun tags _ hnone => hnone
    | cons i is ih =>
      intro tags his hnone
      refine ih _ (fun j hj => his j (List.mem_cons_of_mem _ hj)) ?_
      rw [SortedMap.get_put, if_neg (Ne.symm (his i List.mem_cons_self)), hnone]
  exact hfold _ _ (fun i hi => h i (List.mem_range.mp hi)) rfl

/-- If the tags do not have the names of the others, only the timestamps matter. -/
theorem findsHash_of_notMem {tags : SortedMap Utf16 Utf16} (hne : w.timestampKey ≠ w.valueKey) (htimestamp : tags.get w.timestampKey = none)
    (hvalue : tags.get w.valueKey = none) (current stored : ℤ) :
    findsHash w tags current stored = (longToDouble (xorLong (tagHash tags) stored) == longToDouble (xorLong (tagHash tags) current)) := by
  have hfound : (tags.delete w.timestampKey).delete w.valueKey = tags := by
    refine SortedMap.ext_get fun k => ?_
    rw [SortedMap.get_delete, SortedMap.get_delete]
    split_ifs with hv ht
    · rw [hv, hvalue]
    · rw [ht, htimestamp]
    · rfl
  rw [findsHash, if_neg hne, hfound]

/-- If the names are apart, only the timestamps matter. -/
theorem findsHash_of_apart (h : NamesApart w) {s : ThreadState} {current stored : ℤ} :
    findsHash w (turnTags w s) current stored =
      (longToDouble (xorLong (tagHash (turnTags w s)) stored) == longToDouble (xorLong (tagHash (turnTags w s)) current)) :=
  findsHash_of_notMem h.ne (get_turnTags h.timestamp) (get_turnTags h.value) current stored

theorem xorLong_asLong (a b : ℤ) : xorLong a (asLong b) = xorLong a b := by
  have hmod : BitVec.ofInt 64 (asLong b) = BitVec.ofInt 64 b := by
    apply BitVec.eq_of_toInt_eq
    rw [BitVec.toInt_ofInt, BitVec.toInt_ofInt, Int.bmod_eq_bmod_iff_bmod_sub_eq_zero]
    unfold asLong
    simp only [Int.bmod]
    omega
  rw [xorLong, xorLong, hmod]

/-- **An insert of a series that is not delayed is verified**, if the names are apart. -/
theorem verifyRow_of_undelayed (hintegrity : w.dataintegrity = true) (hnames : NamesApart w) {s s' s₁ : ThreadState} {draws : Draws}
    {point : DataPoint} (hnext : nextDataPoint w s true draws = .ok (point, s')) (hturn : atTurn w s draws = .ok s₁)
    (hdelay : turnDelay w s₁ = 0) : verifyRow w point.map.entries = .ok .ok := by
  rw [verifyRow_iff hintegrity hnext hturn (List.Perm.refl _), findsHash_of_apart hnames, turnTimestamp, if_pos rfl, hdelay,
    sub_zero, xorLong_asLong]
  exact longToDouble_beq_self _

end

end YcsbIvs.TimeSeries
