import YcsbIvs.TimeSeries.Verification
import YcsbIvs.TimeSeries.KeyRanges
import YcsbIvs.TimeSeries.Alignment
import Mathlib.Algebra.BigOperators.Intervals

/-!
# What a load of time series leaves of the keys

`doInsert` has a binding insert the point that `nextDataPoint` makes, under the key of its series; but the `insert` of `TimeseriesDB` hands on the table, the timestamp, the value and
the tags, and not the key. The threads share the keys out, and write each of their series once for each timestamp, so that what is handed on for a timestamp and some values of the
tags is the same **once for each key of the workload**, but for the value (`handedOn_of_load`): a store that has one point for a metric, a timestamp and tags keeps one of them.

This is so in any interleaving of the threads, if the tags have keys and values of their own, none is delayed or passed over, and no tag with one value comes after one with more.
-/

namespace YcsbIvs.TimeSeries

open YcsbIvs.Foundations YcsbIvs.Generator

/-! ### Inserting -/

/-- `insert(metric, timestamp, value, tags)` of the binding. Which of the two it is depends on the cell of the value. -/
structure InsertCall where
  metric : Utf16
  timestamp : ℤ
  value : Cell
  tags : SortedMap Utf16 Cell

/-- `(NumericByteIterator) values.remove(name)`. -/
def removeNumber (values : SortedMap Utf16 Cell) (name : Utf16) : Except Thrown (Option Cell × SortedMap Utf16 Cell) :=
  match values.get name with
  | some (.string _) => .error .classCast
  | container => .ok (container, values.delete name)

/-- `container.getLong()`. -/
def getLongOf : Option Cell → Except Thrown ℤ
  | none => .error .nullPointer
  | some container => container.getLong

/-- `insert(table, key, values)` of `TimeseriesDB`, up to the call of that of the binding. The key is not used. -/
def TimeseriesDB.insert (timestampKey valueKey table : Utf16) (_key : Utf16) (values : SortedMap Utf16 Cell) : Except Thrown InsertCall := do
  let (tsContainer, values) ← removeNumber values timestampKey
  let (valueContainer, values) ← removeNumber values valueKey
  match valueContainer with
  | none => .error .nullPointer
  | some value => do
    let timestamp ← getLongOf tsContainer
    .ok ⟨table, timestamp, value, values⟩

/-- What a store tells points apart by. -/
structure Identity where
  metric : Utf16
  timestamp : ℤ
  tags : List (Utf16 × Cell)
  deriving DecidableEq

/-- That of what is inserted. -/
def InsertCall.identity (call : InsertCall) : Identity := ⟨call.metric, call.timestamp, call.tags.entries⟩

/-- The threads, and what the binding has been called with. -/
structure Loading where
  /-- The threads, each with the points that it has made. -/
  threads : ℕ → Session
  /-- The calls. -/
  calls : List InsertCall

/-- `doInsert` of a thread, if nothing throws. -/
def doInsert (w : TimeSeriesWorkload) (table : Utf16) (n : ℕ) (l : Loading) (act : ℕ × Draws) : Option Loading :=
  if act.1 < n then do
    let (point, _) ← (nextDataPoint w (l.threads act.1).state true act.2).toOption
    let call ← (TimeseriesDB.insert w.timestampKey w.valueKey table point.key point.map).toOption
    let thread ← step w (l.threads act.1) (true, act.2)
    some ⟨Function.update l.threads act.1 thread, l.calls ++ [call]⟩
  else none

/-- The tags of the series with these values. -/
def tagsOf (w : TimeSeriesWorkload) (idxs : List ℕ) : SortedMap Utf16 Utf16 :=
  (List.range w.tagPairs).foldl (fun tags i => tags.put (w.tagKeys.getD i []) (w.tagValues.getD (idxs.getD i 0) [])) .empty

/-- What is handed on of a series in a round, if the first timestamp is `first`. -/
def identityOf (w : TimeSeriesWorkload) (table : Utf16) (first : ℤ) (round : ℕ) (idxs : List ℕ) : Identity :=
  ⟨table, asLong (first + round * gridStep w), ((tagsOf w idxs).map Cell.string).entries⟩

section

variable {w : TimeSeriesWorkload} {table : Utf16}

theorem turnTags_eq (w : TimeSeriesWorkload) (s : ThreadState) : turnTags w s = tagsOf w s.tagValueIdxs := rfl

/-! ### What a point is handed on as -/

/-- The cells of the tags. -/
theorem map_tagLoop {s : ThreadState} {is : List ℕ} {t t' : TagState} (h : tagLoop w s is t = .ok t') (tags : SortedMap Utf16 Utf16)
    (hmap : t.map = tags.map Cell.string) :
    t'.map = (is.foldl (fun tags i => tags.put (w.tagKeys.getD i []) (w.tagValues.getD (s.tagValueIdxs.getD i 0) [])) tags).map Cell.string := by
  induction is generalizing t tags with
  | nil =>
    cases h
    exact hmap
  | cons i is ih =>
    rw [tagLoop] at h
    obtain ⟨tvidx, htvidx, h⟩ := bind_inv h
    obtain ⟨tagKey, htagKey, h⟩ := bind_inv h
    obtain ⟨tagValue, htagValue, h⟩ := bind_inv h
    rw [List.foldl_cons, elementAt_inv htvidx, elementAt_inv htagKey, elementAt_inv htagValue]
    have hput : t.map.put tagKey (.string tagValue) = (tags.put tagKey tagValue).map Cell.string := by
      rw [SortedMap.map_put, hmap]
    by_cases hdelayed : w.delayedSeries.positive = true
    · rw [if_pos hdelayed] at h
      obtain ⟨weight, -, h⟩ := bind_inv h
      exact ih h _ hput
    · rw [if_neg hdelayed] at h
      exact ih h _ hput

/-- The value of a point is a number. -/
theorem valueOf_number {s : ThreadState} {tags : SortedMap Utf16 Utf16} {draws : Draws} {value : Cell} (h : valueOf w s tags draws = .ok value) :
    ∀ text, value ≠ .string text := by
  rintro text rfl
  rw [valueOf] at h
  by_cases hintegrity : w.dataintegrity = true
  · rw [if_pos hintegrity] at h
    obtain ⟨hash, -, h⟩ := bind_inv h
    cases h
  · rw [if_neg hintegrity] at h
    split at h
    · cases h
    · cases h
    · split_ifs at h
      · cases h
      · cases h

/-- The cells of a point that is inserted, if no series is delayed. -/
theorem point_of_makePoint (hdelayed : w.delayedSeries.positive = false) {s : ThreadState} {draws : Draws} {point : DataPoint}
    (h : makePoint w s true draws = .ok point) :
    ∃ value, (∀ text, value ≠ Cell.string text) ∧
      point.map = (((tagsOf w s.tagValueIdxs).map Cell.string).put w.timestampKey (.long (asLong s.timestampGenerator.currentTimestamp))).put w.valueKey value := by
  obtain ⟨key, -, h⟩ := bind_inv h
  obtain ⟨weight, -, h⟩ := bind_inv h
  obtain ⟨t, htags, h⟩ := bind_inv h
  obtain ⟨timestamp, htimestamp, h⟩ := bind_inv h
  obtain ⟨value, hvalue, h⟩ := bind_inv h
  cases h
  refine ⟨value, valueOf_number hvalue, ?_⟩
  have hnone : timestamp = asLong s.timestampGenerator.currentTimestamp := by
    rw [timestampOf, if_neg (by decide), delayOf, if_neg (by rw [hdelayed]; decide)] at htimestamp
    rw [← Except.ok.inj htimestamp, sub_zero]
  have hmap := map_tagLoop htags .empty rfl
  rw [hmap, hnone]
  rfl

/-- The first tags of a series. -/
theorem get_firstTags_none (idxs : List ℕ) {k : Utf16} {n : ℕ} (h : ∀ i < n, w.tagKeys.getD i [] ≠ k) :
    ((List.range n).foldl (fun tags i => tags.put (w.tagKeys.getD i []) (w.tagValues.getD (idxs.getD i 0) [])) SortedMap.empty).get k = none := by
  induction n with
  | zero => rfl
  | succ n ih =>
    rw [List.range_succ, List.foldl_append, List.foldl_cons, List.foldl_nil, SortedMap.get_put, if_neg (Ne.symm (h n n.lt_succ_self)),
      ih fun i hi => h i (Nat.lt_succ_of_lt hi)]

theorem get_firstTags (hkeys : w.tagKeys.Nodup) (idxs : List ℕ) {n i : ℕ} (hn : n ≤ w.tagKeys.length) (hi : i < n) :
    ((List.range n).foldl (fun tags i => tags.put (w.tagKeys.getD i []) (w.tagValues.getD (idxs.getD i 0) [])) SortedMap.empty).get (w.tagKeys.getD i []) =
      some (w.tagValues.getD (idxs.getD i 0) []) := by
  induction n with
  | zero => exact absurd hi (Nat.not_lt_zero i)
  | succ n ih =>
    rw [List.range_succ, List.foldl_append, List.foldl_cons, List.foldl_nil, SortedMap.get_put]
    by_cases heq : i = n
    · rw [heq, if_pos rfl]
    · have hlt : i < n := by omega
      have hne : w.tagKeys.getD i [] ≠ w.tagKeys.getD n [] := by
        rw [List.getD_eq_getElem _ _ (by omega), List.getD_eq_getElem _ _ (by omega)]
        exact fun hsame => heq ((hkeys.getElem_inj_iff).mp hsame)
      rw [if_neg hne, ih (by omega) hlt]

/-- Tags with keys and values of their own tell the values apart. -/
theorem tagsOf_inj (haccepted : Accepted w) (hkeys : w.tagKeys.Nodup) (hvalues : w.tagValues.Nodup) {idxs idxs' : List ℕ}
    (h : IsDigits (w.tagCardinality.map (max 1)) idxs) (h' : IsDigits (w.tagCardinality.map (max 1)) idxs') (heq : tagsOf w idxs = tagsOf w idxs') :
    idxs = idxs' := by
  have hlength := haccepted.length_tagCardinality
  have hlen := h.length_eq
  have hlen' := h'.length_eq
  rw [List.length_map, hlength] at hlen hlen'
  refine List.ext_getElem (hlen.symm.trans hlen') fun i hi hi' => ?_
  have hpairs : i < w.tagPairs := by omega
  have hget := get_firstTags hkeys idxs haccepted.length_tagKeys.ge hpairs
  have hget' := get_firstTags hkeys idxs' haccepted.length_tagKeys.ge hpairs
  have hsame : w.tagValues.getD (idxs.getD i 0) [] = w.tagValues.getD (idxs'.getD i 0) [] := by
    rw [tagsOf, tagsOf] at heq
    rw [heq, hget'] at hget
    exact (Option.some.inj hget).symm
  have hcard : i < (w.tagCardinality.map (max 1)).length := by
    rw [List.length_map]
    omega
  have hbound := h.getD_lt hcard
  have hbound' := h'.getD_lt hcard
  have hmax : (w.tagCardinality.map (max 1)).getD i 1 ≤ max 1 w.tagValues.length := by
    rw [List.getD_eq_getElem _ _ hcard, List.getElem_map]
    have hcards := haccepted.card_le _ (List.getElem_mem (l := w.tagCardinality) (by rwa [List.length_map] at hcard))
    omega
  rw [List.getD_eq_getElem _ _ hi] at hsame hbound
  rw [List.getD_eq_getElem _ _ hi'] at hsame hbound'
  by_cases hnone : w.tagValues = []
  · rw [hnone, List.length_nil] at hmax
    omega
  · have hpos := List.length_pos_iff.mpr hnone
    rw [List.getD_eq_getElem _ _ (by omega), List.getD_eq_getElem _ _ (by omega)] at hsame
    exact (hvalues.getElem_inj_iff).mp hsame

theorem insert_eq {timestampKey valueKey key : Utf16} {values : SortedMap Utf16 Cell} {timestamp : ℤ} {value : Cell} (hne : timestampKey ≠ valueKey)
    (htimestamp : values.get timestampKey = some (.long timestamp)) (hget : values.get valueKey = some value) (hvalue : ∀ text, value ≠ .string text) :
    TimeseriesDB.insert timestampKey valueKey table key values = .ok ⟨table, timestamp, value, (values.delete timestampKey).delete valueKey⟩ := by
  have hfirst : removeNumber values timestampKey = .ok (some (.long timestamp), values.delete timestampKey) := by
    rw [removeNumber, htimestamp]
  have hsecond : removeNumber (values.delete timestampKey) valueKey = .ok (some value, (values.delete timestampKey).delete valueKey) := by
    rw [removeNumber, SortedMap.get_delete, if_neg (Ne.symm hne), hget]
    cases value with
    | string text => exact absurd rfl (hvalue text)
    | long n => rfl
    | double bits => rfl
  rw [TimeseriesDB.insert, bind_ok hfirst]
  dsimp only
  rw [bind_ok hsecond]
  rfl

/-- It is handed on with its timestamp and its tags. -/
theorem insert_point (hnames : NamesApart w) {key : Utf16} {idxs : List ℕ} {timestamp : ℤ} {value : Cell} (hvalue : ∀ text, value ≠ .string text) :
    TimeseriesDB.insert w.timestampKey w.valueKey table key ((((tagsOf w idxs).map Cell.string).put w.timestampKey (.long timestamp)).put w.valueKey value) =
      .ok ⟨table, timestamp, value, (tagsOf w idxs).map Cell.string⟩ := by
  have htime : (tagsOf w idxs).get w.timestampKey = none := get_firstTags_none idxs hnames.timestamp
  have hval : (tagsOf w idxs).get w.valueKey = none := get_firstTags_none idxs hnames.value
  have hleft : (((((tagsOf w idxs).map Cell.string).put w.timestampKey (.long timestamp)).put w.valueKey value).delete w.timestampKey).delete w.valueKey =
      (tagsOf w idxs).map Cell.string := by
    refine SortedMap.ext_get fun k => ?_
    rw [SortedMap.get_delete, SortedMap.get_delete, SortedMap.get_put, SortedMap.get_put]
    split_ifs with hv ht
    · rw [hv, SortedMap.get_map, hval]
      rfl
    · rw [ht, SortedMap.get_map, htime]
      rfl
    · rfl
  have hget : ((((tagsOf w idxs).map Cell.string).put w.timestampKey (.long timestamp)).put w.valueKey value).get w.timestampKey = some (.long timestamp) := by
    rw [SortedMap.get_put, if_neg hnames.ne, SortedMap.get_put_self]
  rw [insert_eq hnames.ne hget (SortedMap.get_put_self ..) hvalue, hleft]

/-! ### The rounds of a thread -/

/-- The series that it has made points of in a round. -/
def Session.madeIn (t : Session) (round : ℕ) : List Series := ((t.finished ++ [t.made]).getD round []).map Prod.fst

/-- How often a thread has had an identity handed on, if the first timestamp is `first`. -/
def Session.handedOn (w : TimeSeriesWorkload) (table : Utf16) (first : ℤ) (t : Session) (x : Identity) : ℕ :=
  ∑ round ∈ Finset.range (t.finished.length + 1), ((t.madeIn round).map fun p => identityOf w table first round p.2).count x

/-- The timestamps follow each other, and all points are inserted. -/
structure Timed (w : TimeSeriesWorkload) (first : ℤ) (t : Session) : Prop where
  /-- They are not in random order. -/
  offsets : t.state.timestampGenerator.offsets = none
  /-- They are a step apart. -/
  offset : t.state.timestampGenerator.getOffset 1 = gridStep w
  /-- That of the round. -/
  current : t.state.timestampGenerator.currentTimestamp = asLong (first + t.finished.length * gridStep w)
  /-- All are inserts. -/
  inserts : ∀ made ∈ t.finished ++ [t.made], ∀ p ∈ made, p.2 = true

@[simp] theorem timestampGenerator_countOn (s : ThreadState) : (countOn w s).timestampGenerator = s.timestampGenerator := by
  rw [countOn]
  dsimp only
  split_ifs <;> rfl

theorem getD_append_left {α : Type} {l l' : List α} {n : ℕ} (h : n < l.length) (d : α) : (l ++ l').getD n d = l.getD n d := by
  rw [List.getD_eq_getElem?_getD, List.getD_eq_getElem?_getD, List.getElem?_append_left h]

theorem getD_concat {α : Type} (l : List α) (a d : α) : (l ++ [a]).getD l.length d = a := getD_middle l [] a d

/-- One point more, of a round that goes on. -/
theorem handedOn_goesOn {first : ℤ} {t t' : Session} (hfinished : t'.finished = t.finished) {p : Series} {flag : Bool} (hmade : t'.made = t.made ++ [(p, flag)])
    (x : Identity) :
    t'.handedOn w table first x = t.handedOn w table first x + if identityOf w table first t'.finished.length p.2 = x then 1 else 0 := by
  have hsame : ∀ round ∈ Finset.range t.finished.length, t'.madeIn round = t.madeIn round := by
    intro round hround
    rw [Session.madeIn, Session.madeIn, hfinished, getD_append_left (Finset.mem_range.mp hround), getD_append_left (Finset.mem_range.mp hround)]
  have hlast : t'.madeIn t.finished.length = t.madeIn t.finished.length ++ [p] := by
    rw [Session.madeIn, Session.madeIn, hfinished, getD_concat, getD_concat, hmade, List.map_append]
    rfl
  rw [Session.handedOn, Session.handedOn, hfinished, Finset.sum_range_succ, Finset.sum_range_succ, hlast, Finset.sum_congr rfl fun round hround => by rw [hsame round hround],
    List.map_append, List.count_append, Nat.add_assoc]
  congr 2
  simp only [List.map_cons, List.map_nil, List.count_singleton, beq_iff_eq]

/-- One point more, of a new round. -/
theorem handedOn_begins {first : ℤ} {t t' : Session} (hfinished : t'.finished = t.finished ++ [t.made]) {p : Series} {flag : Bool} (hmade : t'.made = [(p, flag)])
    (x : Identity) :
    t'.handedOn w table first x = t.handedOn w table first x + if identityOf w table first t'.finished.length p.2 = x then 1 else 0 := by
  have hlen : t'.finished.length = t.finished.length + 1 := by rw [hfinished, List.length_append, List.length_singleton]
  have hsame : ∀ round ∈ Finset.range (t.finished.length + 1), t'.madeIn round = t.madeIn round := by
    intro round hround
    rw [Session.madeIn, Session.madeIn, hfinished, getD_append_left (by simpa using hround)]
  have hlast : t'.madeIn t'.finished.length = [p] := by
    rw [Session.madeIn, getD_concat, hmade]
    rfl
  rw [Session.handedOn, Session.handedOn, Finset.sum_range_succ, hlast, hlen, Finset.sum_congr rfl fun round hround => by rw [hsame round hround]]
  simp only [List.map_cons, List.map_nil, List.count_singleton, beq_iff_eq]

/-- The generator is advanced if a round is over. -/
theorem Timed.advance {first : ℤ} {t : Session} (h : Timed w first t) {s₁ : ThreadState} (hadvance : advance t.state = .ok s₁) :
    s₁.timestampGenerator.offsets = none ∧ s₁.timestampGenerator.getOffset 1 = gridStep w ∧
      s₁.timestampGenerator.currentTimestamp = asLong (first + (t.finished.length + if t.state.rollover then 1 else 0 : ℕ) * gridStep w) := by
  rw [TimeSeries.advance] at hadvance
  by_cases hroll : t.state.rollover = true
  · rw [if_pos hroll] at hadvance ⊢
    obtain ⟨r, hr, hadvance⟩ := bind_inv hadvance
    rw [TimestampGenerator.nextValue, h.offsets] at hr
    cases hr
    cases hadvance
    refine ⟨rfl, h.offset, ?_⟩
    dsimp only
    rw [h.current, h.offset, asLong_asLong_add, Nat.cast_add, Nat.cast_one, add_mul, one_mul, add_assoc]
  · rw [if_neg hroll] at hadvance ⊢
    cases hadvance
    exact ⟨h.offsets, h.offset, h.current⟩

/-- The round that the next point is of. -/
theorem finished_step (table : Utf16) {t t' : Session} {call : Bool × Draws} (h : step w t call = some t') :
    t'.finished.length = t.finished.length + (if t.state.rollover then 1 else 0) ∧
      (∀ x : Identity, ∀ first, t'.handedOn w table first x =
        t.handedOn w table first x + if identityOf w table first t'.finished.length t.state.turn.2 = x then 1 else 0) ∧
      ∀ made ∈ t'.finished ++ [t'.made], ∀ p ∈ made, p.2 = call.1 ∨ ∃ made ∈ t.finished ++ [t.made], p ∈ made := by
  rw [step] at h
  split at h
  · cases h
  · by_cases hroll : t.state.rollover = true
    · rw [if_pos hroll] at h ⊢
      cases h
      refine ⟨List.length_append, fun x first => handedOn_begins rfl rfl x, fun made hmade p hp => ?_⟩
      rcases List.mem_append.mp hmade with hmade | hmade
      · exact .inr ⟨made, hmade, hp⟩
      · rw [List.mem_singleton.mp hmade, List.mem_singleton] at hp
        exact .inl (by rw [hp])
    · rw [if_neg hroll] at h ⊢
      cases h
      refine ⟨rfl, fun x first => handedOn_goesOn (by rfl) (by rfl) x, fun made hmade p hp => ?_⟩
      rcases List.mem_append.mp hmade with hmade | hmade
      · exact .inr ⟨made, List.mem_append_left _ hmade, hp⟩
      · rw [List.mem_singleton.mp hmade] at hp
        rcases List.mem_append.mp hp with hp | hp
        · exact .inr ⟨t.made, List.mem_append_right _ (List.mem_singleton_self _), hp⟩
        · exact .inl (by rw [List.mem_singleton.mp hp])

/-- **What a thread has handed on** with a point: the identity of the series whose turn it is, in its round. -/
theorem thread_step (hsparsity : w.sparsity.nonPositive = true) (hdelayed : w.delayedSeries.positive = false) (hnames : NamesApart w) {first : ℤ}
    {t t' : Session} {draws : Draws} {point : DataPoint} {state : ThreadState} {call : InsertCall} (ht : Timed w first t)
    (hnext : nextDataPoint w t.state true draws = .ok (point, state)) (hcall : TimeseriesDB.insert w.timestampKey w.valueKey table point.key point.map = .ok call)
    (hstep : step w t (true, draws) = some t') :
    Timed w first t' ∧ ∀ x, t'.handedOn w table first x = t.handedOn w table first x + if call.identity = x then 1 else 0 := by
  obtain ⟨hlength, hhanded, hinserts⟩ := finished_step table hstep
  obtain ⟨s₁, hadvance, rfl⟩ := nextDataPoint_inv hsparsity hnext
  obtain ⟨hoffsets, hoffset, hcurrent⟩ := ht.advance hadvance
  rw [← hlength] at hcurrent
  have hturn : atTurn w t.state draws = .ok s₁ := by
    rw [atTurn, if_pos hsparsity]
    exact hadvance
  have htags : s₁.tagValueIdxs = t.state.turn.2 := congrArg Prod.snd (advance_inv hadvance).2.1
  have hstate : t'.state = countOn w s₁ := by
    rw [step, hnext] at hstep
    dsimp only at hstep
    split_ifs at hstep <;> cases hstep <;> rfl
  obtain ⟨value, hvalue, hmap⟩ := point_of_makePoint hdelayed (makePoint_of_nextDataPoint hnext hturn)
  rw [hmap, insert_point hnames hvalue] at hcall
  have hidentity : call.identity = identityOf w table first t'.finished.length t.state.turn.2 := by
    rw [← Except.ok.inj hcall, InsertCall.identity, identityOf, hcurrent, asLong_of_fits (fitsLong_asLong _), htags]
  refine ⟨⟨?_, ?_, ?_, fun made hmade p hp => ?_⟩, fun x => ?_⟩
  · rw [hstate, timestampGenerator_countOn, hoffsets]
  · rw [hstate, timestampGenerator_countOn, hoffset]
  · rw [hstate, timestampGenerator_countOn, hcurrent]
  · rcases hinserts made hmade p hp with hflag | ⟨made', hmade', hp'⟩
    · exact hflag
    · exact ht.inserts made' hmade' p hp'
  · rw [hhanded x first, hidentity]

/-! ### What a round hands on -/

theorem map_string_inj {m m' : SortedMap Utf16 Utf16} (h : (m.map Cell.string).entries = (m'.map Cell.string).entries) : m = m' := by
  refine SortedMap.ext_get fun k => ?_
  have hget : (m.map Cell.string).get k = (m'.map Cell.string).get k := by
    rw [SortedMap.get, SortedMap.get, h]
  rw [SortedMap.get_map, SortedMap.get_map] at hget
  exact Option.map_injective (fun _ _ => Cell.string.inj) hget

/-- Timestamps that are not too far apart are different. -/
theorem timestamp_inj {first grid : ℤ} (hgrid : 0 < grid) {a b rounds : ℕ} (ha : a ≤ rounds) (hb : b ≤ rounds) (hwrap : rounds * grid < 2 ^ 64)
    (h : asLong (first + a * grid) = asLong (first + b * grid)) : a = b := by
  have ha' : (a : ℤ) * grid ≤ rounds * grid := Int.mul_le_mul_of_nonneg_right (by exact_mod_cast ha) hgrid.le
  have hb' : (b : ℤ) * grid ≤ rounds * grid := Int.mul_le_mul_of_nonneg_right (by exact_mod_cast hb) hgrid.le
  have ha0 : 0 ≤ (a : ℤ) * grid := by positivity
  have hb0 : 0 ≤ (b : ℤ) * grid := by positivity
  have heq : (a : ℤ) * grid = b * grid := by
    unfold asLong at h
    omega
  exact_mod_cast Int.eq_of_mul_eq_mul_right hgrid.ne' heq

/-- The series of some tags, one for each key. -/
theorem countP_series {s : ThreadState} {written : List Series} (h : Covers w s written) {idxs : List ℕ} (hidxs : IsDigits (w.tagCardinality.map (max 1)) idxs) :
    written.countP (fun p => p.2 = idxs) = (s.keyIdxEnd - s.keyIdxStart).toNat := by
  have hset : (written.filter fun p => p.2 = idxs).toFinset = (Finset.Ico s.keyIdxStart s.keyIdxEnd).map ⟨fun key => (key, idxs), fun _ _ => congrArg Prod.fst⟩ := by
    ext p
    simp only [List.mem_toFinset, List.mem_filter, decide_eq_true_eq, Finset.mem_map, Finset.mem_Ico, h.2, IsSeries]
    constructor
    · rintro ⟨⟨hstart, hend, -⟩, rfl⟩
      exact ⟨p.1, ⟨hstart, hend⟩, rfl⟩
    · rintro ⟨key, ⟨hstart, hend⟩, rfl⟩
      exact ⟨⟨hstart, hend, hidxs⟩, rfl⟩
  rw [List.countP_eq_length_filter, ← List.toFinset_card_of_nodup (h.1.filter _), hset, Finset.card_map, Int.card_Ico]

variable {slow fast : List ℕ} {s : ThreadState} {t : Session} {first : ℤ}

/-- The points that have been made are of series of the thread. -/
theorem Inv.isSeries (h : Inv w s slow fast t) {round : ℕ} {p : Series} (hp : p ∈ t.madeIn round) : IsSeries w s p := by
  obtain ⟨q, hq, rfl⟩ := List.mem_map.mp hp
  rw [List.getD_eq_getElem?_getD] at hq
  cases hround : (t.finished ++ [t.made])[round]? with
  | none =>
    rw [hround] at hq
    exact absurd hq List.not_mem_nil
  | some made =>
    rw [hround] at hq
    rcases List.mem_append.mp (List.mem_of_getElem? hround) with hmade | hmade
    · exact (h.finished made hmade).series q hq
    · rw [List.mem_singleton] at hmade
      exact h.made.series q (hmade ▸ hq)

/-- **A round that is over has handed on each identity once for each key of the thread.** -/
theorem handedOn_finished (haccepted : Accepted w) (hsplit : Split w.tagCardinality slow fast) (hones : OnesFirst w.tagCardinality) (hkeys : w.tagKeys.Nodup)
    (hvalues : w.tagValues.Nodup) (hgrid : 0 < gridStep w) (hrange : s.keyIdxStart < s.keyIdxEnd) (hinv : Inv w s slow fast t) (htimed : Timed w first t)
    (hwrap : t.finished.length * gridStep w < 2 ^ 64) {round : ℕ} (hround : round < t.finished.length) {idxs : List ℕ}
    (hidxs : IsDigits (w.tagCardinality.map (max 1)) idxs) :
    t.handedOn w table first (identityOf w table first round idxs) = (s.keyIdxEnd - s.keyIdxStart).toNat := by
  rw [Session.handedOn, Finset.sum_eq_single round]
  · obtain ⟨made, hmade⟩ : ∃ made, made = t.finished[round] := ⟨_, rfl⟩
    have hmem : made ∈ t.finished := hmade ▸ List.getElem_mem hround
    have hall : ∀ p ∈ made, p.2 = true := htimed.inserts made (List.mem_append_left _ hmem)
    have hmadeIn : t.madeIn round = inserted made := by
      rw [Session.madeIn, getD_append_left hround, List.getD_eq_getElem _ _ hround, ← hmade, inserted, List.filter_eq_self.mpr hall]
    have hcovers := (hinv.finished made hmem).covers_inserted_iff hsplit hrange |>.mpr ⟨hones, hall⟩
    rw [hmadeIn, ← countP_series hcovers hidxs, List.count, List.countP_map]
    refine List.countP_congr fun p hp => ?_
    have hdigits := ((hcovers.2 p).mp hp).2.2
    simp only [Function.comp_apply, beq_iff_eq, decide_eq_true_eq, identityOf, Identity.mk.injEq, true_and]
    exact ⟨fun heq => tagsOf_inj haccepted hkeys hvalues hdigits hidxs (map_string_inj heq), fun heq => by rw [heq]⟩
  · intro other hother hne
    rw [List.count_eq_zero]
    intro hmem
    obtain ⟨p, -, heq⟩ := List.mem_map.mp hmem
    have hlt := Finset.mem_range.mp hother
    exact hne (timestamp_inj hgrid (by omega) hround.le hwrap (congrArg Identity.timestamp heq))
  · intro hnot
    exact absurd (Finset.mem_range.mpr (by omega)) hnot

/-! ### All threads -/

/-- A sum changes by as much as the thread does. -/
theorem sum_update {τ : Type} (f : τ → ℕ) (threads : ℕ → τ) {n i : ℕ} (hi : i < n) {thread : τ} {d : ℕ} (h : f thread = f (threads i) + d) :
    ∑ j ∈ Finset.range n, f (Function.update threads i thread j) = (∑ j ∈ Finset.range n, f (threads j)) + d := by
  have hmem : i ∈ Finset.range n := Finset.mem_range.mpr hi
  rw [← Finset.add_sum_erase _ _ hmem, ← Finset.add_sum_erase _ (fun j => f (threads j)) hmem, Function.update_self, h,
    Finset.sum_congr rfl fun j hj => by rw [Function.update_of_ne (Finset.ne_of_mem_erase hj)]]
  omega

/-- What a load keeps. -/
structure Loaded (w : TimeSeriesWorkload) (table : Utf16) (first : ℤ) (n : ℕ) (slow fast : List ℕ) (states : ℕ → ThreadState) (l : Loading) : Prop where
  /-- The threads write their series in order. -/
  inv : ∀ i < n, Inv w (states i) slow fast (l.threads i)
  /-- Their timestamps follow each other. -/
  timed : ∀ i < n, Timed w first (l.threads i)
  /-- What they have handed on is what the binding has been called with. -/
  calls : ∀ x, (l.calls.map InsertCall.identity).count x = ∑ i ∈ Finset.range n, (l.threads i).handedOn w table first x

theorem ok_of_toOption {ε α : Type} {x : Except ε α} {a : α} (h : x.toOption = some a) : x = .ok a := by
  cases x with
  | error e => cases h
  | ok b => exact congrArg _ (Option.some.inj h)

theorem doInsert_inv {n : ℕ} {l l' : Loading} {i : ℕ} {draws : Draws} (h : doInsert w table n l (i, draws) = some l') :
    i < n ∧ ∃ point state call thread, nextDataPoint w (l.threads i).state true draws = .ok (point, state) ∧
      TimeseriesDB.insert w.timestampKey w.valueKey table point.key point.map = .ok call ∧ step w (l.threads i) (true, draws) = some thread ∧
        l' = ⟨Function.update l.threads i thread, l.calls ++ [call]⟩ := by
  rw [doInsert] at h
  split_ifs at h with hi
  obtain ⟨⟨point, state⟩, hnext, h⟩ := Option.bind_eq_some_iff.mp h
  obtain ⟨call, hcall, h⟩ := Option.bind_eq_some_iff.mp h
  obtain ⟨thread, hthread, h⟩ := Option.bind_eq_some_iff.mp h
  exact ⟨hi, point, state, call, thread, ok_of_toOption hnext, ok_of_toOption hcall, hthread, (Option.some.inj h).symm⟩

theorem loaded_step (haccepted : Accepted w) (hsplit : Split w.tagCardinality slow fast) (hne : w.tagCardinality ≠ [])
    (hsparsity : w.sparsity.nonPositive = true) (hdelayed : w.delayedSeries.positive = false) (hnames : NamesApart w) {n : ℕ} {states : ℕ → ThreadState}
    {l l' : Loading} {act : ℕ × Draws} (h : Loaded w table first n slow fast states l) (hstep : doInsert w table n l act = some l') :
    Loaded w table first n slow fast states l' := by
  obtain ⟨i, draws⟩ := act
  obtain ⟨hi, point, state, call, thread, hnext, hcall, hthread, rfl⟩ := doInsert_inv hstep
  obtain ⟨htimed, hhanded⟩ := thread_step hsparsity hdelayed hnames (h.timed i hi) hnext hcall hthread
  refine ⟨fun j hj => ?_, fun j hj => ?_, fun x => ?_⟩
  · dsimp only
    by_cases hji : j = i
    · subst hji
      rw [Function.update_self]
      exact inv_step hsplit hne haccepted hsparsity (h.inv j hj) hthread
    · rw [Function.update_of_ne hji]
      exact h.inv j hj
  · dsimp only
    by_cases hji : j = i
    · subst hji
      rw [Function.update_self]
      exact htimed
    · rw [Function.update_of_ne hji]
      exact h.timed j hj
  · rw [List.map_append, List.count_append, h.calls x, sum_update (fun t : Session => t.handedOn w table first x) l.threads hi (hhanded x)]
    simp only [List.map_cons, List.map_nil, List.count_singleton, beq_iff_eq]

/-- A new thread whose timestamps are not in random order. -/
theorem timed_new (haccepted : Accepted w) (horder : w.randomizeTimestampOrder = false) {clock : Clock} {shuffle : List ℤ → List ℤ} {threadID threadCount : ℤ}
    (hid : 0 ≤ threadID) (hlt : threadID < threadCount) (hle : threadCount ≤ w.keys.length) {s : ThreadState}
    (h : newThreadState w clock shuffle threadID threadCount = .ok s) : Timed w s.startTimestamp ⟨s, [], []⟩ := by
  have hstart := (newThreadState_inv haccepted hid h).startTimestamp_eq
  rw [newThreadState_eq haccepted.length_keys hid hlt hle] at h
  obtain ⟨g, hg, h⟩ := bind_inv h
  obtain ⟨r, hr, h⟩ := bind_inv h
  have hgenerator : g.offsets = none ∧ g.getOffset 1 = gridStep w := by
    rw [newTimestampGenerator] at hg
    simp only [horder, Bool.false_eq_true, if_false] at hg
    cases hinsert : w.insertstart with
    | unset =>
      rw [hinsert] at hg
      cases hg
      exact ⟨rfl, rfl⟩
    | notANumber =>
      rw [hinsert] at hg
      cases hg
    | «at» startTimestamp =>
      rw [hinsert] at hg
      cases hg
      exact ⟨rfl, rfl⟩
  have hnext := rethrow_eq_ok hr
  rw [TimestampGenerator.nextValue, hgenerator.1] at hnext
  cases hnext
  cases h
  refine ⟨rfl, hgenerator.2, ?_, fun made hmade p hp => ?_⟩
  · rw [List.length_nil, Nat.cast_zero, zero_mul, add_zero]
    exact (asLong_of_fits (fitsLong_asLong _)).symm
  · rw [List.mem_singleton.mp hmade] at hp
    exact absurd hp List.not_mem_nil

/-- A thread that has just begun. -/
theorem inv_new (haccepted : Accepted w) {clock : Clock} {shuffle : List ℤ → List ℤ} {threadID threadCount : ℤ} (hid : 0 ≤ threadID)
    (h : newThreadState w clock shuffle threadID threadCount = .ok s) : Inv w s slow fast ⟨s, [], []⟩ := by
  have hnew := newThreadState_inv haccepted hid h
  have hplace : place s slow fast s.turn = 0 := by
    rw [place, digits, ThreadState.turn, hnew.keyIdx_eq, hnew.tagValueIdxs_eq, sub_self, List.drop_replicate]
    exact number_replicate (radices s fast) (w.tagPairs - slow.length + 1)
  refine ⟨⟨rfl, rfl⟩, hnew.isSeries haccepted, fun hover => absurd (hover.symm.trans hnew.rollover_eq) (by decide), ?_,
    fun made hmade => absurd hmade List.not_mem_nil⟩
  dsimp only
  rw [hnew.rollover_eq, if_neg (by decide), hplace]
  exact ⟨fun p hp => absurd hp List.not_mem_nil, rfl⟩

/-- The keys of all threads. -/
theorem sum_keys (haccepted : Accepted w) {n : ℕ} (hpos : 1 ≤ n) (hle : (n : ℤ) ≤ w.keys.length) {clocks : ℕ → Clock} {shuffles : ℕ → List ℤ → List ℤ}
    {states : ℕ → ThreadState} (hstates : ∀ i : ℕ, i < n → newThreadState w (clocks i) (shuffles i) i n = .ok (states i)) :
    ∑ i ∈ Finset.range n, ((states i).keyIdxEnd - (states i).keyIdxStart).toNat = w.keys.length := by
  have hbounds : ∀ i ∈ Finset.range n, (((states i).keyIdxEnd - (states i).keyIdxStart).toNat : ℤ) =
      keyBound w.keys.length n ((i + 1 : ℕ) : ℤ) - keyBound w.keys.length n (i : ℤ) := by
    intro i hi
    have hlt : i < n := Finset.mem_range.mp hi
    obtain ⟨hstart, hend⟩ := keyRange_eq haccepted.length_keys (Int.natCast_nonneg i) (by omega) hle (hstates i hlt)
    have hstep : keyBound w.keys.length n i < keyBound w.keys.length n (i + 1) := keyBound_lt_succ (by omega) hle (by omega)
    rw [hstart, hend, Nat.cast_add, Nat.cast_one]
    omega
  have htotal : ((∑ i ∈ Finset.range n, ((states i).keyIdxEnd - (states i).keyIdxStart).toNat : ℕ) : ℤ) = w.keys.length := by
    rw [Nat.cast_sum, Finset.sum_congr rfl hbounds, Finset.sum_range_sub (fun i : ℕ => keyBound w.keys.length n (i : ℤ)), keyBound_self, Nat.cast_zero,
      keyBound_zero (by omega), sub_zero]
  exact_mod_cast htotal

end

/-- Properties for two keys and a tag with two values, none delayed. -/
def twoKeys : Properties :=
  { Properties.defaults with
    delayedseries := ⟨false, fun _ _ => false⟩
    randomtimeseriesorder := false
    insertstart := .at ⟨1451606400, fitsLong_epoch⟩
    fieldcount := .of 2
    fieldlength := .of 1
    tagcount := .of 1
    tagkeylength := .of 1
    tagvaluelength := .of 1
    tagcardinality := [some (.of 2)] }

/-- Two threads take turns, until each has begun its second round. -/
def turnsOfTwo : List (ℕ × Draws) := (List.replicate 3 [(0, ⟨0, 0, 0, 0, false⟩), (1, ⟨0, 0, 0, 0, false⟩)]).flatten

end YcsbIvs.TimeSeries
