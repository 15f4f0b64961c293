import YcsbIvs.TimeSeries.Operations

/-!
# Operations that crash

`init` and the constructor of `ThreadState` accept settings with which operations divide by zero, draw a number with a bound that is not positive, or
index an array out of its range; and with any settings an update does so before the timestamp generator has been advanced
(`not_survives_first_update`), since it draws one of the intervals since the first timestamp.

Each operation has a condition on the settings, the state and what is drawn under which it does not (`CanPerform`), and it is
exact: **a run does not crash just if each of its operations meets it** (`survives_iff`).
-/

namespace YcsbIvs.TimeSeries

open YcsbIvs.Core YcsbIvs.Foundations YcsbIvs.Generator

/-! ### Conditions -/

/-- There are values for the tags, if there are tags. -/
def HasValues (w : TimeSeriesWorkload) : Prop := w.tagPairs = 0 ∨ w.tagValues ≠ []

/-- The series whose turn it is is a delayed one. -/
def IsDelayed (w : TimeSeriesWorkload) (s : ThreadState) : Prop :=
  w.delayedSeries.positive = true ∧ w.delayedSeries.above (turnNumber w s) w.totalCardinality = true

/-- How many intervals the thread is past its first timestamp, if the interval is not zero. -/
def elapsed (w : TimeSeriesWorkload) (s : ThreadState) : ℤ :=
  (asLong (s.timestampGenerator.currentTimestamp - s.startTimestamp)).tdiv w.timestampInterval

/-- A point can be stored under a timestamp: that of a delayed series is some intervals older, and that of an update is one of those before. -/
def HasTimestamp (w : TimeSeriesWorkload) (s : ThreadState) (isInsert : Bool) : Prop :=
  if isInsert then IsDelayed w s → w.delayedIntervals ≠ 0 else w.timestampInterval ≠ 0 ∧ 0 < asInt (elapsed w s)

/-- With `dataintegrity`, the hash is made by the cardinality of the second tag. -/
def CanHash (w : TimeSeriesWorkload) : Prop := w.dataintegrity = true → 2 ≤ w.tagPairs

/-- A point can be made of the series whose turn it is. -/
structure CanMake (w : TimeSeriesWorkload) (s : ThreadState) (isInsert : Bool) : Prop where
  /-- The tags have values. -/
  values : HasValues w
  /-- The point has a timestamp. -/
  timestamp : HasTimestamp w s isInsert
  /-- It has a hash, if it is to. -/
  hash : CanHash w

/-- The number of series that are passed over can be drawn, and a point can be made of the one after them. -/
def CanWrite (w : TimeSeriesWorkload) (s : ThreadState) (isInsert : Bool) (draws : Draws) : Prop :=
  (w.sparsity.nonPositive = true ∨ 0 < w.sparsity.times w.perKeyCardinality) ∧ ∀ s', atTurn w s draws = .ok s' → CanMake w s' isInsert

/-- A series and a time span can be drawn. -/
structure CanQuery (w : TimeSeriesWorkload) : Prop where
  /-- Each tag has a cardinality. -/
  cards_pos : ∀ card ∈ w.tagCardinality, 0 < card
  /-- The tags have values. -/
  values : HasValues w
  /-- A random time span is of some intervals. -/
  span : 0 < w.queryTimeSpan → w.queryRandomTimeSpan = true → w.timestampInterval ≠ 0 ∧ 0 < w.queryTimeSpan.tdiv w.timestampInterval

/-- The key of a read is one of the keys. -/
def CanChoose (w : TimeSeriesWorkload) (d : ReadDraws) : Prop :=
  match newKeyChooser w.keys.length w.keychooser with
  | some c => (c.after d.before).size d.key ≠ 0 ∧ (c.after d.before).NotBelow d.key
  | none => 0 ≤ Workloads.hash d.ret ∨ (w.keys.length : ℤ) ∣ Workloads.hash d.ret

/-- A cell is a number, if its name is that of the timestamp or the value; a timestamp is no double. -/
def IsReadable (w : TimeSeriesWorkload) (entry : Utf16 × Cell) : Prop :=
  if entry.1 = w.timestampKey then ∃ n, entry.2 = .long n
  else if entry.1 = w.valueKey then ∀ s, entry.2 ≠ .string s
  else True

/-- The hash of the cells can be made, if it comes to that. -/
def CanVerify (w : TimeSeriesWorkload) (cells : Option (List (Utf16 × Cell))) : Prop :=
  ∀ entries, cells = some entries → (∀ entry ∈ entries, IsReadable w entry) → CanHash w

/-- The condition of an operation. -/
def CanPerform (w : TimeSeriesWorkload) (s : ThreadState) : Call → Prop
  | .insert draws => CanWrite w s true draws
  | .update draws => CanWrite w s false draws
  | .read draws => CanChoose w draws ∧ asInt (w.maxOffsets - 1) ≠ 0 ∧ CanQuery w ∧ CanVerify w draws.cells
  | .scan _ => (w.scanlength = .uniform → w.maxscanlength ≠ 0) ∧ 0 < asInt (w.maxOffsets - 1) ∧ CanQuery w
  | .delete _ => 0 < asInt (w.maxOffsets - 1) ∧ CanQuery w

section

variable {w : TimeSeriesWorkload} {s : ThreadState}

/-! ### Points -/

theorem elementAt_zero {α : Type} {l : List α} (h : 0 < l.length) : ∃ a, elementAt l 0 = .ok a :=
  elementAt_of_lt (le_refl 0) (by omega)

/-- The hash is made by the cardinality of the second tag, and of the first key of a tag. -/
theorem survives_validationFunction_iff (haccepted : Accepted w) (timestamp : ℤ) (tags : SortedMap Utf16 Utf16) :
    Survives (validationFunction w timestamp tags) ↔ 2 ≤ w.tagPairs := by
  have hlen := haccepted.length_tagCardinality
  have hlen' := haccepted.length_tagKeys
  obtain ⟨key, hkey⟩ := elementAt_zero haccepted.keys_pos
  rw [validationFunction, bind_ok hkey]
  have hcard : ∀ tagKey, elementAt w.tagKeys 0 = .ok tagKey → (Survives (do
      let card ← elementAt w.tagCardinality 1
      if asInt (key.length + w.tagPairs * tagKey.length + w.tagPairs * card) < 0 then .error .negativeArraySize
      else
        let validationBuffer := (tags.entries.map fun pair => pair.1 ++ pair.2).flatten
        .ok (xorLong (Workloads.hashCode validationBuffer) timestamp)) ↔ 2 ≤ w.tagPairs) := by
    intro tagKey _
    refine (only_elementAt.avoids_bind_iff (P := True) fun card _ => ⟨fun _ => trivial, fun _ => ?_⟩).trans ?_
    · split_ifs
      · exact avoids_error_iff.mpr (by decide)
      · exact avoids_ok
    · refine (and_iff_left trivial).trans (survives_elementAt_iff.trans ?_)
      omega
  refine (only_elementAt.avoids_bind_iff hcard).trans ?_
  refine (and_congr_left' survives_elementAt_iff).trans ?_
  omega

theorem survives_valueOf_iff (haccepted : Accepted w) (validationTags : SortedMap Utf16 Utf16) (draws : Draws) :
    Survives (valueOf w s validationTags draws) ↔ CanHash w := by
  rw [valueOf, CanHash]
  by_cases hintegrity : w.dataintegrity = true
  · rw [if_pos hintegrity]
    refine (avoids_bind_ok_iff.trans (survives_validationFunction_iff haccepted _ _)).trans ?_
    exact ⟨fun h _ => h, fun h => h hintegrity⟩
  · rw [if_neg hintegrity]
    refine ⟨fun _ h => absurd h hintegrity, fun _ => ?_⟩
    split <;> exact avoids_ok

theorem survives_delayOf_iff (n : ℤ) :
    Survives (delayOf w n) ↔ (w.delayedSeries.positive = true ∧ w.delayedSeries.above n w.totalCardinality = true → w.delayedIntervals ≠ 0) := by
  rw [delayOf]
  by_cases hdelayed : w.delayedSeries.positive = true
  · by_cases habove : w.delayedSeries.above n w.totalCardinality = true
    · rw [if_pos hdelayed, if_pos habove]
      refine (avoids_bind_ok_iff.trans survives_modulo_iff).trans ?_
      exact ⟨fun h _ => h, fun h => h ⟨hdelayed, habove⟩⟩
    · rw [if_pos hdelayed, if_neg habove]
      exact ⟨fun _ h => absurd h.2 habove, fun _ => avoids_ok⟩
  · rw [if_neg hdelayed]
    exact ⟨fun _ h => absurd h.1 hdelayed, fun _ => avoids_ok⟩

theorem only_delayOf (n : ℤ) : Only Thrown.IsCrash (delayOf w n) := by
  rw [delayOf]
  split_ifs
  · exact only_bind only_modulo fun _ _ => only_ok
  · exact only_ok
  · exact only_ok

theorem only_timestampOf (n : ℤ) (isInsert : Bool) (draws : Draws) : Only Thrown.IsCrash (timestampOf w s n isInsert draws) := by
  rw [timestampOf]
  split_ifs
  · exact only_bind only_divide fun _ _ => only_bind only_nextInt fun _ _ => only_ok
  · exact only_bind (only_delayOf n) fun _ _ => only_ok

theorem survives_timestampOf_iff {n : ℤ} (hn : w.delayedSeries.positive = true → n = turnNumber w s) (isInsert : Bool) (draws : Draws) :
    Survives (timestampOf w s n isInsert draws) ↔ HasTimestamp w s isInsert := by
  rw [timestampOf, HasTimestamp]
  cases isInsert with
  | false =>
    rw [if_pos (by decide), if_neg (by decide)]
    refine (only_divide.avoids_bind_iff (P := 0 < asInt (elapsed w s)) fun delta hdelta => ?_).trans (and_congr_left' survives_divide_iff)
    rw [divide_inv hdelta]
    exact avoids_bind_ok_iff.trans survives_nextInt_iff
  | true =>
    rw [if_neg (by decide), if_pos rfl]
    refine (avoids_bind_ok_iff.trans (survives_delayOf_iff n)).trans ?_
    refine imp_congr_left (and_congr_right fun hdelayed => ?_)
    rw [hn hdelayed]

/-- The loop over the tags has a value for each. -/
theorem tagLoop_ok (haccepted : Accepted w) (h : InTurn w s) (hvalues : w.tagValues ≠ []) {is : List ℕ} (his : ∀ i ∈ is, i < w.tagPairs)
    (t : TagState) : ∃ t', tagLoop w s is t = .ok t' := by
  have hlen := haccepted.length_tagCardinality
  have hlen' := haccepted.length_tagKeys
  have hlenIdxs := h.length_tagValueIdxs
  induction is generalizing t with
  | nil => exact ⟨t, rfl⟩
  | cons i is ih =>
    obtain ⟨hi, his⟩ := List.forall_mem_cons.mp his
    obtain ⟨tvidx, htvidx⟩ := elementAt_of_lt (l := s.tagValueIdxs) (i := i) (by omega) (by omega)
    obtain ⟨tagKey, htagKey⟩ := elementAt_of_lt (l := w.tagKeys) (i := i) (by omega) (by omega)
    -- its number is below the cardinality, and so there is a value of it
    have hlt : tvidx < w.tagValues.length := by
      have hdigit := h.turn.2.2.getD_lt (i := i) (by rw [List.length_map]; omega)
      have hradix : (w.tagCardinality.map (max 1)).getD i 1 = max 1 (w.tagCardinality.getD i 0) := List.getD_map w.tagCardinality 0 (max 1)
      rw [hradix, ThreadState.turn, elementAt_inv htvidx] at hdigit
      have hcard : w.tagCardinality.getD i 0 ≤ max 1 w.tagValues.length := by
        rw [List.getD_eq_getElem _ _ (by omega : i < w.tagCardinality.length)]
        exact haccepted.card_le _ (List.getElem_mem _)
      have hpos := List.length_pos_of_ne_nil hvalues
      omega
    obtain ⟨tagValue, htagValue⟩ := elementAt_of_lt (l := w.tagValues) (i := tvidx) (by omega) (by omega)
    obtain ⟨weight, hweight⟩ : ∃ weight, elementAt w.cumulativeCardinality (i + 1) = .ok weight := by
      refine elementAt_of_lt (by omega) ?_
      rw [haccepted.cumulate_eq, length_cumulate, List.length_cons, List.length_map]
      omega
    rw [tagLoop, bind_ok htvidx, bind_ok htagKey, bind_ok htagValue]
    dsimp only
    by_cases hdelayed : w.delayedSeries.positive = true
    · rw [if_pos hdelayed, bind_ok hweight]
      exact ih his _
    · rw [if_neg hdelayed]
      exact ih his _

/-- Without values it goes no further than the first. -/
theorem not_survives_tagLoop (haccepted : Accepted w) (h : InTurn w s) (hvalues : ¬ HasValues w) (t : TagState) :
    ¬ Survives (tagLoop w s (List.range w.tagPairs) t) := by
  rw [HasValues, not_or, not_not] at hvalues
  obtain ⟨n, hn⟩ := Nat.exists_eq_succ_of_ne_zero hvalues.1
  have hlen := haccepted.length_tagCardinality
  have hlen' := haccepted.length_tagKeys
  have hlenIdxs := h.length_tagValueIdxs
  obtain ⟨tvidx, htvidx⟩ := elementAt_zero (l := s.tagValueIdxs) (by omega)
  obtain ⟨tagKey, htagKey⟩ := elementAt_zero (l := w.tagKeys) (by omega)
  rw [hn, List.range_succ_eq_map, tagLoop]
  show ¬ Survives (elementAt s.tagValueIdxs 0 >>= _)
  rw [bind_ok htvidx]
  show ¬ Survives (elementAt w.tagKeys 0 >>= _)
  rw [bind_ok htagKey]
  intro hs
  -- the first tag has a number, and there is no value of it
  have hvalue := survives_elementAt_iff.mp (avoids_bind_iff.mp hs).1
  rw [hvalues.2, List.length_nil] at hvalue
  omega

/-- **When a point can be made.** -/
theorem survives_makePoint_iff (haccepted : Accepted w) (h : InTurn w s) (isInsert : Bool) (draws : Draws) :
    Survives (makePoint w s isInsert draws) ↔ CanMake w s isInsert := by
  obtain ⟨hstart, hlt, -⟩ := h.turn
  obtain ⟨key, hkey⟩ := elementAt_of_lt (l := w.keys) (h.start_nonneg.trans hstart) (hlt.trans_le h.end_le)
  obtain ⟨weight, hweight⟩ : ∃ weight, elementAt w.cumulativeCardinality 0 = .ok weight := by
    refine elementAt_zero ?_
    rw [haccepted.cumulate_eq, length_cumulate]
    exact Nat.succ_pos _
  have hkey' : elementAt w.keys s.keyIdx = .ok key := hkey
  rw [makePoint, bind_ok hkey', bind_ok hweight]
  by_cases hvalues : HasValues w
  · obtain ⟨t, ht⟩ : ∃ t, tagLoop w s (List.range w.tagPairs) ⟨.empty, .empty, asInt (s.keyIdx * weight)⟩ = .ok t := by
      rcases hvalues with hnone | hvalues
      · rw [hnone]
        exact ⟨_, rfl⟩
      · exact tagLoop_ok haccepted h hvalues (fun i hi => List.mem_range.mp hi) _
    rw [bind_ok ht]
    refine ((only_timestampOf _ _ _).avoids_bind_iff (P := CanHash w) fun timestamp _ => ?_).trans ?_
    · exact avoids_bind_ok_iff.trans (survives_valueOf_iff haccepted _ _)
    · refine (and_congr_left' (survives_timestampOf_iff (fun hdelayed => overallIdx_eq_turnNumber hdelayed hweight ht) _ _)).trans ?_
      exact ⟨fun hand => ⟨hvalues, hand.1, hand.2⟩, fun hmake => ⟨hmake.timestamp, hmake.hash⟩⟩
  · refine iff_of_false (fun hs => ?_) fun hmake => hvalues hmake.values
    exact not_survives_tagLoop haccepted h hvalues _ (avoids_bind_iff.mp hs).1

theorem survives_advance : Survives (advance s) := by
  rw [advance]
  split_ifs
  · refine avoids_bind_ok_iff.mpr ?_
    rw [TimestampGenerator.nextValue]
    split
    · exact avoids_ok
    · split
      · exact avoids_error_iff.mpr (by decide)
      · exact avoids_ok
  · exact avoids_ok

theorem survives_passOver (n : ℕ) : Survives (passOver w n s) := by
  induction n generalizing s with
  | zero => exact avoids_ok
  | succ n ih => exact avoids_bind_iff.mpr ⟨survives_advance, fun _ _ => ih⟩

/-- Series can be passed over just if their number can be drawn. -/
theorem survives_atTurn_iff (draws : Draws) :
    Survives (atTurn w s draws) ↔ w.sparsity.nonPositive = true ∨ 0 < w.sparsity.times w.perKeyCardinality := by
  have hrest : ∀ iterations : ℤ, Survives (do
      let s ← passOver w ((if iterations < 1 then 1 else iterations).toNat - 1) s
      advance s) := fun _ => avoids_bind_iff.mpr ⟨survives_passOver _, fun _ _ => survives_advance⟩
  rw [atTurn]
  by_cases hsparsity : w.sparsity.nonPositive = true
  · rw [if_pos hsparsity]
    exact iff_of_true (hrest 1) (.inl hsparsity)
  · rw [if_neg hsparsity]
    refine (avoids_bind_iff.trans (and_iff_left fun _ _ => hrest _)).trans (survives_nextInt_iff.trans ?_)
    exact ⟨.inr, fun h => h.resolve_left hsparsity⟩

/-- **When a point is made.** -/
theorem survives_nextDataPointChecked_iff (haccepted : Accepted w) (h : InTurn w s) (isInsert : Bool) (draws : Draws) :
    Survives (nextDataPointChecked w s isInsert draws) ↔ CanWrite w s isInsert draws := by
  rw [h.nextDataPointChecked_eq, nextDataPoint_eq, CanWrite, ← survives_atTurn_iff draws]
  refine avoids_bind_iff.trans (and_congr_right fun _ => forall₂_congr fun s' hs' => ?_)
  exact avoids_bind_ok_iff.trans (survives_makePoint_iff haccepted (h.atTurn hs') isInsert draws)

/-! ### Queries -/

theorem only_chooseTag (haccepted : Accepted w) (draw i : ℕ) : Only Thrown.IsCrash (chooseTag w draw i) := by
  rw [chooseTag, haccepted.groupBy_eq, if_neg Bool.false_ne_true, bind_ok rfl]
  refine only_bind only_elementAt fun tagKey _ => ?_
  rw [if_neg Bool.false_ne_true]
  exact only_bind only_elementAt fun _ _ => only_bind only_nextInt fun _ _ => only_bind only_elementAt fun _ _ => only_ok

/-- A value of a tag can be drawn just if there are some. -/
theorem survives_chooseTag_iff (haccepted : Accepted w) (draw : ℕ) {i : ℕ} (hi : i < w.tagPairs) :
    Survives (chooseTag w draw i) ↔ 0 < w.tagCardinality.getD i 0 ∧ w.tagValues ≠ [] := by
  have hlen := haccepted.length_tagCardinality
  have hlen' := haccepted.length_tagKeys
  obtain ⟨tagKey, htagKey⟩ := elementAt_of_lt (l := w.tagKeys) (i := i) (by omega) (by omega)
  obtain ⟨card, hcard⟩ := elementAt_of_lt (l := w.tagCardinality) (i := i) (by omega) (by omega)
  have hle : w.tagCardinality.getD i 0 ≤ max 1 w.tagValues.length := by
    rw [List.getD_eq_getElem _ _ (by omega : i < w.tagCardinality.length)]
    exact haccepted.card_le _ (List.getElem_mem _)
  rw [chooseTag, haccepted.groupBy_eq, if_neg Bool.false_ne_true, bind_ok rfl]
  dsimp only
  rw [bind_ok htagKey, if_neg Bool.false_ne_true, bind_ok hcard]
  rw [elementAt_inv hcard 0] at hle ⊢
  refine (only_nextInt.avoids_bind_iff (P := w.tagValues ≠ []) fun n hn => ?_).trans (and_congr_left' ?_)
  · obtain ⟨hnonneg, hlt⟩ := nextInt_bounds hn
    refine avoids_bind_ok_iff.trans (survives_elementAt_iff.trans ?_)
    rw [← List.length_pos_iff_ne_nil]
    omega
  · exact survives_nextInt_iff.trans (by omega)

/-- Values of all tags can be drawn just if there are some for each. -/
theorem survives_chooseTags_iff (haccepted : Accepted w) (values : ℕ → ℕ) :
    Survives (chooseTags w values (List.range w.tagPairs)) ↔ (∀ card ∈ w.tagCardinality, 0 < card) ∧ HasValues w := by
  have hlen := haccepted.length_tagCardinality
  have hall : ∀ is, Survives (chooseTags w values is) ↔ ∀ i ∈ is, Survives (chooseTag w (values i) i) := by
    intro is
    induction is with
    | nil => exact iff_of_true avoids_ok fun i hi => absurd hi List.not_mem_nil
    | cons i is ih =>
      rw [List.forall_mem_cons, ← ih]
      exact (only_chooseTag haccepted _ _).avoids_bind_iff fun _ _ => avoids_bind_ok_iff
  rw [hall]
  have hiff : (∀ i ∈ List.range w.tagPairs, Survives (chooseTag w (values i) i)) ↔
      ∀ i < w.tagPairs, 0 < w.tagCardinality.getD i 0 ∧ w.tagValues ≠ [] :=
    forall_congr' fun i => imp_congr_ctx List.mem_range fun hi => survives_chooseTag_iff haccepted _ hi
  rw [hiff]
  constructor
  · intro h
    refine ⟨fun card hcard => ?_, ?_⟩
    · obtain ⟨i, hi, rfl⟩ := List.getElem_of_mem hcard
      have hpos := (h i (by omega)).1
      rwa [List.getD_eq_getElem _ _ hi] at hpos
    · by_cases hnone : w.tagPairs = 0
      · exact .inl hnone
      · exact .inr (h 0 (by omega)).2
  · rintro ⟨hpos, hvalues⟩ i hi
    refine ⟨?_, hvalues.resolve_left (by omega)⟩
    rw [List.getD_eq_getElem _ _ (by omega : i < w.tagCardinality.length)]
    exact hpos _ (List.getElem_mem _)

theorem only_chooseTags (haccepted : Accepted w) (values : ℕ → ℕ) (is : List ℕ) : Only Thrown.IsCrash (chooseTags w values is) := by
  induction is with
  | nil => exact only_ok
  | cons i is ih => exact only_bind (only_chooseTag haccepted _ _) fun _ _ => only_bind ih fun _ _ => only_ok

theorem survives_endOf_iff (startTimestamp : ℤ) (span : ℕ) :
    Survives (endOf w startTimestamp span) ↔
      (0 < w.queryTimeSpan → w.queryRandomTimeSpan = true → w.timestampInterval ≠ 0 ∧ 0 < w.queryTimeSpan.tdiv w.timestampInterval) := by
  rw [endOf]
  by_cases hspan : 0 < w.queryTimeSpan
  · by_cases hrandom : w.queryRandomTimeSpan = true
    · rw [if_pos hspan, if_pos hrandom]
      refine (only_divide.avoids_bind_iff (P := 0 < w.queryTimeSpan.tdiv w.timestampInterval) fun bound hbound => ?_).trans ?_
      · rw [divide_inv hbound]
        exact avoids_bind_ok_iff.trans survives_nextInt_iff
      · exact (and_congr_left' survives_divide_iff).trans ⟨fun h _ _ => h, fun h => h hspan hrandom⟩
    · rw [if_pos hspan, if_neg hrandom]
      exact iff_of_true avoids_ok fun _ h => absurd h hrandom
  · rw [if_neg hspan]
    exact iff_of_true avoids_ok fun h => absurd h hspan

theorem only_endOf (startTimestamp : ℤ) (span : ℕ) : Only Thrown.IsCrash (endOf w startTimestamp span) := by
  rw [endOf]
  split_ifs
  · exact only_bind only_divide fun _ _ => only_bind only_nextInt fun _ _ => only_ok
  · exact only_ok
  · exact only_ok

/-- The tags and the time span of a query. -/
theorem survives_choose_iff {α : Type} (haccepted : Accepted w) (values : ℕ → ℕ) (startTimestamp : ℤ) (span : ℕ)
    (f : List (Utf16 × Option Utf16) → Option ℤ → α) :
    Survives (do
      let tags ← chooseTags w values (List.range w.tagPairs)
      let endTimestamp ← endOf w startTimestamp span
      .ok (f tags endTimestamp)) ↔ CanQuery w := by
  refine ((only_chooseTags haccepted _ _).avoids_bind_iff fun _ _ => avoids_bind_ok_iff.trans (survives_endOf_iff _ _)).trans ?_
  refine (and_congr_left' (survives_chooseTags_iff haccepted _)).trans ?_
  exact ⟨fun h => ⟨h.1.1, h.1.2, h.2⟩, fun h => ⟨⟨h.cards_pos, h.values⟩, h.span⟩⟩

/-- An offset of a read can be drawn just if there is more than one interval. -/
theorem interval_offsets_iff (h : InTurn w s) : s.queryOffsetGenerator.interval ≠ 0 ↔ asInt (w.maxOffsets - 1) ≠ 0 := by
  rw [h.queryOffsetGenerator_eq, UniformLongGenerator.new]
  dsimp only
  unfold asLong asInt
  omega

theorem survives_readQuery_iff (haccepted : Accepted w) (h : InTurn w s) (draws : QueryDraws) :
    Survives (readQuery w s draws) ↔
      (0 ≤ asInt draws.keynum ∧ asInt draws.keynum < w.keys.length) ∧ asInt (w.maxOffsets - 1) ≠ 0 ∧ CanQuery w := by
  rw [readQuery, ← interval_offsets_iff h]
  refine (only_elementAt.avoids_bind_iff fun keyname _ => ?_).trans (and_congr_left' survives_elementAt_iff)
  refine (only_uniform.avoids_bind_iff fun offsets _ => ?_).trans (and_congr_left' survives_uniform_iff)
  exact survives_choose_iff haccepted _ _ _ _

theorem only_readQuery (haccepted : Accepted w) (draws : QueryDraws) : Only Thrown.IsCrash (readQuery w s draws) := by
  refine only_bind only_elementAt fun _ _ => only_bind only_uniform fun _ _ => only_bind (only_chooseTags haccepted _ _) fun _ _ => ?_
  exact only_bind (only_endOf _ _) fun _ _ => only_ok

theorem survives_deleteQuery_iff (haccepted : Accepted w) (draws : QueryDraws) :
    Survives (deleteQuery w s draws) ↔ 0 < asInt (w.maxOffsets - 1) ∧ CanQuery w := by
  have hkeys := haccepted.keys_pos
  obtain ⟨n, hn⟩ := only_nextInt.exists_ok (survives_nextInt_iff.mpr (by omega : (0 : ℤ) < w.keys.length)) (x := nextInt w.keys.length draws.keyIdx)
  obtain ⟨hnonneg, hlt⟩ := nextInt_bounds hn
  obtain ⟨keyname, hkeyname⟩ := elementAt_of_lt hnonneg hlt
  rw [deleteQuery, bind_ok hn, bind_ok hkeyname]
  refine (only_nextInt.avoids_bind_iff fun offsets _ => ?_).trans (and_congr_left' survives_nextInt_iff)
  exact survives_choose_iff haccepted _ _ _ _

/-- A scan draws what a delete draws. -/
theorem scanQuery_eq (draws : QueryDraws) : scanQuery w s draws = deleteQuery w s draws >>= fun q => .ok (q, asInt draws.len) := by
  rw [scanQuery, deleteQuery]
  simp only [bind_assoc]
  rfl

/-- The length of a scan can be drawn, unless it is a number of none. -/
theorem survives_nextScanLength_iff (hfits : FitsInt w.maxscanlength) (d : ScanDraws) :
    Survives (nextScanLength w d) ↔ (w.scanlength = .uniform → w.maxscanlength ≠ 0) := by
  rw [nextScanLength]
  cases w.scanlength with
  | uniform =>
    refine survives_uniform_iff.trans ?_
    have hinterval : (UniformLongGenerator.new 1 w.maxscanlength).interval = w.maxscanlength := by
      unfold FitsInt at hfits
      exact (asLong_of_fits (by unfold FitsLong; omega)).trans (by omega)
    rw [hinterval]
    exact ⟨fun h _ => h, fun h => h rfl⟩
  | zipfian => exact iff_of_true avoids_ok fun h => nomatch h

theorem only_nextScanLength (d : ScanDraws) : Only Thrown.IsCrash (nextScanLength w d) := by
  rw [nextScanLength]
  split
  · exact only_uniform
  · exact only_ok

/-! ### The key of a read -/

theorem of_newKeyChooser {n : ℤ} (hpos : 0 < n) (hlt : n < 2 ^ 31) {distribution : KeyChooser} {c : Workloads.KeyChooser}
    (h : newKeyChooser n distribution = some c) : c.Of ⟨n, 0, n⟩ := by
  have hof := Workloads.KeyChooser.of_keychooser (w := ⟨n, 0, n⟩) (le_refl 0) hpos (by dsimp only; omega)
  have hlast : asLong (0 + n - 1) = n - 1 := (asLong_of_fits (by unfold FitsLong; omega)).trans (by omega)
  cases distribution with
  | uniform =>
    have hchooser := hof .uniform
    rw [Workloads.keychooser, hlast] at hchooser
    cases h
    exact hchooser
  | sequential =>
    have hchooser := hof .sequential
    rw [Workloads.keychooser, hlast] at hchooser
    cases h
    exact hchooser
  | zipfian => cases h
  | hotspot hotsetfraction hotopnfraction =>
    have hchooser := hof (.hotspot hotsetfraction hotopnfraction)
    rw [Workloads.keychooser, hlast] at hchooser
    cases h
    exact hchooser

/-- A number is drawn, and it is that of a key. -/
def DrawsKey (w : TimeSeriesWorkload) (x : Except Thrown ℤ) : Prop :=
  ∃ keynum, x = .ok keynum ∧ 0 ≤ asInt keynum ∧ asInt keynum < w.keys.length

theorem drawsKey_of_chooser (haccepted : Accepted w) {c : Workloads.KeyChooser} (hc : c.Of ⟨w.keys.length, 0, w.keys.length⟩)
    {d : Workloads.KeyDraw} (hd : FitsLong d.number) : DrawsKey w (c.nextValue d).1 ↔ c.size d ≠ 0 ∧ c.NotBelow d := by
  have hpos := haccepted.keys_pos
  have hlt := haccepted.length_keys
  rw [DrawsKey, Workloads.KeyChooser.nextValue_eq]
  by_cases hsize : c.size d = 0
  · rw [if_pos hsize]
    exact iff_of_false (fun ⟨k, hk, _⟩ => nomatch hk) fun h => h.1 hsize
  · obtain ⟨hfits, hbelow⟩ := hc.drawn_bounds (le_refl 0) (by dsimp only; omega) (by dsimp only; omega) hsize
    rw [zero_add] at hbelow
    rw [if_neg hsize, hc.notBelow_iff hd hsize]
    constructor
    · rintro ⟨k, hk, hk', -⟩
      cases hk
      rw [asInt_asLong, hfits] at hk'
      exact ⟨hsize, hk'⟩
    · rintro ⟨-, hk⟩
      refine ⟨_, rfl, ?_⟩
      rw [asInt_asLong, hfits]
      exact ⟨hk, hbelow⟩

theorem drawsKey_scrambled (haccepted : Accepted w) (ret : ℤ) :
    DrawsKey w (scrambled 0 (w.keys.length - 1) ret) ↔ 0 ≤ Workloads.hash ret ∨ (w.keys.length : ℤ) ∣ Workloads.hash ret := by
  have hpos := haccepted.keys_pos
  have hlt := haccepted.length_keys
  have hsize : asLong ((w.keys.length : ℤ) - 1 - 0 + 1) = w.keys.length := (asLong_of_fits (by unfold FitsLong; omega)).trans (by omega)
  rw [← Workloads.KeyChooser.tmod_nonneg_iff, DrawsKey, scrambled, hsize, modulo, if_neg (by omega), bind_ok rfl, zero_add]
  have hrem : ((Workloads.hash ret).tmod w.keys.length).natAbs < w.keys.length := by
    rw [Int.natAbs_tmod]
    exact Nat.mod_lt _ (by omega)
  have hfits : asInt (asLong ((Workloads.hash ret).tmod w.keys.length)) = (Workloads.hash ret).tmod w.keys.length := by
    rw [asInt_asLong]
    exact asInt_of_fits (by unfold FitsInt; omega)
  constructor
  · rintro ⟨k, hk, hk', -⟩
    cases hk
    exact hfits ▸ hk'
  · intro hk
    exact ⟨_, rfl, by omega, by omega⟩

/-- **When the key of a read is one of the keys.** -/
theorem drawsKey_iff (haccepted : Accepted w) (d : ReadDraws) : DrawsKey w (nextKeynum w d) ↔ CanChoose w d := by
  rw [nextKeynum, CanChoose]
  cases hc : newKeyChooser w.keys.length w.keychooser with
  | none => exact drawsKey_scrambled haccepted d.ret
  | some c =>
    have hpos := haccepted.keys_pos
    have hof := of_newKeyChooser (by omega) haccepted.length_keys hc
    exact drawsKey_of_chooser haccepted (hof.after d.before) d.fits

theorem only_nextKeynum (d : ReadDraws) : Only Thrown.IsCrash (nextKeynum w d) := by
  rw [nextKeynum]
  split
  · rw [Workloads.KeyChooser.nextValue_eq]
    split_ifs
    · exact only_error (by decide)
    · exact only_ok
  · exact only_bind only_modulo fun _ _ => only_ok

/-! ### The cells of a read -/

theorem survives_readCell (row : Row) (entry : Utf16 × Cell) : Survives (readCell w row entry) := by
  rw [readCell]
  split_ifs
  · refine avoids_bind_ok_iff.mpr ?_
    cases entry.2 with
    | string => exact avoids_error_iff.mpr (by decide)
    | long => exact avoids_ok
    | double => exact avoids_error_iff.mpr (by decide)
  · refine avoids_bind_ok_iff.mpr ?_
    cases entry.2 with
    | string => exact avoids_error_iff.mpr (by decide)
    | long => exact avoids_ok
    | double => exact avoids_ok
  · exact avoids_ok

theorem readCell_eq_ok_iff (row : Row) (entry : Utf16 × Cell) : (∃ row', readCell w row entry = .ok row') ↔ IsReadable w entry := by
  obtain ⟨name, cell⟩ := entry
  rw [readCell, IsReadable]
  split_ifs
  · constructor
    · rintro ⟨row', h⟩
      obtain ⟨n, hn, -⟩ := bind_inv h
      cases cell with
      | string value => cases hn
      | long n => exact ⟨n, rfl⟩
      | double bits => cases hn
    · rintro ⟨n, hn⟩
      dsimp only at hn
      rw [hn]
      exact ⟨_, rfl⟩
  · constructor
    · rintro ⟨row', h⟩ value hvalue
      dsimp only at hvalue
      rw [hvalue] at h
      cases h
    · intro h
      cases cell with
      | string value => exact absurd rfl (h value)
      | long n => exact ⟨_, rfl⟩
      | double bits => exact ⟨_, rfl⟩
  · exact iff_of_true ⟨_, rfl⟩ trivial

/-- The loop over the cells never crashes, and gets to the hash just if all can be read. -/
theorem readCells_spec (cells : List (Utf16 × Cell)) (row : Row) :
    Survives (cells.foldlM (readCell w) row) ∧ ((∃ row', cells.foldlM (readCell w) row = .ok row') ↔ ∀ entry ∈ cells, IsReadable w entry) := by
  induction cells generalizing row with
  | nil => exact ⟨avoids_ok, iff_of_true ⟨row, rfl⟩ fun _ he => absurd he List.not_mem_nil⟩
  | cons entry cells ih =>
    rw [List.foldlM_cons, List.forall_mem_cons]
    refine ⟨avoids_bind_iff.mpr ⟨survives_readCell row entry, fun row' _ => (ih row').1⟩, ?_⟩
    constructor
    · rintro ⟨row', h⟩
      obtain ⟨row₁, hread, h⟩ := bind_inv h
      exact ⟨(readCell_eq_ok_iff row entry).mp ⟨row₁, hread⟩, (ih row₁).2.mp ⟨row', h⟩⟩
    · rintro ⟨hentry, hcells⟩
      obtain ⟨row₁, hread⟩ := (readCell_eq_ok_iff row entry).mpr hentry
      rw [bind_ok hread]
      exact (ih row₁).2.mpr hcells

theorem survives_verifyCells_iff (haccepted : Accepted w) (cells : Option (List (Utf16 × Cell))) :
    Survives (verifyCells w cells) ↔ CanVerify w cells := by
  rw [CanVerify]
  cases cells with
  | none => exact iff_of_true avoids_ok fun _ h => nomatch h
  | some entries =>
    obtain ⟨hsurvives, hok⟩ := readCells_spec (w := w) entries ⟨0, 0, .empty⟩
    have hcells : (∀ entries', some entries = some entries' → (∀ entry ∈ entries', IsReadable w entry) → CanHash w) ↔
        ((∀ entry ∈ entries, IsReadable w entry) → CanHash w) :=
      ⟨fun h => h entries rfl, fun h _ heq => Option.some.inj heq ▸ h⟩
    rw [hcells, ← hok, verifyCells]
    by_cases hintegrity : w.dataintegrity = true
    · have hhash : CanHash w ↔ 2 ≤ w.tagPairs := ⟨fun h => h hintegrity, fun h _ => h⟩
      rw [if_pos hintegrity, hhash]
      refine avoids_bind_ok_iff.trans (avoids_bind_iff.trans ((and_iff_right hsurvives).trans ?_))
      constructor
      · rintro h ⟨row, hrow⟩
        exact (survives_validationFunction_iff haccepted _ _).mp (avoids_bind_ok_iff.mp (h row hrow))
      · exact fun h row hrow => avoids_bind_ok_iff.mpr ((survives_validationFunction_iff haccepted _ _).mpr (h ⟨row, hrow⟩))
    · rw [if_neg hintegrity]
      exact iff_of_true avoids_ok fun _ h => absurd h hintegrity

/-! ### Runs -/

/-- **When an operation does not crash.** -/
theorem survives_perform_iff (haccepted : Accepted w) (hfits : FitsInt w.maxscanlength) (h : InTurn w s) (call : Call) :
    Survives (perform w s call) ↔ CanPerform w s call := by
  cases call with
  | insert draws => exact avoids_bind_ok_iff.trans (survives_nextDataPointChecked_iff haccepted h true draws)
  | update draws => exact avoids_bind_ok_iff.trans (survives_nextDataPointChecked_iff haccepted h false draws)
  | read draws =>
    have hrest : ∀ keynum, Survives (do
        let _ ← doTransactionRead w s { draws.query with keynum := keynum }
        let _ ← verifyCells w draws.cells
        .ok s) ↔
        ((0 ≤ asInt keynum ∧ asInt keynum < w.keys.length) ∧ asInt (w.maxOffsets - 1) ≠ 0 ∧ CanQuery w) ∧ CanVerify w draws.cells := by
      intro keynum
      refine (Only.avoids_bind_iff (only_bind (only_readQuery haccepted _) fun _ _ => only_ok) fun _ _ => ?_).trans (and_congr_left' ?_)
      · exact avoids_bind_ok_iff.trans (survives_verifyCells_iff haccepted draws.cells)
      · exact avoids_bind_ok_iff.trans (survives_readQuery_iff haccepted h _)
    rw [CanPerform, ← drawsKey_iff haccepted, perform]
    constructor
    · intro hs
      obtain ⟨hkey, hall⟩ := avoids_bind_iff.mp hs
      obtain ⟨keynum, hkeynum⟩ := (only_nextKeynum draws).exists_ok hkey
      obtain ⟨⟨hrange, hoffsets, hquery⟩, hverify⟩ := (hrest keynum).mp (hall keynum hkeynum)
      exact ⟨⟨keynum, hkeynum, hrange⟩, hoffsets, hquery, hverify⟩
    · rintro ⟨⟨keynum, hkeynum, hrange⟩, hoffsets, hquery, hverify⟩
      rw [bind_ok hkeynum]
      exact (hrest keynum).mpr ⟨⟨hrange, hoffsets, hquery⟩, hverify⟩
  | scan draws =>
    refine ((only_nextScanLength draws).avoids_bind_iff fun len _ => ?_).trans (and_congr_left' (survives_nextScanLength_iff hfits draws))
    refine avoids_bind_ok_iff.trans ?_
    rw [doTransactionScan, scanQuery_eq, bind_assoc]
    exact avoids_bind_ok_iff.trans (survives_deleteQuery_iff haccepted _)
  | delete draws => exact avoids_bind_ok_iff.trans (avoids_bind_ok_iff.trans (survives_deleteQuery_iff haccepted draws))

end

/-- **The first operation of a thread can not be an update**, whatever the settings, unless series are passed over. -/
theorem not_survives_first_update {p : Properties} {shuffles : Shuffles} {w : TimeSeriesWorkload} (hw : init p shuffles = .ok w)
    (hsparsity : w.sparsity.nonPositive = true) {clock : Clock} {shuffle : List ℤ → List ℤ} {threadID threadCount : ℤ} {s : ThreadState}
    (hid : 0 ≤ threadID) (hs : newThreadState w clock shuffle threadID threadCount = .ok s) (draws : Draws) :
    ¬ Survives (perform w s (.update draws)) := by
  have haccepted := init_accepted hw
  have hnew := newThreadState_inv haccepted hid hs
  have hturn : atTurn w s draws = .ok s := by
    have hadvance : advance s = .ok s := by
      rw [advance, hnew.rollover_eq]
      rfl
    rw [atTurn, if_pos hsparsity]
    exact hadvance
  rw [survives_perform_iff haccepted (fitsInt_maxscanlength hw) (hnew.inTurn haccepted)]
  intro hwrite
  -- the first timestamp is the current one
  obtain ⟨-, hpos⟩ := (hwrite.2 s hturn).timestamp
  rw [elapsed, hnew.startTimestamp_eq, sub_self] at hpos
  exact absurd hpos (by simp [asLong, asInt])

/-- Nothing is drawn but zeros. -/
def noDraws : QueryDraws := ⟨0, 0, 0, 0, 0, fun _ => 0, 0⟩

end YcsbIvs.TimeSeries
