import YcsbIvs.TimeSeries.Strings

/-!
# Scans that are parsed as they were meant

The strings of a scan are meant to say a time span and a value for each of the tags. `TimeseriesDB` finds this in whatever order it goes through
them just if each of the strings can be read (`scan_iff`).

The string of the downsampling can not: `doTransactionScan` writes the delimiter of pairs between the function and the interval, where
`doTransactionRead` does not, so that its second part is the function alone, and the binding expects both. As long as neither the special keys nor the
delimiter of time spans have a delimiter of pairs, a scan with downsampling is parsed only if the string is taken for one to group by (`readable_iff`).
-/

namespace YcsbIvs.TimeSeries

open YcsbIvs.Core YcsbIvs.Foundations YcsbIvs.Generator
open YcsbIvs.Workloads (longToString)

section

variable {p : Properties} {w : TimeSeriesWorkload} {db : TimeseriesDB} {q : Query} {name value field : Utf16}

/-! ### What a string says -/

/-- The keys that have a meaning of their own. -/
def specialKeys (db : TimeseriesDB) : List Utf16 := [db.timestampKey, db.groupByKey, db.downsamplingKey]

/-- The second part of the string is two numbers, on the sides of a delimiter of time spans. -/
def IsTimeSpan (db : TimeseriesDB) (field : Utf16) (start ending : ℤ) : Prop :=
  ∃ timestamps a b, (split db.tagPairDelimiter field)[1]? = some timestamps ∧ db.queryTimeSpanDelimiter <:+: timestamps ∧
    (split db.queryTimeSpanDelimiter timestamps)[0]? = some a ∧ parseLong a = .ok start ∧
    (split db.queryTimeSpanDelimiter timestamps)[1]? = some b ∧ parseLong b = .ok ending

theorem readRange_eq_ok {start ending : ℤ} : readRange db field = .ok (start, ending) ↔ IsTimeSpan db field start ending := by
  constructor
  · intro h
    obtain ⟨timestamps, htimestamps, h⟩ := bind_inv h
    split_ifs at h with hoccurs
    obtain ⟨a, ha, h⟩ := bind_inv h
    obtain ⟨s, hs, h⟩ := bind_inv h
    obtain ⟨b, hb, h⟩ := bind_inv h
    obtain ⟨e, he, h⟩ := bind_inv h
    cases h
    exact ⟨timestamps, a, b, secondPart_eq_ok.mp htimestamps, occurs_iff.mp hoccurs, elementAt_eq_ok.mp (orStop_eq_ok.mp ha), orStop_eq_ok.mp hs,
      elementAt_eq_ok.mp (orStop_eq_ok.mp hb), orStop_eq_ok.mp he⟩
  · rintro ⟨timestamps, a, b, htimestamps, hoccurs, ha, hs, hb, he⟩
    have ha' : orStop (elementAt (split db.queryTimeSpanDelimiter timestamps) 0) = .ok a := orStop_eq_ok.mpr (elementAt_eq_ok.mpr ha)
    have hb' : orStop (elementAt (split db.queryTimeSpanDelimiter timestamps) 1) = .ok b := orStop_eq_ok.mpr (elementAt_eq_ok.mpr hb)
    rw [readRange, bind_ok (secondPart_eq_ok.mpr htimestamps), if_pos (occurs_iff.mpr hoccurs)]
    dsimp only
    rw [bind_ok ha', bind_ok (orStop_eq_ok.mpr hs), bind_ok hb', bind_ok (orStop_eq_ok.mpr he)]

/-- The string of the downsampling is passed over. -/
def PassedOver (db : TimeseriesDB) (field : Utf16) : Prop :=
  db.groupByKey <+: field ∧ (∃ op : AggregationOperation, (split db.tagPairDelimiter field)[1]? = some op.toString) ∨
    ¬ db.groupByKey <+: field ∧
      (split db.tagPairDelimiter field)[1]? = some (db.downsamplingFunction.toString ++ longToString db.downsamplingInterval)

/-- A string that begins with the key of the timestamps says them. -/
theorem scanField_timestamp (h : db.timestampKey <+: field) {item : Item (ℤ × ℤ) Utf16 Utf16} :
    scanField db field = .ok item ↔ ∃ start ending, IsTimeSpan db field start ending ∧ item = .mark (start, ending) := by
  rw [scanField, if_pos (List.isPrefixOf_iff_prefix.mpr h)]
  constructor
  · intro hread
    obtain ⟨range, hrange, hread⟩ := bind_inv hread
    cases hread
    exact ⟨range.1, range.2, readRange_eq_ok.mp hrange, rfl⟩
  · rintro ⟨start, ending, hspan, rfl⟩
    rw [bind_ok (readRange_eq_ok.mpr hspan)]

/-- Another one that begins with the key to group by, or with that of the downsampling, says nothing. -/
theorem scanField_special (ht : ¬ db.timestampKey <+: field) (h : db.groupByKey <+: field ∨ db.downsamplingKey <+: field)
    {item : Item (ℤ × ℤ) Utf16 Utf16} : scanField db field = .ok item ↔ PassedOver db field ∧ item = .skip := by
  rw [scanField, if_neg (mt List.isPrefixOf_iff_prefix.mp ht)]
  by_cases hg : db.groupByKey <+: field
  · rw [if_pos (List.isPrefixOf_iff_prefix.mpr hg), PassedOver]
    constructor
    · intro hread
      obtain ⟨groupBySpecifier, hpart, hread⟩ := bind_inv hread
      obtain ⟨op, hop, hread⟩ := bind_inv hread
      cases hread
      rw [AggregationOperation.valueOf_eq_ok.mp (orStop_eq_ok.mp hop)] at hpart
      exact ⟨.inl ⟨hg, op, secondPart_eq_ok.mp hpart⟩, rfl⟩
    · rintro ⟨⟨-, op, hpart⟩ | ⟨hnot, -⟩, rfl⟩
      · rw [bind_ok (secondPart_eq_ok.mpr hpart), bind_ok (orStop_eq_ok.mpr (AggregationOperation.valueOf_eq_ok.mpr rfl))]
      · exact absurd hg hnot
  · have hds := h.resolve_left hg
    rw [if_neg (mt List.isPrefixOf_iff_prefix.mp hg), if_pos (List.isPrefixOf_iff_prefix.mpr hds), PassedOver]
    constructor
    · intro hread
      obtain ⟨downsamplingSpec, hpart, hread⟩ := bind_inv hread
      split_ifs at hread with heq
      cases hread
      rw [heq] at hpart
      exact ⟨.inr ⟨hg, secondPart_eq_ok.mp hpart⟩, rfl⟩
    · rintro ⟨⟨hnot, -⟩ | ⟨-, hpart⟩, rfl⟩
      · exact absurd hnot hg
      · rw [bind_ok (secondPart_eq_ok.mpr hpart), if_pos rfl]

/-- Any other string says a tag, or a key alone. -/
theorem scanField_other (h : ∀ key ∈ specialKeys db, ¬ key <+: field) :
    scanField db field = if (split db.tagPairDelimiter field).length = 1 then .ok .skip else readTag (split db.tagPairDelimiter field) := by
  simp only [specialKeys, List.forall_mem_cons] at h
  obtain ⟨ht, hg, hds, -⟩ := h
  rw [scanField, if_neg (mt List.isPrefixOf_iff_prefix.mp ht), if_neg (mt List.isPrefixOf_iff_prefix.mp hg),
    if_neg (mt List.isPrefixOf_iff_prefix.mp hds)]

/-- A string that says a tag begins with no special key. -/
theorem apart_of_scanField (h : scanField db field = .ok (.pair name value)) : ∀ key ∈ specialKeys db, ¬ key <+: field := by
  by_cases ht : db.timestampKey <+: field
  · obtain ⟨start, ending, -, hitem⟩ := (scanField_timestamp ht).mp h
    cases hitem
  by_cases hspecial : db.groupByKey <+: field ∨ db.downsamplingKey <+: field
  · obtain ⟨-, hitem⟩ := (scanField_special ht hspecial).mp h
    cases hitem
  simp only [specialKeys, List.forall_mem_cons]
  exact ⟨ht, fun hg => hspecial (.inl hg), fun hds => hspecial (.inr hds), fun key hkey => absurd hkey List.not_mem_nil⟩

/-! ### Scans -/

/-- The strings of a scan can be read as they were meant. -/
structure Readable (w : TimeSeriesWorkload) (db : TimeseriesDB) (q : Query) : Prop where
  /-- The string of a tag does not begin with a special key. -/
  apart : ∀ tag ∈ q.chosen, ∀ key ∈ specialKeys db, ¬ key <+: tagField w (tag.1, some tag.2)
  /-- Tags of one key have one value. -/
  agree : ∀ tag ∈ q.chosen, ∀ tag' ∈ q.chosen, tag.1 = tag'.1 → tag.2 = tag'.2
  /-- The string of the timestamps is the time span of the query. -/
  timeSpan : ∃ ending, q.endTimestamp = some ending ∧ IsTimeSpan db (timestampField w q) q.startTimestamp ending
  /-- That of the downsampling is passed over, -/
  passedOver : w.downsample = true → ¬ db.timestampKey <+: downsampleFieldOfScan w → PassedOver db (downsampleFieldOfScan w)
  /-- or if it begins with the key of the timestamps, it is the time span too. -/
  accident : w.downsample = true → db.timestampKey <+: downsampleFieldOfScan w →
    ∃ ending, q.endTimestamp = some ending ∧ IsTimeSpan db (downsampleFieldOfScan w) q.startTimestamp ending

/-- The string of a tag says the tag if it does not begin with a special key. -/
theorem scanField_tag (hs : SameSettings w db) (hd : IsDelimiter w.tagPairDelimiter) (hname : IsWord name) (hvalue : IsWord value)
    (hnot : ∀ key ∈ specialKeys db, ¬ key <+: tagField w (name, some value)) :
    scanField db (tagField w (name, some value)) = .ok (.pair name value) := by
  rw [scanField_other hnot, hs.tagPairDelimiter, split_tagField hd hname hvalue, if_neg (by simp)]
  exact readTag_eq_ok.mpr ⟨name, value, rfl, rfl, rfl⟩

/-- **A string of the query says a tag just if it is that of the tag**, and begins with no special key. -/
theorem tag_of_scanField (hs : SameSettings w db) (hd : IsDelimiter w.tagPairDelimiter) (hgroup : w.groupBy = false) (hwords : HasWords q)
    (hfield : field ∈ q.strings w (downsampleFieldOfScan w)) (h : scanField db field = .ok (.pair name value)) :
    (name, value) ∈ q.chosen ∧ field = tagField w (name, some value) := by
  have happart := apart_of_scanField h
  have ht : ¬ w.timestampKey <+: field := hs.timestampKey ▸ happart db.timestampKey (by simp [specialKeys])
  have hds : ¬ w.downsampleKey <+: field := hs.downsamplingKey ▸ happart db.downsamplingKey (by simp [specialKeys])
  rcases (mem_strings hgroup hwords).mp hfield with ⟨tag, htag, rfl⟩ | rfl | ⟨-, rfl⟩
  · obtain ⟨hname, hvalue⟩ := hwords.chosen htag
    rw [scanField_tag hs hd hname hvalue happart, Except.ok.injEq, Item.pair.injEq] at h
    rw [← h.1, ← h.2]
    exact ⟨htag, rfl⟩
  · exact absurd ⟨_, (List.append_assoc _ _ _).symm⟩ ht
  · exact absurd ⟨_, (List.append_assoc _ _ _).symm⟩ hds

theorem timestampField_begins (hs : SameSettings w db) (q : Query) : db.timestampKey <+: timestampField w q :=
  hs.timestampKey ▸ ⟨_, (List.append_assoc _ _ _).symm⟩

theorem downsampleField_begins (hs : SameSettings w db) : db.downsamplingKey <+: downsampleFieldOfScan w :=
  hs.downsamplingKey ▸ ⟨_, (List.append_assoc _ _ _).symm⟩

/-- If the strings say the time span and the tags, each can be read. -/
theorem readable_of_readsAs (hs : SameSettings w db) (hd : IsDelimiter w.tagPairDelimiter) (hgroup : w.groupBy = false) (hwords : HasWords q)
    {ending : ℤ} (hending : q.endTimestamp = some ending)
    (h : ReadsAs (scanField db) (q.strings w (downsampleFieldOfScan w)) (q.startTimestamp, ending) q.chosen) : Readable w db q := by
  have hmem : ∀ {field}, field ∈ q.strings w (downsampleFieldOfScan w) ↔ _ := mem_strings hgroup hwords
  have hspan : ∀ field ∈ q.strings w (downsampleFieldOfScan w), db.timestampKey <+: field → IsTimeSpan db field q.startTimestamp ending := by
    intro field hfield hbegins
    obtain ⟨item, hitem⟩ := h.reads field hfield
    obtain ⟨start, ending', hspan, rfl⟩ := (scanField_timestamp hbegins).mp hitem
    obtain ⟨rfl, rfl⟩ := Prod.mk.inj (h.mark_eq field hfield _ hitem)
    exact hspan
  refine ⟨fun tag htag => ?_, fun tag htag tag' htag' hkey => ?_,
    ⟨ending, hending, hspan _ (hmem.mpr (.inr (.inl rfl))) (timestampField_begins hs q)⟩,
    fun hon hnot => ?_, fun hon hbegins => ⟨ending, hending, hspan _ (hmem.mpr (.inr (.inr ⟨hon, rfl⟩))) hbegins⟩⟩
  · obtain ⟨field, hfield, hread, -⟩ := h.paired tag htag
    obtain ⟨-, rfl⟩ := tag_of_scanField hs hd hgroup hwords hfield hread
    exact apart_of_scanField hread
  · obtain ⟨field, hfield, hread, honly⟩ := h.paired tag htag
    obtain ⟨field', hfield', hread', -⟩ := h.paired tag' htag'
    rw [← hkey] at hread'
    rw [honly field' hfield' tag'.2 hread', hread, Except.ok.injEq, Item.pair.injEq] at hread'
    exact hread'.2
  · obtain ⟨item, hitem⟩ := h.reads _ (hmem.mpr (.inr (.inr ⟨hon, rfl⟩)))
    exact ((scanField_special hnot (.inr (downsampleField_begins hs))).mp hitem).1

/-- The string of the downsampling, if it can be read, says nothing or the time span. -/
theorem Readable.scanField_downsampling (h : Readable w db q) (hs : SameSettings w db) {ending : ℤ} (hending : q.endTimestamp = some ending)
    (hon : w.downsample = true) :
    scanField db (downsampleFieldOfScan w) = .ok .skip ∨ scanField db (downsampleFieldOfScan w) = .ok (.mark (q.startTimestamp, ending)) := by
  by_cases hbegins : db.timestampKey <+: downsampleFieldOfScan w
  · obtain ⟨e, he, hspan⟩ := h.accident hon hbegins
    obtain rfl : e = ending := Option.some.inj (he.symm.trans hending)
    exact .inr ((scanField_timestamp hbegins).mpr ⟨_, _, hspan, rfl⟩)
  · exact .inl ((scanField_special hbegins (.inr (downsampleField_begins hs))).mpr ⟨h.passedOver hon hbegins, rfl⟩)

/-- If each of them can be read, they say the time span and the tags. -/
theorem Readable.readsAs (h : Readable w db q) (hs : SameSettings w db) (hd : IsDelimiter w.tagPairDelimiter) (hgroup : w.groupBy = false)
    (hwords : HasWords q) {ending : ℤ} (hending : q.endTimestamp = some ending) :
    ReadsAs (scanField db) (q.strings w (downsampleFieldOfScan w)) (q.startTimestamp, ending) q.chosen := by
  have hmem : ∀ {field}, field ∈ q.strings w (downsampleFieldOfScan w) ↔ _ := mem_strings hgroup hwords
  have hreadTag : ∀ tag ∈ q.chosen, scanField db (tagField w (tag.1, some tag.2)) = .ok (.pair tag.1 tag.2) := fun tag htag =>
    scanField_tag hs hd (hwords.chosen htag).1 (hwords.chosen htag).2 (h.apart tag htag)
  obtain ⟨ending', hending', hspan⟩ := h.timeSpan
  obtain rfl : ending' = ending := Option.some.inj (hending'.symm.trans hending)
  have hreadTimestamp : scanField db (timestampField w q) = .ok (.mark (q.startTimestamp, ending')) :=
    (scanField_timestamp (timestampField_begins hs q)).mpr ⟨_, _, hspan, rfl⟩
  refine ⟨fun field hfield => ?_, ⟨_, hmem.mpr (.inr (.inl rfl)), hreadTimestamp⟩, fun field hfield range hread => ?_, fun tag htag => ?_,
    fun field hfield name value hread => ⟨_, (tag_of_scanField hs hd hgroup hwords hfield hread).1, rfl⟩⟩
  · rcases hmem.mp hfield with ⟨tag, htag, rfl⟩ | rfl | ⟨hon, rfl⟩
    · exact ⟨_, hreadTag tag htag⟩
    · exact ⟨_, hreadTimestamp⟩
    · rcases h.scanField_downsampling hs hending hon with hread | hread
      · exact ⟨_, hread⟩
      · exact ⟨_, hread⟩
  · rcases hmem.mp hfield with ⟨tag, htag, rfl⟩ | rfl | ⟨hon, rfl⟩
    · rw [hreadTag tag htag] at hread
      cases hread
    · rw [hreadTimestamp] at hread
      cases hread
      rfl
    · rcases h.scanField_downsampling hs hending hon with hread' | hread'
      · rw [hread'] at hread
        cases hread
      · rw [hread'] at hread
        cases hread
        rfl
  · refine ⟨_, hmem.mpr (.inl ⟨tag, htag, rfl⟩), hreadTag tag htag, fun field hfield value hread => ?_⟩
    obtain ⟨htag', rfl⟩ := tag_of_scanField hs hd hgroup hwords hfield hread
    rw [h.agree tag htag _ htag' rfl]

/-- The strings say the time span and the tags just if they can be read. -/
theorem readsAs_iff (hs : SameSettings w db) (hd : IsDelimiter w.tagPairDelimiter) (hgroup : w.groupBy = false) (hwords : HasWords q)
    {ending : ℤ} (hending : q.endTimestamp = some ending) :
    ReadsAs (scanField db) (q.strings w (downsampleFieldOfScan w)) (q.startTimestamp, ending) q.chosen ↔ Readable w db q :=
  ⟨readable_of_readsAs hs hd hgroup hwords hending, fun h => h.readsAs hs hd hgroup hwords hending⟩

/-- The call of the binding's `scan` is the one that is meant. -/
structure IsScanOf (p : Properties) (table : Utf16) (q : Query) (call : ScanCall) : Prop where
  /-- The table. -/
  metric : call.metric = table
  /-- The first timestamp. -/
  startTs : call.startTs = q.startTimestamp
  /-- The last. -/
  endTs : q.endTimestamp = some call.endTs
  /-- Each tag has the value chosen for it. -/
  tags : ∀ tag ∈ q.chosen, call.tags.get tag.1 = some [tag.2]
  /-- There are no other tags. -/
  noOthers : ∀ name, (∀ tag ∈ q.chosen, tag.1 ≠ name) → call.tags.get name = none
  /-- The downsampling is what is configured. -/
  configured : Configured p call.aggreg call.timeValue call.timeUnit

/-- What a scan gathers is the call that is meant. -/
theorem scan_iff_gather (hdb : TimeseriesDB.init p = .ok db) {ending : ℤ} (hending : q.endTimestamp = some ending) (table : Utf16) (order : List Utf16) :
    (∃ call, db.scan table order = .ok (.calls call) ∧ IsScanOf p table q call) ↔
      ∃ g, gather (scanField db) order .empty = .ok g ∧ g.Is (q.startTimestamp, ending) q.chosen := by
  constructor
  · rintro ⟨call, hscan, hcall⟩
    obtain ⟨g, range, hgather, hmark, rfl⟩ := answer_eq_calls.mp hscan
    obtain ⟨start, ending'⟩ := range
    obtain rfl : start = q.startTimestamp := hcall.startTs
    obtain rfl : ending' = ending := Option.some.inj (hcall.endTs.symm.trans hending)
    exact ⟨g, hgather, hmark, hcall.tags, hcall.noOthers⟩
  · rintro ⟨g, hgather, his⟩
    refine ⟨_, answer_eq_calls.mpr ⟨g, _, hgather, his.mark_eq, rfl⟩, rfl, rfl, hending, his.get_eq, his.get_eq_none, configured_of_init hdb⟩

theorem hasWords_scanQuery (haccepted : Accepted w) {s : ThreadState} {draws : QueryDraws} {len : ℤ} (h : scanQuery w s draws = .ok (q, len)) :
    HasWords q := by
  obtain ⟨n, -, h⟩ := bind_inv h
  obtain ⟨keyname, -, h⟩ := bind_inv h
  obtain ⟨offsets, -, h⟩ := bind_inv h
  obtain ⟨tags, htags, h⟩ := bind_inv h
  obtain ⟨endTimestamp, -, h⟩ := bind_inv h
  cases h
  exact (chooseTags_inv haccepted htags).2

/-- Where no special key has a delimiter of pairs, nor does the delimiter of time spans, the time span is there. -/
theorem isTimeSpan_timestampField (hs : SameSettings w db) (hpair : IsDelimiter w.tagPairDelimiter) (hspan : IsDelimiter w.queryTimeSpanDelimiter)
    (htime : Closes w.tagPairDelimiter w.timestampKey) (hapart : ¬ w.tagPairDelimiter <:+: w.queryTimeSpanDelimiter) {ending : ℤ}
    (hending : q.endTimestamp = some ending) (hstart : FitsLong q.startTimestamp) (hend : FitsLong ending) :
    IsTimeSpan db (timestampField w q) q.startTimestamp ending := by
  have htimestamps : q.timestamps w = longToString q.startTimestamp ++ w.queryTimeSpanDelimiter ++ longToString ending := by
    rw [Query.timestamps, hending]
  have habsent : ¬ w.tagPairDelimiter <:+: q.timestamps w := by
    rw [htimestamps]
    intro h
    have hright := infix_of_append_right hpair.ne_nil (hpair.apart_number ending) h
    exact hapart (infix_of_append_left hpair.ne_nil (hpair.apart_number q.startTimestamp) hright)
  have hne : q.timestamps w ≠ [] := by
    rw [htimestamps]
    exact List.append_ne_nil_of_right_ne_nil _ (longToString_ne_nil ending)
  have hsplit : split w.queryTimeSpanDelimiter (q.timestamps w) = [longToString q.startTimestamp, longToString ending] := by
    rw [htimestamps]
    exact split_pair hspan.ne_nil (closes_of_apart hspan.ne_nil (hspan.apart_number _))
      (not_infix_of_apart hspan.ne_nil (hspan.apart_number ending)) (longToString_ne_nil ending)
  rw [IsTimeSpan, hs.tagPairDelimiter, hs.queryTimeSpanDelimiter, timestampField, split_pair hpair.ne_nil htime habsent hne]
  refine ⟨_, _, _, rfl, ?_, by rw [hsplit]; rfl, parseLong_longToString hstart, by rw [hsplit]; rfl, parseLong_longToString hend⟩
  rw [htimestamps]
  exact ⟨_, _, rfl⟩

/-- The string of the downsampling has the function alone for its second part. -/
theorem split_downsampleFieldOfScan (hs : SameSettings w db) (hpair : IsDelimiter w.tagPairDelimiter)
    (hdown : Closes w.tagPairDelimiter w.downsampleKey) (hon : w.downsample = true) :
    (split w.tagPairDelimiter (downsampleFieldOfScan w))[1]? = some db.downsamplingFunction.toString := by
  rw [downsampleFieldOfScan, (hs.downsampling hon).1, (hs.downsampling hon).2]
  have hfunction := hpair.apart_word (isWord_toString db.downsamplingFunction)
  have hinterval := hpair.apart_number db.downsamplingInterval
  rw [split_triple hpair.ne_nil hdown (closes_of_apart hpair.ne_nil hfunction) (not_infix_of_apart hpair.ne_nil hinterval)
    (longToString_ne_nil _)]
  rfl

/-- **Where neither the special keys nor the delimiter of time spans have a delimiter of pairs, downsampling has to be off** for the strings to be
readable, unless its string begins with the key to group by. -/
theorem readable_iff (hs : SameSettings w db) (hpair : IsDelimiter w.tagPairDelimiter) (hspan : IsDelimiter w.queryTimeSpanDelimiter)
    (htime : Closes w.tagPairDelimiter w.timestampKey) (hdown : Closes w.tagPairDelimiter w.downsampleKey)
    (hapart : ¬ w.tagPairDelimiter <:+: w.queryTimeSpanDelimiter) {ending : ℤ} (hending : q.endTimestamp = some ending)
    (hstart : FitsLong q.startTimestamp) (hend : FitsLong ending) :
    Readable w db q ↔ (∀ tag ∈ q.chosen, ∀ key ∈ specialKeys db, ¬ key <+: tagField w (tag.1, some tag.2)) ∧
      (∀ tag ∈ q.chosen, ∀ tag' ∈ q.chosen, tag.1 = tag'.1 → tag.2 = tag'.2) ∧
      (w.downsample = true → ¬ w.timestampKey <+: downsampleFieldOfScan w ∧ w.groupByKey <+: downsampleFieldOfScan w) := by
  have htimeSpan := isTimeSpan_timestampField hs hpair hspan htime hapart hending hstart hend
  constructor
  · intro h
    refine ⟨h.apart, h.agree, fun hon => ?_⟩
    have hsecond := split_downsampleFieldOfScan hs hpair hdown hon
    have hnot : ¬ w.timestampKey <+: downsampleFieldOfScan w := by
      intro hbegins
      obtain ⟨-, -, timestamps, a, b, hpart, hoccurs, -⟩ := h.accident hon (hs.timestampKey ▸ hbegins)
      rw [hs.tagPairDelimiter, hsecond] at hpart
      rw [← Option.some.inj hpart, hs.queryTimeSpanDelimiter] at hoccurs
      exact not_infix_of_apart hspan.ne_nil (hspan.apart_word (isWord_toString _)) hoccurs
    refine ⟨hnot, ?_⟩
    rcases h.passedOver hon (hs.timestampKey ▸ hnot) with ⟨hgroup, -⟩ | ⟨-, hpart⟩
    · exact hs.groupByKey ▸ hgroup
    · rw [hs.tagPairDelimiter, hsecond, Option.some.injEq] at hpart
      exact absurd (List.self_eq_append_right.mp hpart) (longToString_ne_nil _)
  · rintro ⟨happart, hagree, hdownsampling⟩
    refine ⟨happart, hagree, ⟨ending, hending, htimeSpan⟩, fun hon _ => .inl ⟨?_, db.downsamplingFunction, ?_⟩, fun hon hbegins => ?_⟩
    · exact hs.groupByKey ▸ (hdownsampling hon).2
    · rw [hs.tagPairDelimiter]
      exact split_downsampleFieldOfScan hs hpair hdown hon
    · exact absurd (hs.timestampKey ▸ hbegins) (hdownsampling hon).1

/-- **A scan is parsed as it was meant, whatever the order of its strings, just if they can be read.** -/
theorem scan_iff {shuffles : Shuffles} (hw : init p shuffles = .ok w) (hdb : TimeseriesDB.init p = .ok db)
    (hd : IsDelimiter w.tagPairDelimiter) {s : ThreadState} {draws : QueryDraws} {len : ℤ} (hq : scanQuery w s draws = .ok (q, len))
    (table : Utf16) :
    (∀ order, order.Perm (q.strings w (downsampleFieldOfScan w)) → ∃ call, db.scan table order = .ok (.calls call) ∧ IsScanOf p table q call) ↔
      Readable w db q := by
  have hs := sameSettings_of_init hw hdb
  have haccepted := init_accepted hw
  have hwords := hasWords_scanQuery haccepted hq
  cases hending : q.endTimestamp with
  | none =>
    constructor
    · intro h
      obtain ⟨call, -, hcall⟩ := h _ (List.Perm.refl _)
      exact absurd (hending.symm.trans hcall.endTs) (Option.some_ne_none _).symm
    · intro h
      obtain ⟨ending, hsome, -⟩ := h.timeSpan
      exact absurd (hending.symm.trans hsome) (Option.some_ne_none _).symm
  | some ending =>
    rw [← readsAs_iff hs hd haccepted.groupBy_eq hwords hending, ← gathers_iff (nodup_strings w q _)]
    exact forall₂_congr fun order _ => scan_iff_gather hdb hending table order

end

/-- Properties with a time span. -/
def spanOfOne : Properties := { oneSeries with querytimespan := .of 3600 }

set_option maxRecDepth 4000 in
/-- A scan of one series without downsampling is parsed. -/
theorem scan_iff_off :
    ∃ (w : TimeSeriesWorkload) (db : TimeseriesDB) (s : ThreadState) (q : Query) (len : ℤ), init spanOfOne noShuffles = .ok w ∧
      newThreadState w ⟨0, 0⟩ id 0 1 = .ok s ∧ scanQuery w s firstDraws = .ok (q, len) ∧
      ∀ order, order.Perm (q.strings w (downsampleFieldOfScan w)) → ∃ call, db.scan [] order = .ok (.calls call) ∧ IsScanOf spanOfOne [] q call := by
  obtain ⟨w, db, s, q, len, hw, hdb, hs, hq, hending, hstart, hoff, htime, hdown, hpair, hspan, hkeys, hchosen⟩ : ∃ w db s q len,
      init spanOfOne noShuffles = .ok w ∧ TimeseriesDB.init spanOfOne = .ok db ∧ newThreadState w ⟨0, 0⟩ id 0 1 = .ok s ∧
      scanQuery w s firstDraws = .ok (q, len) ∧ q.endTimestamp = some 1451610000 ∧ q.startTimestamp = 1451606400 ∧ w.downsample = false ∧
      w.timestampKey = [0x59, 0x43, 0x53, 0x42, 0x54, 0x53] ∧ w.downsampleKey = [0x59, 0x43, 0x53, 0x42, 0x44, 0x53] ∧
      w.tagPairDelimiter = [0x3D] ∧ w.queryTimeSpanDelimiter = [0x2C] ∧
      specialKeys db = [Properties.defaults.timestampkey, Properties.defaults.groupbykey, Properties.defaults.downsamplingkey] ∧
      q.chosen = [([0x41], [0x41])] := ⟨_, _, _, _, _, rfl, rfl, rfl, rfl, rfl, rfl, rfl, rfl, rfl, rfl, rfl, rfl, rfl⟩
  have hpairs : IsDelimiter w.tagPairDelimiter := by
    rw [hpair]
    exact isDelimiter_equals
  have hspans : IsDelimiter w.queryTimeSpanDelimiter := by
    rw [hspan]
    exact isDelimiter_comma
  have htime' : Closes w.tagPairDelimiter w.timestampKey := closes_of_apart hpairs.ne_nil (by rw [hpair, htime]; simp)
  have hdown' : Closes w.tagPairDelimiter w.downsampleKey := closes_of_apart hpairs.ne_nil (by rw [hpair, hdown]; simp)
  have hapart : ¬ w.tagPairDelimiter <:+: w.queryTimeSpanDelimiter := not_infix_of_apart hpairs.ne_nil (by rw [hpair, hspan]; simp)
  have hstart' : FitsLong q.startTimestamp := by
    rw [hstart]
    decide
  refine ⟨w, db, s, q, len, hw, hs, hq, (scan_iff hw hdb hpairs hq []).mpr ?_⟩
  rw [readable_iff (sameSettings_of_init hw hdb) hpairs hspans htime' hdown' hapart hending hstart' (by decide), hchosen, hkeys]
  refine ⟨fun tag htag => ?_, fun tag htag tag' htag' _ => ?_, fun hon => absurd (hoff.symm.trans hon) (by decide)⟩
  · rw [List.mem_singleton.mp htag]
    simp only [tagField, hpair]
    decide
  · rw [List.mem_singleton.mp htag, List.mem_singleton.mp htag']

/-- Properties with a time span and downsampling. -/
def downsampledSpan : Properties :=
  { spanOfOne with
    downsamplingfunction := some AggregationOperation.sum.toString
    downsamplinginterval := some (.of 60) }

set_option maxRecDepth 4000 in
/-- A scan with downsampling is a bad request. -/
theorem not_scan_parsed :
    ¬ ∀ (p : Properties) (shuffles : Shuffles) (w : TimeSeriesWorkload) (db : TimeseriesDB), init p shuffles = .ok w → TimeseriesDB.init p = .ok db →
      0 < w.queryTimeSpan → IsDelimiter w.tagPairDelimiter → IsDelimiter w.queryTimeSpanDelimiter → IsDelimiter w.deleteDelimiter →
      (∀ tagKey ∈ w.tagKeys, ∀ key ∈ specialKeys db, ¬ key <+: tagKey) →
      ∀ (clock : Clock) (shuffle : List ℤ → List ℤ) (threadID threadCount : ℤ) (s : ThreadState), newThreadState w clock shuffle threadID threadCount = .ok s →
        ∀ (draws : QueryDraws) (q : Query) (len : ℤ), scanQuery w s draws = .ok (q, len) →
          ∀ (table : Utf16) (order : List Utf16), order.Perm (q.strings w (downsampleFieldOfScan w)) →
            ∃ call, db.scan table order = .ok (.calls call) ∧ IsScanOf p table q call := by
  intro h
  obtain ⟨w, db, s, q, len, hw, hdb, hs, hq, hspan, hpair, hqspan, hdelete, hkeys, htags, hscan⟩ : ∃ w db s q len,
      init downsampledSpan noShuffles = .ok w ∧ TimeseriesDB.init downsampledSpan = .ok db ∧ newThreadState w ⟨0, 0⟩ id 0 1 = .ok s ∧
      scanQuery w s firstDraws = .ok (q, len) ∧ w.queryTimeSpan = 3600 ∧ w.tagPairDelimiter = [0x3D] ∧ w.queryTimeSpanDelimiter = [0x2C] ∧
      w.deleteDelimiter = [0x3A] ∧
      specialKeys db = [Properties.defaults.timestampkey, Properties.defaults.groupbykey, Properties.defaults.downsamplingkey] ∧
      w.tagKeys = [[0x41]] ∧ db.scan [] (q.strings w (downsampleFieldOfScan w)) = .ok (.returns .badRequest) :=
    ⟨_, _, _, _, _, rfl, rfl, rfl, rfl, rfl, rfl, rfl, rfl, rfl, rfl, rfl⟩
  obtain ⟨call, hcall, -⟩ := h _ _ w db hw hdb (by rw [hspan]; decide) (by rw [hpair]; exact isDelimiter_equals)
    (by rw [hqspan]; exact isDelimiter_comma) (by rw [hdelete]; exact isDelimiter_colon) (by rw [hkeys, htags]; decide) _ _ _ _ s hs _ q len hq [] _
    (List.Perm.refl _)
  rw [hscan] at hcall
  cases hcall

end YcsbIvs.TimeSeries
