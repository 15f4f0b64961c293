import YcsbIvs.TimeSeries.Reachable
import YcsbIvs.TimeSeries.Strings

/-!
# Reads that are parsed as they were meant

The strings of a read are meant to say a timestamp and a value for each of the tags. `TimeseriesDB` finds this, in whatever order it goes through them,
if the key of the timestamps has no delimiter of pairs and is not taken for a part of a tag, and if tags of one key have one value (`read_parsed`).

Nothing sees to either. The keys and delimiters are properties, and the generator of the tags' keys begins again after the last key.
-/

namespace YcsbIvs.TimeSeries

open YcsbIvs.Core YcsbIvs.Foundations YcsbIvs.Generator
open YcsbIvs.Workloads (longToString)

section

variable {p : Properties} {w : TimeSeriesWorkload} {db : TimeseriesDB} {q : Query} {name value field : Utf16}

/-! ### Reads -/

/-- Where the key of the timestamps has no delimiter of pairs, a tag's string begins with it only if the tag's key does, with the delimiter after it. -/
theorem not_prefix_tagField (hpair : IsDelimiter w.tagPairDelimiter) (htime : Closes w.tagPairDelimiter w.timestampKey)
    (h : ¬ w.timestampKey <+: name ++ w.tagPairDelimiter) : ¬ w.timestampKey <+: tagField w (name, some value) := by
  intro hbegins
  rcases le_total w.timestampKey.length (name ++ w.tagPairDelimiter).length with hle | hle
  · exact h (List.prefix_of_prefix_length_le hbegins (List.prefix_append _ value) hle)
  · -- the key would have the delimiter
    obtain ⟨rest, hrest⟩ := List.prefix_of_prefix_length_le (List.prefix_append _ value) hbegins hle
    have hnil := htime (w.tagPairDelimiter ++ rest) ⟨name, by rw [← hrest, List.append_assoc]⟩ ⟨rest ++ w.tagPairDelimiter, by simp⟩
    exact hpair.ne_nil (List.append_eq_nil_iff.mp hnil).1

theorem readField_other (h : ¬ db.timestampKey <+: field) : readField db field = readTag (split db.tagPairDelimiter field) := by
  rw [readField, if_neg (mt List.isPrefixOf_iff_prefix.mp h)]

/-- The string of one timestamp says it, where the key of the timestamps has no delimiter of pairs. -/
theorem readField_timestampField (hs : SameSettings w db) (hpair : IsDelimiter w.tagPairDelimiter) (hspan : IsDelimiter w.queryTimeSpanDelimiter)
    (htime : Closes w.tagPairDelimiter w.timestampKey) (hending : q.endTimestamp = none) (hstart : FitsLong q.startTimestamp) :
    readField db (timestampField w q) = .ok (.mark q.startTimestamp) := by
  have hbegins : db.timestampKey <+: timestampField w q := hs.timestampKey ▸ ⟨_, (List.append_assoc _ _ _).symm⟩
  have htimestamps : q.timestamps w = longToString q.startTimestamp := by rw [Query.timestamps, hending]
  have hsplit : split w.tagPairDelimiter (timestampField w q) = [w.timestampKey, longToString q.startTimestamp] := by
    rw [timestampField, htimestamps]
    exact split_pair hpair.ne_nil htime (not_infix_of_apart hpair.ne_nil (hpair.apart_number _)) (longToString_ne_nil _)
  have hpart : secondPart db (timestampField w q) = .ok (longToString q.startTimestamp) := by
    rw [secondPart_eq_ok, hs.tagPairDelimiter, hsplit]
    rfl
  have hoccurs : ¬ occurs db.queryTimeSpanDelimiter (longToString q.startTimestamp) = true := by
    rw [occurs_iff, hs.queryTimeSpanDelimiter]
    exact not_infix_of_apart hspan.ne_nil (hspan.apart_number _)
  rw [readField, if_pos (List.isPrefixOf_iff_prefix.mpr hbegins), bind_ok hpart, if_neg hoccurs,
    bind_ok (orStop_eq_ok.mpr (parseLong_longToString hstart))]

/-- The call of the binding's `read` is the one that is meant. -/
structure IsReadOf (table : Utf16) (q : Query) (call : ReadCall) : Prop where
  /-- The table. -/
  metric : call.metric = table
  /-- The timestamp. -/
  timestamp : call.timestamp = q.startTimestamp
  /-- Each tag has the value chosen for it. -/
  tags : ∀ tag ∈ q.chosen, call.tags.get tag.1 = some [tag.2]
  /-- There are no other tags. -/
  noOthers : ∀ name, (∀ tag ∈ q.chosen, tag.1 ≠ name) → call.tags.get name = none

theorem readQuery_inv (haccepted : Accepted w) (hspan : w.queryTimeSpan ≤ 0) {s : ThreadState} {draws : QueryDraws} (h : readQuery w s draws = .ok q) :
    HasWords q ∧ q.endTimestamp = none ∧ (∃ offsets, q.startTimestamp = startOf s offsets) ∧
      q.tags.map Prod.fst = (List.range w.tagPairs).map fun i => w.tagKeys.getD i [] := by
  obtain ⟨keyname, -, h⟩ := bind_inv h
  obtain ⟨offsets, -, h⟩ := bind_inv h
  obtain ⟨tags, htags, h⟩ := bind_inv h
  obtain ⟨endTimestamp, hend, h⟩ := bind_inv h
  cases h
  rw [endOf, if_neg (by omega)] at hend
  cases hend
  exact ⟨(chooseTags_inv haccepted htags).2, rfl, ⟨_, rfl⟩, (chooseTags_inv haccepted htags).1⟩

/-- The start of a query is a number of 64 bits. -/
theorem fitsLong_startOf {s : ThreadState} (h : FitsLong s.startTimestamp) (offsets : ℤ) : FitsLong (startOf s offsets) := by
  rw [startOf]
  split_ifs
  · exact fitsLong_asLong _
  · exact h

/-- The tags that are chosen have keys of the workload. -/
theorem mem_tagKeys_of_chosen (haccepted : Accepted w) (hnames : q.tags.map Prod.fst = (List.range w.tagPairs).map fun i => w.tagKeys.getD i [])
    {tag : Utf16 × Utf16} (htag : tag ∈ q.chosen) : tag.1 ∈ w.tagKeys := by
  have hmem : tag.1 ∈ q.tags.map Prod.fst := List.mem_map_of_mem (mem_chosen.mp htag)
  rw [hnames] at hmem
  obtain ⟨i, hi, hkey⟩ := List.mem_map.mp hmem
  have hlt : i < w.tagKeys.length := haccepted.length_tagKeys ▸ List.mem_range.mp hi
  rw [List.getD_eq_getElem _ _ hlt] at hkey
  exact hkey ▸ List.getElem_mem hlt

/-- The string of a tag says the tag. -/
theorem readField_tagField (hs : SameSettings w db) (hpair : IsDelimiter w.tagPairDelimiter) (htime : Closes w.tagPairDelimiter w.timestampKey)
    (hname : IsWord name) (hvalue : IsWord value) (hkey : ¬ w.timestampKey <+: name ++ w.tagPairDelimiter) :
    readField db (tagField w (name, some value)) = .ok (.pair name value) := by
  have hnot : ¬ w.timestampKey <+: tagField w (name, some value) := not_prefix_tagField hpair htime hkey
  rw [readField_other (hs.timestampKey ▸ hnot), hs.tagPairDelimiter, split_tagField hpair hname hvalue]
  exact readTag_eq_ok.mpr ⟨_, _, rfl, rfl, rfl⟩

/-- Where each string says its tag or the timestamp, and tags of one key have one value, the strings say the timestamp and the tags. -/
theorem readsAs_readField (hgroup : w.groupBy = false) (hwords : HasWords q) (hoff : w.downsample = false)
    (hreadTag : ∀ tag ∈ q.chosen, readField db (tagField w (tag.1, some tag.2)) = .ok (.pair tag.1 tag.2))
    (hreadTimestamp : readField db (timestampField w q) = .ok (.mark q.startTimestamp))
    (hagree : ∀ tag ∈ q.chosen, ∀ tag' ∈ q.chosen, tag.1 = tag'.1 → tag.2 = tag'.2) :
    ReadsAs (readField db) (q.strings w (downsampleField w)) q.startTimestamp q.chosen := by
  have hmem : ∀ {field}, field ∈ q.strings w (downsampleField w) ↔ _ := mem_strings hgroup hwords
  have hcases : ∀ field ∈ q.strings w (downsampleField w),
      (∃ tag ∈ q.chosen, field = tagField w (tag.1, some tag.2)) ∨ field = timestampField w q := by
    intro field hfield
    rcases hmem.mp hfield with htag | htimestamp | ⟨hon, -⟩
    · exact .inl htag
    · exact .inr htimestamp
    · exact absurd (hoff.symm.trans hon) (by decide)
  refine ⟨fun field hfield => ?_, ⟨_, hmem.mpr (.inr (.inl rfl)), hreadTimestamp⟩, fun field hfield timestamp hread => ?_, fun tag htag => ?_,
    fun field hfield name value hread => ?_⟩
  · rcases hcases field hfield with ⟨tag, htag, rfl⟩ | rfl
    · exact ⟨_, hreadTag tag htag⟩
    · exact ⟨_, hreadTimestamp⟩
  · rcases hcases field hfield with ⟨tag, htag, rfl⟩ | rfl
    · rw [hreadTag tag htag] at hread
      cases hread
    · rw [hreadTimestamp] at hread
      cases hread
      rfl
  · refine ⟨_, hmem.mpr (.inl ⟨tag, htag, rfl⟩), hreadTag tag htag, fun field hfield value hread => ?_⟩
    rcases hcases field hfield with ⟨tag', htag', rfl⟩ | rfl
    · rw [hreadTag tag' htag', Except.ok.injEq, Item.pair.injEq] at hread
      rw [hread.1, hagree tag htag tag' htag' hread.1.symm]
    · rw [hreadTimestamp] at hread
      cases hread
  · rcases hcases field hfield with ⟨tag, htag, rfl⟩ | rfl
    · rw [hreadTag tag htag, Except.ok.injEq, Item.pair.injEq] at hread
      exact ⟨tag, htag, hread.1⟩
    · rw [hreadTimestamp] at hread
      cases hread

/-- **A read of one timestamp is parsed as it was meant**, whatever the order of its strings: if the key of the timestamps has no delimiter of pairs, no
tag's key has that key before it when the delimiter comes after, and tags of one key have one value. -/
theorem read_parsed {shuffles : Shuffles} (hw : init p shuffles = .ok w) (hdb : TimeseriesDB.init p = .ok db) (htimeSpan : w.queryTimeSpan ≤ 0)
    (hoff : w.downsample = false) (hpair : IsDelimiter w.tagPairDelimiter) (hspan : IsDelimiter w.queryTimeSpanDelimiter)
    (htime : Closes w.tagPairDelimiter w.timestampKey) (hkeys : ∀ tagKey ∈ w.tagKeys, ¬ w.timestampKey <+: tagKey ++ w.tagPairDelimiter)
    {clock : Clock} {shuffle : List ℤ → List ℤ} {threadID threadCount : ℤ} {s₀ s : ThreadState}
    (hs₀ : newThreadState w clock shuffle threadID threadCount = .ok s₀) {calls : List (Bool × Draws)} (hrun : exec (nextState w) s₀ calls = some s)
    {draws : QueryDraws} (hq : readQuery w s draws = .ok q) (hagree : ∀ tag ∈ q.chosen, ∀ tag' ∈ q.chosen, tag.1 = tag'.1 → tag.2 = tag'.2)
    (table : Utf16) {order : List Utf16} (horder : order.Perm (q.strings w (downsampleField w))) :
    ∃ call, db.read table order = .ok (.calls call) ∧ IsReadOf table q call := by
  have hs := sameSettings_of_init hw hdb
  have haccepted := init_accepted hw
  obtain ⟨hwords, hending, ⟨offsets, hstart⟩, hnames⟩ := readQuery_inv haccepted htimeSpan hq
  have hfits : FitsLong q.startTimestamp := hstart ▸ fitsLong_startOf (fitsLong_startTimestamp hs₀ hrun) offsets
  have hreadTag : ∀ tag ∈ q.chosen, readField db (tagField w (tag.1, some tag.2)) = .ok (.pair tag.1 tag.2) := fun tag htag =>
    readField_tagField hs hpair htime (hwords.chosen htag).1 (hwords.chosen htag).2 (hkeys tag.1 (mem_tagKeys_of_chosen haccepted hnames htag))
  have hreads := readsAs_readField haccepted.groupBy_eq hwords hoff hreadTag (readField_timestampField hs hpair hspan htime hending hfits) hagree
  obtain ⟨g, hgather, his⟩ := gathers_of_readsAs (nodup_strings w q _) hreads horder
  exact ⟨_, answer_eq_calls.mpr ⟨g, _, hgather, his.mark_eq, rfl⟩, rfl, rfl, his.get_eq, his.get_eq_none⟩

/-- Tags whose keys are all different have one value for each key. -/
theorem agree_of_nodup (hnd : (q.tags.map Prod.fst).Nodup) : ∀ tag ∈ q.chosen, ∀ tag' ∈ q.chosen, tag.1 = tag'.1 → tag.2 = tag'.2 := by
  intro tag htag tag' htag' heq
  have hsame := List.inj_on_of_nodup_map hnd (mem_chosen.mp htag) (mem_chosen.mp htag') heq
  exact Option.some.inj (congrArg Prod.snd hsame)

end

set_option maxRecDepth 4000 in
/-- A read of one series is parsed. -/
theorem read_parsed_one :
    ∃ (w : TimeSeriesWorkload) (db : TimeseriesDB) (s : ThreadState) (q : Query), init oneSeries noShuffles = .ok w ∧
      newThreadState w ⟨0, 0⟩ id 0 1 = .ok s ∧ readQuery w s firstDraws = .ok q ∧
      ∃ call, db.read [] (q.strings w (downsampleField w)) = .ok (.calls call) ∧ IsReadOf [] q call := by
  obtain ⟨w, db, s, q, hw, hdb, hs, hq, htimeSpan, hoff, htime, hpair, hspan, hkeys, hnames⟩ : ∃ w db s q,
      init oneSeries noShuffles = .ok w ∧ TimeseriesDB.init oneSeries = .ok db ∧ newThreadState w ⟨0, 0⟩ id 0 1 = .ok s ∧
      readQuery w s firstDraws = .ok q ∧ w.queryTimeSpan = 0 ∧ w.downsample = false ∧
      w.timestampKey = [0x59, 0x43, 0x53, 0x42, 0x54, 0x53] ∧ w.tagPairDelimiter = [0x3D] ∧ w.queryTimeSpanDelimiter = [0x2C] ∧
      w.tagKeys = [[0x41]] ∧ q.tags.map Prod.fst = [[0x41]] := ⟨_, _, _, _, rfl, rfl, rfl, rfl, rfl, rfl, rfl, rfl, rfl, rfl, rfl⟩
  have hpairs : IsDelimiter w.tagPairDelimiter := by
    rw [hpair]
    exact isDelimiter_equals
  have hspans : IsDelimiter w.queryTimeSpanDelimiter := by
    rw [hspan]
    exact isDelimiter_comma
  have htime' : Closes w.tagPairDelimiter w.timestampKey := closes_of_apart hpairs.ne_nil (by rw [hpair, htime]; simp)
  have hagree := agree_of_nodup (q := q) (by rw [hnames]; exact List.nodup_singleton _)
  have hrun : exec (nextState w) s [] = some s := rfl
  exact ⟨w, db, s, q, hw, hs, hq, read_parsed hw hdb htimeSpan.le hoff hpairs hspans htime' (by rw [hkeys, htime, hpair]; decide) hs hrun hq
    hagree [] (List.Perm.refl _)⟩

/-- Each read of one timestamp that meets `C` is parsed as it was meant, if no tag's key begins with that of the timestamps. -/
def AllParsed (C : TimeSeriesWorkload → Query → Prop) : Prop :=
  ∀ (p : Properties) (shuffles : Shuffles) (w : TimeSeriesWorkload) (db : TimeseriesDB), init p shuffles = .ok w → TimeseriesDB.init p = .ok db →
    w.queryTimeSpan = 0 → w.downsample = false → IsDelimiter w.tagPairDelimiter → IsDelimiter w.queryTimeSpanDelimiter → IsDelimiter w.deleteDelimiter →
    (∀ tagKey ∈ w.tagKeys, ¬ w.timestampKey <+: tagKey) →
    ∀ (clock : Clock) (shuffle : List ℤ → List ℤ) (threadID threadCount : ℤ) (s₀ : ThreadState),
      newThreadState w clock shuffle threadID threadCount = .ok s₀ → ∀ (calls : List (Bool × Draws)) (s : ThreadState),
        exec (nextState w) s₀ calls = some s → ∀ (draws : QueryDraws) (q : Query), readQuery w s draws = .ok q → C w q →
          ∀ (table : Utf16) (order : List Utf16), order.Perm (q.strings w (downsampleField w)) →
            ∃ call, db.read table order = .ok (.calls call) ∧ IsReadOf table q call

/-- Properties whose key of the timestamps has the delimiter of pairs. -/
def delimitedKey : Properties := { oneSeries with timestampkey := [0x54, 0x3D] }

/-- Properties for 53 tags with keys of one letter: the last has the key of the first, and two values. -/
def tagsOver : Properties :=
  { oneSeries with
    tagcount := .of 53
    tagcardinality := List.replicate 52 (some (.of 1)) ++ [some (.of 2)] }

/-- The last tag gets its second value. -/
def lastOfTwo : QueryDraws := { firstDraws with values := fun i => if i = 52 then 1 else 0 }

set_option maxRecDepth 4000 in
/-- A read is not always parsed: neither where all tags have different keys, nor where the key of the timestamps is apart from the other strings. -/
theorem not_allParsed :
    ¬ AllParsed (fun _ _ => True) ∧ ¬ AllParsed (fun _ q => (q.tags.map Prod.fst).Nodup) ∧
      ¬ AllParsed (fun w _ => Closes w.tagPairDelimiter w.timestampKey ∧
        ∀ tagKey ∈ w.tagKeys, ¬ w.timestampKey <+: tagKey ++ w.tagPairDelimiter) := by
  have hkey : ¬ AllParsed (fun _ q => (q.tags.map Prod.fst).Nodup) := by
    intro h
    obtain ⟨w, db, s, q, hw, hdb, hs, hq, htimeSpan, hoff, htime, hpair, hspan, hdelete, hkeys, hnames, hread⟩ : ∃ w db s q,
        init delimitedKey noShuffles = .ok w ∧ TimeseriesDB.init delimitedKey = .ok db ∧ newThreadState w ⟨0, 0⟩ id 0 1 = .ok s ∧
        readQuery w s firstDraws = .ok q ∧ w.queryTimeSpan = 0 ∧ w.downsample = false ∧ w.timestampKey = [0x54, 0x3D] ∧
        w.tagPairDelimiter = [0x3D] ∧ w.queryTimeSpanDelimiter = [0x2C] ∧ w.deleteDelimiter = [0x3A] ∧ w.tagKeys = [[0x41]] ∧
        q.tags.map Prod.fst = [[0x41]] ∧ db.read [] (q.strings w (downsampleField w)) = .error .numberFormat :=
      ⟨_, _, _, _, rfl, rfl, rfl, rfl, rfl, rfl, rfl, rfl, rfl, rfl, rfl, rfl, rfl⟩
    have hnodup : (q.tags.map Prod.fst).Nodup := by
      rw [hnames]
      exact List.nodup_singleton _
    obtain ⟨call, hcall, -⟩ := h _ _ w db hw hdb htimeSpan hoff (by rw [hpair]; exact isDelimiter_equals) (by rw [hspan]; exact isDelimiter_comma)
      (by rw [hdelete]; exact isDelimiter_colon) (by rw [hkeys, htime]; decide) _ _ _ _ s hs [] s rfl _ q hq
      hnodup [] _ (List.Perm.refl _)
    rw [hread] at hcall
    cases hcall
  refine ⟨fun h => hkey fun p shuffles w db hw hdb h₁ h₂ h₃ h₄ h₅ h₆ clock shuffle threadID threadCount s₀ hs₀ calls s hs draws q hq _ =>
    h p shuffles w db hw hdb h₁ h₂ h₃ h₄ h₅ h₆ clock shuffle threadID threadCount s₀ hs₀ calls s hs draws q hq trivial, hkey, fun h => ?_⟩
  obtain ⟨w, db, s, q, hw, hdb, hs, hq, htimeSpan, hoff, htime, hpair, hspan, hdelete, hkeys, hfirst, hlast⟩ : ∃ w db s q,
      init tagsOver noShuffles = .ok w ∧ TimeseriesDB.init tagsOver = .ok db ∧ newThreadState w ⟨0, 0⟩ id 0 1 = .ok s ∧
      readQuery w s lastOfTwo = .ok q ∧ w.queryTimeSpan = 0 ∧ w.downsample = false ∧
      w.timestampKey = [0x59, 0x43, 0x53, 0x42, 0x54, 0x53] ∧ w.tagPairDelimiter = [0x3D] ∧ w.queryTimeSpanDelimiter = [0x2C] ∧
      w.deleteDelimiter = [0x3A] ∧ (w.tagKeys.all fun tagKey => tagKey.length == 1) = true ∧
      q.chosen.head? = some ([0x41], [0x41]) ∧ q.chosen.getLast? = some ([0x41], [0x42]) :=
    ⟨_, _, _, _, rfl, rfl, rfl, rfl, rfl, rfl, rfl, rfl, rfl, rfl, rfl, rfl, rfl⟩
  have hpairs : IsDelimiter w.tagPairDelimiter := by
    rw [hpair]
    exact isDelimiter_equals
  -- the key of the timestamps is longer than that of a tag with the delimiter
  have hlong : ∀ tagKey ∈ w.tagKeys, ¬ w.timestampKey <+: tagKey ++ w.tagPairDelimiter := by
    intro tagKey htagKey hbegins
    have hone : tagKey.length = 1 := by simpa using List.all_eq_true.mp hkeys tagKey htagKey
    have hle := hbegins.length_le
    rw [htime, hpair, List.length_append, hone] at hle
    exact absurd hle (by decide)
  obtain ⟨call, -, hcall⟩ := h _ _ w db hw hdb htimeSpan hoff hpairs (by rw [hspan]; exact isDelimiter_comma)
    (by rw [hdelete]; exact isDelimiter_colon) (fun tagKey htagKey hbegins => hlong tagKey htagKey (hbegins.trans (List.prefix_append _ _))) _ _ _ _ s hs
    [] s rfl _ q hq ⟨closes_of_apart hpairs.ne_nil (by rw [hpair, htime]; simp), hlong⟩ [] _ (List.Perm.refl _)
  have hvalue : call.tags.get [0x41] = some [[0x41]] := hcall.tags _ (List.mem_of_head? hfirst)
  have hvalue' : call.tags.get [0x41] = some [[0x42]] := hcall.tags _ (List.mem_of_getLast? hlast)
  rw [hvalue] at hvalue'
  exact absurd hvalue' (by decide)

end YcsbIvs.TimeSeries
