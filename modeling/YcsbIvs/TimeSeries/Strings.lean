import YcsbIvs.TimeSeries.TimeseriesDB
import YcsbIvs.TimeSeries.Verification

/-!
# The strings of a query

What the proofs about scans and reads share. A workload and a binding of the same properties have the same settings
(`sameSettings_of_init`). The keys and values of the tags that are chosen are words, so a delimiter that has no letters is not in them, and the
string of a tag comes apart again (`split_tagField`). What the binding takes from the parts of a string is said in terms of `split`.

`split` is for literal delimiters; so `IsDelimiter` leaves out those with characters that have a meaning in a regular expression.
-/

namespace YcsbIvs.TimeSeries

open YcsbIvs.Core YcsbIvs.Foundations YcsbIvs.Generator
open YcsbIvs.Workloads (longToString)

/-! ### Delimiters -/

/-- The characters that have a meaning in a regular expression. -/
def metacharacters : Utf16 := [0x24, 0x28, 0x29, 0x2A, 0x2B, 0x2E, 0x3F, 0x5B, 0x5C, 0x5D, 0x5E, 0x7B, 0x7C, 0x7D]

/-- A delimiter that is not empty, and has no letters, digits, minus or metacharacters. -/
structure IsDelimiter (d : Utf16) : Prop where
  /-- It is not empty. -/
  ne_nil : d ≠ []
  /-- It has none of these. -/
  plain : ∀ c ∈ d, ¬ IsLetter c ∧ ¬ IsNumeral c ∧ c ∉ metacharacters

section

variable {d s name value : Utf16}

theorem IsDelimiter.apart_word (hd : IsDelimiter d) (h : IsWord s) : ∀ c ∈ s, c ∉ d := fun c hc hmem => (hd.plain c hmem).1 (h.2 c hc)

theorem IsDelimiter.apart_number (hd : IsDelimiter d) (n : ℤ) : ∀ c ∈ longToString n, c ∉ d :=
  fun c hc hmem => (hd.plain c hmem).2.1 (isNumeral_longToString hc)

end

theorem isWord_toString (op : AggregationOperation) : IsWord op.toString := by
  cases op <;> exact ⟨List.cons_ne_nil _ _, by simp [AggregationOperation.toString, IsLetter]⟩

theorem AggregationOperation.valueOf_eq_ok {name : Utf16} {op : AggregationOperation} : valueOf name = .ok op ↔ name = op.toString := by
  constructor
  · intro h
    have hfind : values.find? (fun op => decide (op.toString = name)) = some op := orIllegal_eq_ok.mp h
    have htrue := List.find?_some hfind
    exact (of_decide_eq_true htrue).symm
  · rintro rfl
    cases op <;> rfl

/-! ### The same properties -/

/-- The workload and the binding have the same settings. -/
structure SameSettings (w : TimeSeriesWorkload) (db : TimeseriesDB) : Prop where
  /-- The key of the timestamps. -/
  timestampKey : db.timestampKey = w.timestampKey
  /-- The delimiter of pairs. -/
  tagPairDelimiter : db.tagPairDelimiter = w.tagPairDelimiter
  /-- The delimiter of time spans. -/
  queryTimeSpanDelimiter : db.queryTimeSpanDelimiter = w.queryTimeSpanDelimiter
  /-- The key to group by. -/
  groupByKey : db.groupByKey = w.groupByKey
  /-- The key of the downsampling. -/
  downsamplingKey : db.downsamplingKey = w.downsampleKey
  /-- The downsampling, if it is on. -/
  downsampling : w.downsample = true →
    orNull w.downsampleFunction = db.downsamplingFunction.toString ∧ w.downsampleInterval = db.downsamplingInterval

/-- What the binding aggregates with is what is configured. -/
structure Configured (p : Properties) (aggreg : AggregationOperation) (timeValue : ℤ) (timeUnit : TimeUnit) : Prop where
  /-- The function. -/
  aggreg : aggreg.toString = p.downsamplingfunction.getD AggregationOperation.none.toString
  /-- The interval. -/
  timeValue : timeValue = (p.downsamplinginterval.getD (.of 0)).val
  /-- The unit. -/
  timeUnit : p.timestampunits = some timeUnit

theorem configured_of_init {p : Properties} {db : TimeseriesDB} (h : TimeseriesDB.init p = .ok db) :
    Configured p db.downsamplingFunction db.downsamplingInterval db.timestampUnit := by
  obtain ⟨unit, hunit, h⟩ := bind_inv h
  obtain ⟨op, hop, h⟩ := bind_inv h
  cases h
  exact ⟨(AggregationOperation.valueOf_eq_ok.mp hop).symm, rfl, orIllegal_eq_ok.mp hunit⟩

theorem sameSettings_of_init {p : Properties} {shuffles : Shuffles} {w : TimeSeriesWorkload} {db : TimeseriesDB}
    (hw : init p shuffles = .ok w) (hdb : TimeseriesDB.init p = .ok db) : SameSettings w db := by
  have hconfigured := configured_of_init hdb
  obtain ⟨unit, -, hdb⟩ := bind_inv hdb
  obtain ⟨op, hop, hdb⟩ := bind_inv hdb
  cases hdb
  rw [init] at hw
  dsimp only at hw
  obtain ⟨scanlength, -, hw⟩ := bind_inv hw
  by_cases hneg : p.tagcount.val < 0
  · rw [if_pos hneg] at hw
    cases hw
  rw [if_neg hneg] at hw
  obtain ⟨keychooser, -, hw⟩ := bind_inv hw
  obtain ⟨timestampInterval, -, hw⟩ := bind_inv hw
  obtain ⟨timeUnits, -, hw⟩ := bind_inv hw
  obtain ⟨-, -, hw⟩ := bind_inv hw
  obtain ⟨d, hd, hw⟩ := bind_inv hw
  obtain ⟨valueType, -, hw⟩ := bind_inv hw
  obtain ⟨k, -, hw⟩ := bind_inv hw
  obtain ⟨valid, -, hw⟩ := bind_inv hw
  cases hw
  refine ⟨rfl, rfl, rfl, rfl, rfl, fun hon => ?_⟩
  have hset := initDownsampling_spec hd
  rw [show d.1 = true from hon] at hset
  rw [initDownsampling, if_pos hset.symm] at hd
  obtain ⟨function, hfunction⟩ : ∃ function, p.downsamplingfunction = some function := by
    cases hf : p.downsamplingfunction with
    | none =>
      rw [hf] at hset
      cases hset
    | some function => exact ⟨function, rfl⟩
  cases hinterval : p.downsamplinginterval with
  | none =>
    rw [hinterval] at hd
    cases hd
  | some interval =>
    rw [hinterval] at hd
    cases hd
    have haggreg := hconfigured.aggreg
    rw [hfunction] at haggreg
    refine ⟨?_, rfl⟩
    dsimp only
    rw [hfunction]
    exact haggreg.symm

/-! ### The strings of a query -/

/-- The tags of a query that have a value. -/
def Query.chosen (q : Query) : List (Utf16 × Utf16) := q.tags.filterMap fun tag => tag.2.map fun value => (tag.1, value)

section

variable {p : Properties} {w : TimeSeriesWorkload} {db : TimeseriesDB} {q : Query} {d name value field : Utf16}

theorem mem_of_elementAt {α : Type} {array : List α} {i : ℤ} {a : α} (h : elementAt array i = .ok a) : a ∈ array := by
  rw [elementAt] at h
  split_ifs at h
  split at h
  · next b hb =>
    cases h
    exact List.mem_of_getElem? hb
  · cases h

/-- Each tag has a value, and both the key and the value are words. -/
def HasWords (q : Query) : Prop := ∀ tag ∈ q.tags, ∃ value, tag.2 = some value ∧ IsWord tag.1 ∧ IsWord value

theorem chooseTag_inv (haccepted : Accepted w) {draw i : ℕ} {tag : Utf16 × Option Utf16} (h : chooseTag w draw i = .ok tag) :
    tag.1 = w.tagKeys.getD i [] ∧ ∃ value, tag.2 = some value ∧ IsWord tag.1 ∧ IsWord value := by
  rw [chooseTag, haccepted.groupBy_eq, if_neg Bool.false_ne_true] at h
  obtain ⟨grouped, hgrouped, h⟩ := bind_inv h
  cases hgrouped
  obtain ⟨tagKey, hkey, h⟩ := bind_inv h
  rw [if_neg Bool.false_ne_true] at h
  obtain ⟨card, -, h⟩ := bind_inv h
  obtain ⟨n, -, h⟩ := bind_inv h
  obtain ⟨value, hvalue, h⟩ := bind_inv h
  cases h
  exact ⟨(elementAt_inv hkey []).symm, value, rfl, haccepted.isWord_tagKeys _ (mem_of_elementAt hkey),
    haccepted.isWord_tagValues _ (mem_of_elementAt hvalue)⟩

theorem chooseTags_inv (haccepted : Accepted w) {values : ℕ → ℕ} {is : List ℕ} {tags : List (Utf16 × Option Utf16)}
    (h : chooseTags w values is = .ok tags) :
    tags.map Prod.fst = is.map (fun i => w.tagKeys.getD i []) ∧
      ∀ tag ∈ tags, ∃ value, tag.2 = some value ∧ IsWord tag.1 ∧ IsWord value := by
  induction is generalizing tags with
  | nil =>
    cases h
    exact ⟨rfl, fun tag htag => absurd htag List.not_mem_nil⟩
  | cons i is ih =>
    obtain ⟨tag, htag, h⟩ := bind_inv h
    obtain ⟨tags', htags, h⟩ := bind_inv h
    cases h
    obtain ⟨hkey, hwords⟩ := chooseTag_inv haccepted htag
    obtain ⟨hkeys, hall⟩ := ih htags
    refine ⟨?_, List.forall_mem_cons.mpr ⟨hwords, hall⟩⟩
    rw [List.map_cons, List.map_cons, hkey, hkeys]

theorem mem_chosen {tag : Utf16 × Utf16} : tag ∈ q.chosen ↔ (tag.1, some tag.2) ∈ q.tags := by
  rw [Query.chosen, List.mem_filterMap]
  constructor
  · rintro ⟨⟨name, value⟩, hmem, htag⟩
    cases value with
    | none => cases htag
    | some value =>
      cases htag
      exact hmem
  · intro h
    exact ⟨_, h, rfl⟩

theorem HasWords.chosen (h : HasWords q) {tag : Utf16 × Utf16} (htag : tag ∈ q.chosen) : IsWord tag.1 ∧ IsWord tag.2 := by
  obtain ⟨value, hvalue, hwords⟩ := h _ (mem_chosen.mp htag)
  cases hvalue
  exact hwords

/-- The strings are those of the tags, that of the timestamps, and that of the downsampling if it is on. -/
theorem mem_strings (hgroup : w.groupBy = false) (h : HasWords q) {downsampling : Utf16} :
    field ∈ q.strings w downsampling ↔
      (∃ tag ∈ q.chosen, field = tagField w (tag.1, some tag.2)) ∨ field = timestampField w q ∨ w.downsample = true ∧ field = downsampling := by
  have htags : (∃ tag ∈ q.tags, tagField w tag = field) ↔ ∃ tag ∈ q.chosen, field = tagField w (tag.1, some tag.2) := by
    constructor
    · rintro ⟨tag, htag, rfl⟩
      obtain ⟨value, hvalue, -⟩ := h tag htag
      exact ⟨(tag.1, value), mem_chosen.mpr (hvalue ▸ htag), by rw [← hvalue]⟩
    · rintro ⟨tag, htag, rfl⟩
      exact ⟨_, mem_chosen.mp htag, rfl⟩
  rw [Query.strings, List.mem_dedup, hgroup, if_neg Bool.false_ne_true, List.append_nil, List.mem_append, List.mem_append, List.mem_map, htags,
    List.mem_singleton, or_assoc]
  by_cases hon : w.downsample = true
  · rw [if_pos hon, List.mem_singleton, and_iff_right hon]
  · rw [if_neg hon]
    simp [hon]

theorem nodup_strings (w : TimeSeriesWorkload) (q : Query) (downsampling : Utf16) : (q.strings w downsampling).Nodup := List.nodup_dedup _

/-- The string of a tag comes apart. -/
theorem split_tagField (hd : IsDelimiter w.tagPairDelimiter) (hname : IsWord name) (hvalue : IsWord value) :
    split w.tagPairDelimiter (tagField w (name, some value)) = [name, value] :=
  split_pair hd.ne_nil (closes_of_apart hd.ne_nil (hd.apart_word hname)) (not_infix_of_apart hd.ne_nil (hd.apart_word hvalue)) hvalue.1

/-! ### Parts of a string -/

theorem orStop_eq_ok {α : Type} {x : Except Thrown α} {a : α} : orStop x = .ok a ↔ x = .ok a := by
  cases x <;> simp [orStop, Except.mapError]

theorem elementAt_eq_ok {α : Type} {array : List α} {i : ℕ} {a : α} : elementAt array i = .ok a ↔ array[i]? = some a := by
  rw [elementAt, if_neg (by omega), Int.toNat_natCast]
  cases array[i]? <;> simp

theorem secondPart_eq_ok {part : Utf16} : secondPart db field = .ok part ↔ (split db.tagPairDelimiter field)[1]? = some part :=
  orStop_eq_ok.trans elementAt_eq_ok

theorem readTag_eq_ok {τ : Type} {queryParts : List Utf16} {item : Item τ Utf16 Utf16} :
    readTag queryParts = .ok item ↔ ∃ name value, queryParts[0]? = some name ∧ queryParts[1]? = some value ∧ item = .pair name value := by
  constructor
  · intro h
    obtain ⟨name, hname, h⟩ := bind_inv h
    obtain ⟨value, hvalue, h⟩ := bind_inv h
    cases h
    exact ⟨name, value, elementAt_eq_ok.mp (orStop_eq_ok.mp hname), elementAt_eq_ok.mp (orStop_eq_ok.mp hvalue), rfl⟩
  · rintro ⟨name, value, hname, hvalue, rfl⟩
    have hname' : orStop (elementAt queryParts 0) = .ok name := orStop_eq_ok.mpr (elementAt_eq_ok.mpr hname)
    have hvalue' : orStop (elementAt queryParts 1) = .ok value := orStop_eq_ok.mpr (elementAt_eq_ok.mpr hvalue)
    rw [readTag, bind_ok hname', bind_ok hvalue']

/-- The binding is called with what has been gathered. -/
theorem answer_eq_calls {τ Call : Type} {call : τ → SortedMap Utf16 (List Utf16) → Call} {x : Except Stop (Gathered τ Utf16 Utf16)} {c : Call} :
    answer call x = .ok (.calls c) ↔ ∃ g mark, x = .ok g ∧ g.mark = some mark ∧ c = call mark g.pairs := by
  constructor
  · intro h
    cases x with
    | error stop => cases stop <;> cases h
    | ok g =>
      cases hmark : g.mark with
      | none =>
        simp only [answer, hmark] at h
        cases h
      | some mark =>
        simp only [answer, hmark] at h
        cases h
        exact ⟨g, mark, rfl, hmark, rfl⟩
  · rintro ⟨g, mark, rfl, hmark, rfl⟩
    simp only [answer, hmark]

end

/-- Properties for one series, with the default keys and delimiters. -/
def oneSeries : Properties :=
  { Properties.defaults with
    randomtimeseriesorder := false
    insertstart := .at ⟨1451606400, fitsLong_epoch⟩
    fieldcount := .of 1
    fieldlength := .of 1
    tagcount := .of 1
    tagkeylength := .of 1
    tagvaluelength := .of 1
    tagcardinality := [some (.of 1)] }

/-- Everything that is drawn is the first. -/
def firstDraws : QueryDraws := ⟨0, 0, 0, 0, 0, fun _ => 0, 0⟩

/-- A delimiter of one character. -/
theorem isDelimiter_singleton {c : UInt16} (h : ¬ IsLetter c ∧ ¬ IsNumeral c ∧ c ∉ metacharacters) : IsDelimiter [c] :=
  ⟨List.cons_ne_nil _ _, fun _ hc => List.mem_singleton.mp hc ▸ h⟩

theorem isDelimiter_equals : IsDelimiter [0x3D] := isDelimiter_singleton (by unfold IsLetter IsNumeral; decide)

theorem isDelimiter_colon : IsDelimiter [0x3A] := isDelimiter_singleton (by unfold IsLetter IsNumeral; decide)

theorem isDelimiter_comma : IsDelimiter [0x2C] := isDelimiter_singleton (by unfold IsLetter IsNumeral; decide)

end YcsbIvs.TimeSeries
