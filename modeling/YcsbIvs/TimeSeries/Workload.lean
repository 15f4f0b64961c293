import YcsbIvs.Foundations.Runs
import YcsbIvs.Generator.Hotspot
import YcsbIvs.Generator.PrintableStrings

/-!
# The time series workload

`TimeSeriesWorkload` writes points of time series. A series is a key and a value for each of some
tags; keys, tag keys and tag values are made up (`initKeysAndTags`). The first tags have the cardinalities
of the property `tagcardinality`, which is a list of any length; of the tags it leaves out only one gets the
cardinality 1, and the others keep 0.

`init` is of a new workload: `tagKeys` is null when the properties of a group-by are read, before the keys
and tags are made.

Properties come with their numbers parsed. Of `sparsity` and `delayedseries`, which are doubles, `Sparsity` and `DelayedSeries` say
what the workload computes with them; the fractions of a hotspot are exact.
-/

namespace YcsbIvs.TimeSeries

open YcsbIvs.Foundations YcsbIvs.Generator

/-! ### Properties -/

/-- `sparsity`. -/
structure Sparsity where
  /-- `sparsity <= 0`. -/
  nonPositive : Bool
  /-- `(int) ((double) n * sparsity)`. -/
  times : ℤ → ℤ

/-- `delayedSeries`. -/
structure DelayedSeries where
  /-- `delayedSeries > 0`. -/
  positive : Bool
  /-- `(double) overallIdx / (double) totalCardinality < delayedSeries`. -/
  above : ℤ → ℤ → Bool

/-- `ValueType`. -/
inductive ValueType where
  /-- `INTEGERS`. -/
  | integers
  /-- `FLOATS`. -/
  | floats
  /-- `MIXED`. -/
  | mixed
  deriving DecidableEq, Repr

/-- How the length of a scan is drawn. -/
inductive ScanLength where
  /-- `new UniformLongGenerator(1, maxscanlength)`. -/
  | uniform
  /-- `new ZipfianGenerator(1, maxscanlength)`. -/
  | zipfian
  deriving DecidableEq, Repr

/-- How the key of a read is drawn. -/
inductive KeyChooser where
  /-- `new UniformLongGenerator(0, numKeys - 1)`. -/
  | uniform
  /-- `new SequentialGenerator(0, numKeys - 1)`. -/
  | sequential
  /-- `new ScrambledZipfianGenerator(0, numKeys - 1)`. -/
  | zipfian
  /-- `new HotspotIntegerGenerator(0, numKeys - 1, hotsetfraction, hotopnfraction)`. -/
  | hotspot (hotsetfraction hotopnfraction : ℚ)
  deriving DecidableEq, Repr

/-- The property `insertstart`. -/
inductive InsertStart where
  /-- It is not set, or empty. -/
  | unset
  /-- It is not a number. -/
  | notANumber
  /-- It is a number of 64 bits. -/
  | at (startTimestamp : {n : ℤ // FitsLong n})
  deriving DecidableEq

/-- The properties, under their names. -/
structure Properties where
  recordcount : Word
  timestampkey : Utf16
  valuekey : Utf16
  maxscanlength : Word
  /-- `none` for another distribution. -/
  scanlengthdistribution : Option ScanLength
  randomwritetimestamporder : Bool
  randomtimeseriesorder : Bool
  fieldcount : Word
  tagcount : Word
  sparsity : Sparsity
  /-- `none` for another distribution. -/
  requestdistribution : Option KeyChooser
  /-- `none` if it is not a number. -/
  timestampinterval : Option Word
  /-- `none` for another unit. -/
  timestampunits : Option TimeUnit
  tagpairdelimiter : Utf16
  deletedelimiter : Utf16
  dataintegrity : Bool
  querytimespan : Word
  queryrandomtimespan : Bool
  querytimespandelimiter : Utf16
  groupbykey : Utf16
  /-- `none` if it is not set. -/
  groupbyfunction : Option Utf16
  /-- `none` if it is not set. -/
  groupbykeys : Option Utf16
  downsamplingkey : Utf16
  /-- `none` if it is not set. -/
  downsamplingfunction : Option Utf16
  /-- `none` if it is not set, or empty. -/
  downsamplinginterval : Option Word
  delayedseries : DelayedSeries
  delayedintervals : Word
  /-- `none` for another type. -/
  valuetype : Option ValueType
  fieldlength : Word
  tagkeylength : Word
  tagvaluelength : Word
  threadcount : Word
  /-- The parts between the commas, `none` for one that is not a number. -/
  tagcardinality : List (Option Word)
  insertstart : InsertStart

/-- The properties where none is set. -/
def Properties.defaults : Properties where
  recordcount := .of 0
  timestampkey := [0x59, 0x43, 0x53, 0x42, 0x54, 0x53]
  valuekey := [0x59, 0x43, 0x53, 0x42, 0x56]
  maxscanlength := .of 1000
  scanlengthdistribution := some .uniform
  randomwritetimestamporder := false
  randomtimeseriesorder := true
  fieldcount := .of 10
  tagcount := .of 4
  sparsity := ⟨true, fun _ => 0⟩
  requestdistribution := some .uniform
  timestampinterval := some (.of 60)
  timestampunits := some .seconds
  tagpairdelimiter := [0x3D]
  deletedelimiter := [0x3A]
  dataintegrity := false
  querytimespan := .of 0
  queryrandomtimespan := false
  querytimespandelimiter := [0x2C]
  groupbykey := [0x59, 0x43, 0x53, 0x42, 0x47, 0x42]
  groupbyfunction := none
  groupbykeys := none
  downsamplingkey := [0x59, 0x43, 0x53, 0x42, 0x44, 0x53]
  downsamplingfunction := none
  downsamplinginterval := none
  -- a tenth of the series, where the total is not zero
  delayedseries := ⟨true, fun a b => if 0 ≤ b then 10 * a < b else b < 10 * a⟩
  delayedintervals := .of 5
  valuetype := some .floats
  fieldlength := .of 100
  tagkeylength := .of 8
  tagvaluelength := .of 8
  threadcount := .of 1
  tagcardinality := [some (.of 1), some (.of 2), some (.of 4), some (.of 8)]
  insertstart := .unset

/-! ### The workload -/

/-- `TimeSeriesWorkload`, after `init`. -/
structure TimeSeriesWorkload where
  timestampKey : Utf16
  valueKey : Utf16
  timestampInterval : ℤ
  timeUnits : TimeUnit
  randomizeTimestampOrder : Bool
  randomizeTimeseriesOrder : Bool
  valueType : ValueType
  cumulativeCardinality : List ℤ
  totalCardinality : ℤ
  perKeyCardinality : ℤ
  scanlength : ScanLength
  maxscanlength : ℤ
  keychooser : KeyChooser
  maxOffsets : ℤ
  recordcount : ℤ
  tagPairs : ℕ
  keys : List Utf16
  tagKeys : List Utf16
  tagValues : List Utf16
  tagCardinality : List ℕ
  firstIncrementableCardinality : ℕ
  sparsity : Sparsity
  delayedSeries : DelayedSeries
  delayedIntervals : ℤ
  queryTimeSpan : ℤ
  queryRandomTimeSpan : Bool
  tagPairDelimiter : Utf16
  deleteDelimiter : Utf16
  queryTimeSpanDelimiter : Utf16
  groupBy : Bool
  groupByKey : Utf16
  groupByFunction : Option Utf16
  groupBys : List Bool
  downsample : Bool
  downsampleKey : Utf16
  downsampleFunction : Option Utf16
  downsampleInterval : ℤ
  dataintegrity : Bool
  /-- `properties.getProperty("insertstart")`. -/
  insertstart : InsertStart

/-- What `init` throws. -/
inductive InitError where
  /-- `WorkloadException`: the distribution is not allowed for scan length. -/
  | scanLengthDistribution
  /-- `WorkloadException`: the request distribution is unknown. -/
  | requestDistribution
  /-- `WorkloadException`: the timestamp interval is not a number. -/
  | timestampInterval
  /-- `WorkloadException`: the time unit is unknown. -/
  | timeUnit
  /-- `WorkloadException`: the time unit is not supported. -/
  | unsupportedTimeUnit (timeUnits : TimeUnit)
  /-- `WorkloadException`: group by was enabled but no keys were specified. -/
  | noGroupByKeys
  /-- `WorkloadException`: the downsampling interval is missing. -/
  | noDownsamplingInterval
  /-- `WorkloadException`: a cardinality is not a number. -/
  | cardinality
  /-- `WorkloadException`: a cardinality is less than one. -/
  | cardinalityNotPositive (card : ℤ)
  /-- `WorkloadException`: there are more threads than keys. -/
  | fewerKeysThanThreads
  /-- `WorkloadException` of `validateSettings`, with the property that is wrong. -/
  | notWithDataIntegrity (property : String)
  /-- `WorkloadException` of the constructor of `ThreadState`: `insertstart` is not a number. -/
  | insertStart
  /-- `WorkloadException` of the constructor of `ThreadState`: there are more threads than keys. -/
  | threadCount
  /-- Another exception. -/
  | thrown (t : Thrown)
  deriving DecidableEq

/-- An exception that is not a `WorkloadException`. -/
def rethrow {α : Type} (x : Except Thrown α) : Except InitError α := x.mapError .thrown

theorem rethrow_eq_ok {α : Type} {x : Except Thrown α} {a : α} (h : rethrow x = .ok a) : x = .ok a := by
  cases x with
  | error e => cases h
  | ok b =>
    cases h
    rfl

/-! ### Keys and tags -/

/-- The loop over `tagCardinalityParts`. -/
structure Cardinalities where
  /-- `tagCardinality`. -/
  tagCardinality : List ℕ
  /-- `totalCardinality`. -/
  totalCardinality : ℤ
  /-- `perKeyCardinality`. -/
  perKeyCardinality : ℤ
  /-- `maxCardinality`. -/
  maxCardinality : ℕ
  /-- `idx`. -/
  idx : ℕ

/-- The loop over `tagCardinalityParts`: a cardinality is written at `idx`, until there are as many as tags. -/
def parseCardinalities (tagPairs : ℕ) : List (Option Word) → Cardinalities → Except InitError Cardinalities
  | [], c => .ok c
  | card :: parts, c =>
    match card with
    | none => .error .cardinality
    | some card =>
      if tagPairs ≤ c.idx then .error (.thrown .arrayIndexOutOfBounds)
      else if card.val < 1 then .error (.cardinalityNotPositive card.val)
      else
        let c : Cardinalities :=
          { tagCardinality := c.tagCardinality.set c.idx card.val.toNat
            totalCardinality := asInt (c.totalCardinality * card.val)
            perKeyCardinality := asInt (c.perKeyCardinality * card.val)
            maxCardinality := max c.maxCardinality card.val.toNat
            idx := c.idx + 1 }
        if tagPairs ≤ c.idx then .ok c else parseCardinalities tagPairs parts c

/-- One tag without an explicit cardinality gets 1. -/
def fillCardinality (tagPairs : ℕ) (c : Cardinalities) : List ℕ :=
  if c.idx < tagPairs then c.tagCardinality.set c.idx 1 else c.tagCardinality

/-- `firstIncrementableCardinality`: the first tag whose cardinality is greater than 1, else 0. -/
def firstIncrementable (tagCardinality : List ℕ) : ℕ := ((tagCardinality.findIdx? fun card => decide (1 < card))).getD 0

/-- The inner loop over `keyAndTagCardinality`. -/
def cumulation (cards : List ℤ) : ℤ := cards.foldl (fun cumulation card => asInt (cumulation * card)) 1

/-- `cumulativeCardinality`: for each place the product of the cardinalities after it. -/
def cumulate : List ℤ → List ℤ
  | [] => []
  | [_] => [1]
  | _ :: cards => cumulation cards :: cumulate cards

theorem length_cumulate (cards : List ℤ) : (cumulate cards).length = cards.length := by
  induction cards using cumulate.induct with
  | case1 => rfl
  | case2 => rfl
  | case3 card cards hne ih =>
    rw [cumulate, List.length_cons, List.length_cons, ih]
    exact hne

/-- The orders arrays are shuffled into. -/
structure Shuffles where
  /-- The order of `keys`. -/
  keys : List Utf16 → List Utf16
  /-- The keys stay the same. -/
  keys_perm : ∀ l, (keys l).Perm l
  /-- The order of `tagValues`. -/
  tagValues : List Utf16 → List Utf16
  /-- The values stay the same. -/
  tagValues_perm : ∀ l, (tagValues l).Perm l

theorem id_perm (l : List Utf16) : (id l).Perm l := .rfl

/-- Arrays that are shuffled into the order they have. -/
def noShuffles : Shuffles := ⟨id, id_perm, id, id_perm⟩

/-- An array, shuffled if `randomize` is set. -/
def shuffleIf (randomize : Bool) (shuffle : List Utf16 → List Utf16) (l : List Utf16) : List Utf16 :=
  if randomize then shuffle l else l

/-- What `initKeysAndTags` sets. -/
structure KeysAndTags where
  totalCardinality : ℤ
  perKeyCardinality : ℤ
  tagCardinality : List ℕ
  firstIncrementableCardinality : ℕ
  keys : List Utf16
  tagKeys : List Utf16
  tagValues : List Utf16
  maxOffsets : ℤ
  cumulativeCardinality : List ℤ

/-- `new IncrementingPrintableStringGenerator(length)`. -/
def newStringGenerator (length : ℤ) : Except InitError (List (Fin 52)) :=
  if length < 1 then .error (.thrown .illegalArgument) else .ok (newIndices length.toNat)

/-- `initKeysAndTags()`. -/
def initKeysAndTags (p : Properties) (shuffles : Shuffles) (recordcount : ℤ) : Except InitError KeysAndTags := do
  let tagPairs := p.tagcount.val.toNat
  let keyGenerator ← newStringGenerator p.fieldlength
  let tagKeyGenerator ← newStringGenerator p.tagkeylength
  let tagValueGenerator ← newStringGenerator p.tagvaluelength
  let c ← parseCardinalities tagPairs p.tagcardinality
    { tagCardinality := List.replicate tagPairs 0
      totalCardinality := p.fieldcount
      perKeyCardinality := 1
      maxCardinality := 0
      idx := 0 }
  if p.fieldcount.val < p.threadcount.val then .error .fewerKeysThanThreads
  else if p.fieldcount.val < 0 then .error (.thrown .negativeArraySize)
  else do
    let tagCardinality := fillCardinality tagPairs c
    let keys := nextStrings p.fieldcount.val.toNat keyGenerator
    let tagValues := nextStrings c.maxCardinality tagValueGenerator
    let offsets ← rethrow (divide recordcount c.totalCardinality)
    -- `keyAndTagCardinality` has one more element than there are tags
    if asInt (tagPairs + 1) < 0 then .error (.thrown .negativeArraySize)
    else
      .ok
        { totalCardinality := c.totalCardinality
          perKeyCardinality := c.perKeyCardinality
          tagCardinality := tagCardinality
          firstIncrementableCardinality := firstIncrementable tagCardinality
          keys := shuffleIf p.randomtimeseriesorder shuffles.keys keys
          tagKeys := nextStrings tagPairs tagKeyGenerator
          tagValues := shuffleIf p.randomtimeseriesorder shuffles.tagValues tagValues
          maxOffsets := asInt (offsets + 1)
          cumulativeCardinality := cumulate (p.fieldcount.val :: tagCardinality.map Int.ofNat) }

/-! ### Settings -/

/-- `Integer.MAX_VALUE`. -/
def maxInt : ℤ := 2 ^ 31 - 1

/-- `validateSettings()`. -/
def validateSettings (w : TimeSeriesWorkload) : Except InitError Unit :=
  if w.dataintegrity then
    if w.valueType ≠ .integers then .error (.notWithDataIntegrity "valuetype")
    else if w.groupBy then .error (.notWithDataIntegrity "groupbyfunction")
    else if w.downsample then .error (.notWithDataIntegrity "downsamplingfunction")
    else if 0 < w.queryTimeSpan then .error (.notWithDataIntegrity "querytimespan")
    else if w.randomizeTimeseriesOrder then .error (.notWithDataIntegrity "randomizetimeseriesorder")
    else if w.insertstart = .unset then .error (.notWithDataIntegrity "insertstart")
    else .ok ()
  else .ok ()

/-- A string property that is set, and not empty. -/
def isSet : Option Utf16 → Bool
  | none => false
  | some s => !s.isEmpty

/-- The part of `init` about group-by. It is over when the number of the keys is compared to that
of `tagKeys`, which is null. -/
def initGroupBy (p : Properties) : Except InitError Unit :=
  if isSet p.groupbyfunction then
    if isSet p.groupbykeys then .error (.thrown .nullPointer) else .error .noGroupByKeys
  else .ok ()

/-- The part of `init` about downsampling: whether it is on, and `downsampleInterval`. -/
def initDownsampling (p : Properties) : Except InitError (Bool × ℤ) :=
  if isSet p.downsamplingfunction then
    match p.downsamplinginterval with
    | none => .error .noDownsamplingInterval
    | some interval => .ok (true, interval)
  else .ok (false, 0)

/-- A property that has to have one of the values that are known. -/
def known {α : Type} (error : InitError) : Option α → Except InitError α
  | none => .error error
  | some a => .ok a

/-- The time unit of the timestamps. -/
def initTimeUnits (p : Properties) : Except InitError TimeUnit := do
  let timeUnits ← known .timeUnit p.timestampunits
  if timeUnits = .nanoseconds ∨ timeUnits = .microseconds then .error (.unsupportedTimeUnit timeUnits)
  else .ok timeUnits

/-- `init(p)`. -/
def init (p : Properties) (shuffles : Shuffles) : Except InitError TimeSeriesWorkload := do
  let recordcount := if p.recordcount.val = 0 then maxInt else p.recordcount.val
  let scanlength ← known .scanLengthDistribution p.scanlengthdistribution
  if p.tagcount.val < 0 then .error (.thrown .negativeArraySize) else
  let keychooser ← known .requestDistribution p.requestdistribution
  let timestampInterval ← known .timestampInterval p.timestampinterval
  let timeUnits ← initTimeUnits p
  initGroupBy p
  let (downsample, downsampleInterval) ← initDownsampling p
  let valueType ← known (.thrown .illegalArgument) p.valuetype
  let k ← initKeysAndTags p shuffles recordcount
  let w : TimeSeriesWorkload :=
    { timestampKey := p.timestampkey
      valueKey := p.valuekey
      timestampInterval := timestampInterval
      timeUnits := timeUnits
      randomizeTimestampOrder := p.randomwritetimestamporder
      randomizeTimeseriesOrder := p.randomtimeseriesorder
      valueType := valueType
      cumulativeCardinality := k.cumulativeCardinality
      totalCardinality := k.totalCardinality
      perKeyCardinality := k.perKeyCardinality
      scanlength := scanlength
      maxscanlength := p.maxscanlength
      keychooser := keychooser
      maxOffsets := k.maxOffsets
      recordcount := recordcount
      tagPairs := p.tagcount.val.toNat
      keys := k.keys
      tagKeys := k.tagKeys
      tagValues := k.tagValues
      tagCardinality := k.tagCardinality
      firstIncrementableCardinality := k.firstIncrementableCardinality
      sparsity := p.sparsity
      delayedSeries := p.delayedseries
      delayedIntervals := p.delayedintervals
      queryTimeSpan := p.querytimespan
      queryRandomTimeSpan := p.queryrandomtimespan
      tagPairDelimiter := p.tagpairdelimiter
      deleteDelimiter := p.deletedelimiter
      queryTimeSpanDelimiter := p.querytimespandelimiter
      groupBy := false
      groupByKey := p.groupbykey
      groupByFunction := p.groupbyfunction
      groupBys := []
      downsample := downsample
      downsampleKey := p.downsamplingkey
      downsampleFunction := p.downsamplingfunction
      downsampleInterval := downsampleInterval
      dataintegrity := p.dataintegrity
      insertstart := p.insertstart }
  validateSettings w
  .ok w

/-! ### What `init` leaves -/

/-- The cardinalities that have been read are at most the greatest. -/
theorem parseCardinalities_spec {tagPairs : ℕ} {parts : List (Option Word)} {c c' : Cardinalities}
    (h : parseCardinalities tagPairs parts c = .ok c') (hle : ∀ card ∈ c.tagCardinality, card ≤ c.maxCardinality) :
    c'.tagCardinality.length = c.tagCardinality.length ∧ ∀ card ∈ c'.tagCardinality, card ≤ c'.maxCardinality := by
  induction parts generalizing c with
  | nil =>
    cases h
    exact ⟨rfl, hle⟩
  | cons card parts ih =>
    cases card with
    | none => cases h
    | some card =>
      rw [parseCardinalities] at h
      have hset : ∀ a ∈ c.tagCardinality.set c.idx card.val.toNat, a ≤ max c.maxCardinality card.val.toNat := by
        intro a ha
        rcases List.mem_or_eq_of_mem_set ha with hmem | rfl
        · exact (hle a hmem).trans (le_max_left _ _)
        · exact le_max_right _ _
      split_ifs at h with hidx hpos
      dsimp only at h
      split_ifs at h with hlast
      · cases h
        exact ⟨List.length_set, hset⟩
      · obtain ⟨hlen, hmax⟩ := ih h hset
        exact ⟨hlen.trans List.length_set, hmax⟩

/-- Without a key there are no series, and no cardinality makes some. -/
theorem parseCardinalities_zero {tagPairs : ℕ} {parts : List (Option Word)} {c c' : Cardinalities}
    (h : parseCardinalities tagPairs parts c = .ok c') (hzero : c.totalCardinality = 0) : c'.totalCardinality = 0 := by
  induction parts generalizing c with
  | nil =>
    cases h
    exact hzero
  | cons card parts ih =>
    cases card with
    | none => cases h
    | some card =>
      have hproduct : asInt (c.totalCardinality * card.val) = 0 := by
        rw [hzero, zero_mul]
        rfl
      rw [parseCardinalities] at h
      split_ifs at h with hidx hpos
      dsimp only at h
      split_ifs at h with hlast
      · cases h
        exact hproduct
      · exact ih h hproduct

/-- The numbers and arrays of a workload fit together. -/
structure Accepted (w : TimeSeriesWorkload) : Prop where
  /-- There is a key. -/
  keys_pos : 0 < w.keys.length
  /-- There are no more keys than an array has room for. -/
  length_keys : (w.keys.length : ℤ) < 2 ^ 31
  /-- Each tag has a cardinality. -/
  length_tagCardinality : w.tagCardinality.length = w.tagPairs
  /-- Each has a key. -/
  length_tagKeys : w.tagKeys.length = w.tagPairs
  /-- The tag whose turn ends that of the key is known. -/
  firstIncrementable_eq : w.firstIncrementableCardinality = firstIncrementable w.tagCardinality
  /-- The weights of a series are those of its key and tags. -/
  cumulate_eq : w.cumulativeCardinality = cumulate ((w.keys.length : ℤ) :: w.tagCardinality.map Int.ofNat)
  /-- There is a value for each number below a cardinality, but for the 1 that is filled in. -/
  card_le : ∀ card ∈ w.tagCardinality, card ≤ max 1 w.tagValues.length
  /-- The keys of the tags are words. -/
  isWord_tagKeys : ∀ s ∈ w.tagKeys, IsWord s
  /-- So are their values. -/
  isWord_tagValues : ∀ s ∈ w.tagValues, IsWord s
  /-- There is no group-by. -/
  groupBy_eq : w.groupBy = false
  /-- Downsampling has a function. -/
  downsample_isSet : w.downsample = isSet w.downsampleFunction
  /-- The settings have been validated. -/
  valid : validateSettings w = .ok ()

theorem newStringGenerator_inv {length : ℤ} {g : List (Fin 52)} (h : newStringGenerator length = .ok g) : g ≠ [] := by
  rw [newStringGenerator] at h
  split_ifs at h with hlt
  cases h
  rw [newIndices, ne_eq, List.replicate_eq_nil_iff]
  omega

/-- A shuffle keeps the members. -/
theorem perm_shuffleIf {randomize : Bool} {shuffle : List Utf16 → List Utf16} (h : ∀ l, (shuffle l).Perm l) (l : List Utf16) :
    (shuffleIf randomize shuffle l).Perm l := by
  rw [shuffleIf]
  split_ifs
  · exact h l
  · exact .rfl

theorem fillCardinality_spec {tagPairs : ℕ} {c : Cardinalities} (hlen : c.tagCardinality.length = tagPairs)
    (hmax : ∀ card ∈ c.tagCardinality, card ≤ c.maxCardinality) :
    (fillCardinality tagPairs c).length = tagPairs ∧ ∀ card ∈ fillCardinality tagPairs c, card ≤ max 1 c.maxCardinality := by
  rw [fillCardinality]
  split_ifs with hidx
  · refine ⟨List.length_set.trans hlen, fun card hcard => ?_⟩
    rcases List.mem_or_eq_of_mem_set hcard with hmem | rfl
    · exact (hmax card hmem).trans (le_max_right _ _)
    · exact le_max_left _ _
  · exact ⟨hlen, fun card hcard => (hmax card hcard).trans (le_max_right _ _)⟩

/-- What `initKeysAndTags` sets fits together. -/
theorem initKeysAndTags_spec {p : Properties} {shuffles : Shuffles} {recordcount : ℤ} {k : KeysAndTags}
    (h : initKeysAndTags p shuffles recordcount = .ok k) :
    0 < k.keys.length ∧ (k.keys.length : ℤ) < 2 ^ 31 ∧ k.tagCardinality.length = p.tagcount.val.toNat ∧ k.tagKeys.length = p.tagcount.val.toNat ∧
      k.firstIncrementableCardinality = firstIncrementable k.tagCardinality ∧
      k.cumulativeCardinality = cumulate ((k.keys.length : ℤ) :: k.tagCardinality.map Int.ofNat) ∧
      (∀ card ∈ k.tagCardinality, card ≤ max 1 k.tagValues.length) ∧
      (∀ s ∈ k.tagKeys, IsWord s) ∧ ∀ s ∈ k.tagValues, IsWord s := by
  obtain ⟨g₁, hg₁, h⟩ := bind_inv h
  obtain ⟨g₂, hg₂, h⟩ := bind_inv h
  obtain ⟨g₃, hg₃, h⟩ := bind_inv h
  obtain ⟨c, hc, h⟩ := bind_inv h
  obtain ⟨hlen, hmax⟩ := parseCardinalities_spec hc (by simp)
  rw [List.length_replicate] at hlen
  by_cases hthreads : p.fieldcount.val < p.threadcount.val
  · rw [if_pos hthreads] at h
    cases h
  by_cases hneg : p.fieldcount.val < 0
  · rw [if_neg hthreads, if_pos hneg] at h
    cases h
  rw [if_neg hthreads, if_neg hneg] at h
  obtain ⟨offsets, hoffsets, h⟩ := bind_inv h
  by_cases hlong : asInt (p.tagcount.val.toNat + 1) < 0
  · rw [if_pos hlong] at h
    cases h
  rw [if_neg hlong] at h
  cases h
  -- the number of all series is what the number of records is divided by
  have hpos : p.fieldcount.val ≠ 0 := by
    intro hzero
    rw [divide, if_pos (parseCardinalities_zero hc hzero)] at hoffsets
    cases hoffsets
  have hkeys : (shuffleIf p.randomtimeseriesorder shuffles.keys (nextStrings p.fieldcount.val.toNat g₁)).length = p.fieldcount.val.toNat :=
    (perm_shuffleIf shuffles.keys_perm _).length_eq.trans (length_nextStrings _ _)
  have hvalues : (shuffleIf p.randomtimeseriesorder shuffles.tagValues (nextStrings c.maxCardinality g₃)).Perm _ :=
    perm_shuffleIf shuffles.tagValues_perm _
  refine ⟨?_, ?_, (fillCardinality_spec hlen hmax).1, length_nextStrings _ _, rfl, ?_, ?_,
    fun s hs => isWord_nextStrings (newStringGenerator_inv hg₂) hs, ?_⟩
  · dsimp only
    rw [hkeys]
    omega
  · dsimp only
    rw [hkeys, Int.toNat_of_nonneg (by omega)]
    exact p.fieldcount.2.2
  · dsimp only
    rw [hkeys, Int.toNat_of_nonneg (by omega)]
  · dsimp only
    rw [hvalues.length_eq, length_nextStrings]
    exact (fillCardinality_spec hlen hmax).2
  · intro s hs
    exact isWord_nextStrings (newStringGenerator_inv hg₃) (hvalues.mem_iff.mp hs)

theorem initDownsampling_spec {p : Properties} {d : Bool × ℤ} (h : initDownsampling p = .ok d) :
    d.1 = isSet p.downsamplingfunction := by
  rw [initDownsampling] at h
  split_ifs at h with hset
  · split at h
    · cases h
    · cases h
      exact hset.symm
  · cases h
    exact (Bool.not_eq_true _ ▸ hset).symm

theorem init_spec {p : Properties} {shuffles : Shuffles} {w : TimeSeriesWorkload} (h : init p shuffles = .ok w) :
    Accepted w ∧ FitsInt w.maxscanlength ∧ FitsInt w.timestampInterval := by
  rw [init] at h
  dsimp only at h
  obtain ⟨scanlength, -, h⟩ := bind_inv h
  by_cases hneg : p.tagcount.val < 0
  · rw [if_pos hneg] at h
    cases h
  rw [if_neg hneg] at h
  obtain ⟨keychooser, -, h⟩ := bind_inv h
  obtain ⟨timestampInterval, -, h⟩ := bind_inv h
  obtain ⟨timeUnits, -, h⟩ := bind_inv h
  obtain ⟨-, -, h⟩ := bind_inv h
  obtain ⟨d, hd, h⟩ := bind_inv h
  obtain ⟨valueType, -, h⟩ := bind_inv h
  obtain ⟨k, hk, h⟩ := bind_inv h
  obtain ⟨valid, hvalid, h⟩ := bind_inv h
  cases h
  obtain ⟨hpos, hlen, hcards, htagKeys, hfirst, hcum, hle, hwords, hwords'⟩ := initKeysAndTags_spec hk
  exact ⟨⟨hpos, hlen, hcards, htagKeys, hfirst, hcum, hle, hwords, hwords', rfl, initDownsampling_spec hd, hvalid⟩, p.maxscanlength.2,
    timestampInterval.2⟩

/-- **A workload that has been initialised fits together**. -/
theorem init_accepted {p : Properties} {shuffles : Shuffles} {w : TimeSeriesWorkload} (h : init p shuffles = .ok w) : Accepted w :=
  (init_spec h).1

/-- The greatest length of a scan is a number of 32 bits. -/
theorem fitsInt_maxscanlength {p : Properties} {shuffles : Shuffles} {w : TimeSeriesWorkload} (h : init p shuffles = .ok w) :
    FitsInt w.maxscanlength := (init_spec h).2.1

/-- So is the interval of the timestamps. -/
theorem fitsInt_timestampInterval {p : Properties} {shuffles : Shuffles} {w : TimeSeriesWorkload} (h : init p shuffles = .ok w) :
    FitsInt w.timestampInterval := (init_spec h).2.2

end YcsbIvs.TimeSeries
