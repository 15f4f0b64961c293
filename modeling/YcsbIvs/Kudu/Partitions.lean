import YcsbIvs.Workloads.KeyNames

/-!
# The Kudu binding: partitions

`setupTable` splits the keys of the table into one range for each tablet. The numbers of records that are left over when they are divided among the
tablets go to the first tablets, one to each: but how many they are is computed from `(int) recordCount`, as a cast binds tighter than `%`.

**The ranges are contiguous, disjoint, of one size but for one key, and cover the keys of the records** just if this number is right, or both
are none (`splits_iff`): so for every number of records that fits in an `int`.
-/

namespace YcsbIvs.Kudu

open YcsbIvs.Foundations YcsbIvs.Workloads

/-- `kudu_partition_schema`. -/
inductive PartitionSchema where
  /-- `hashPartition`. -/
  | hash
  /-- `rangePartition`. -/
  | range
  /-- Anything else. -/
  | other
  deriving DecidableEq

/-- The settings that partition a table. -/
structure Settings where
  /-- `kudu_pre_split_num_tablets`. -/
  numTablets : ℤ
  /-- `recordcount`, parsed as a `long`. -/
  recordCount : ℤ
  /-- `zeropadding`. -/
  zeropadding : ℤ
  /-- `insertorder` is not `hashed`. -/
  orderedinserts : Bool
  /-- `partitionSchema`. -/
  partitionSchema : PartitionSchema

/-- What `setupTable` throws. -/
inductive SetupError where
  /-- "Specified number of tablets must be equal or below 9000". -/
  | tooManyTablets
  /-- "Must specify `insertorder=ordered` if using rangePartition schema." -/
  | notOrdered
  /-- "Invalid zeropadding value". -/
  | zeropadding
  /-- "Invalid partition_schema specified". -/
  | partitionSchema
  /-- `ArithmeticException`: there are no tablets to divide by. -/
  | arithmetic
  deriving DecidableEq

/-- A range partition: its bounds, and the numbers they are the keys of. -/
structure RangePartition where
  /-- `lowerNum`. -/
  lowerNum : ℤ
  /-- `upperNum`. -/
  upperNum : ℤ
  /-- `lower`. -/
  lower : Utf16
  /-- `upper`. -/
  upper : Utf16

/-- What a table is created with. -/
inductive Partitioning where
  /-- `addHashPartitions`. -/
  | hash (numTablets : ℤ)
  /-- `addRangePartition`, for each. -/
  | range (partitions : List RangePartition)

/-- The loop that adds range partitions, from the `i`-th on. -/
def rangeLoop (settings : Settings) (recordCount remainder : ℤ) : ℕ → ℤ → ℤ → List RangePartition
  | 0, _, _ => []
  | rounds + 1, i, upperNum =>
    let lowerNum := upperNum
    let upperNum := asLong (lowerNum + recordCount.tdiv settings.numTablets)
    let upperNum := if i < remainder then asLong (upperNum + 1) else upperNum
    ⟨lowerNum, upperNum, buildKeyName lowerNum settings.zeropadding settings.orderedinserts,
      buildKeyName upperNum settings.zeropadding settings.orderedinserts⟩ ::
        rangeLoop settings recordCount remainder rounds (i + 1) upperNum

/-- `setupTable()`, as far as it partitions the table. -/
def setupTable (settings : Settings) : Except SetupError Partitioning :=
  if settings.numTablets > 9000 then .error .tooManyTablets
  else
    let recordCount := if settings.recordCount = 0 then 2 ^ 31 - 1 else settings.recordCount
    match settings.partitionSchema with
    | .hash => .ok (.hash settings.numTablets)
    | .range =>
      if !settings.orderedinserts then .error .notOrdered
      else if settings.zeropadding < (longToString recordCount).length then .error .zeropadding
      else if settings.numTablets = 0 then .error .arithmetic
      else
        -- `(int) recordCount % numTablets`
        let remainder := (asInt recordCount).tmod settings.numTablets
        .ok (.range (rangeLoop settings recordCount remainder settings.numTablets.toNat 0 0))
    | .other => .error .partitionSchema

/-- The partitions split the keys of so many records. -/
structure Splits (settings : Settings) (partitions : List RangePartition) : Prop where
  /-- Each begins where the one before ends. -/
  contiguous : ∀ i p q, partitions[i]? = some p → partitions[i + 1]? = some q → p.upperNum = q.lowerNum
  /-- They are disjoint. -/
  disjoint : partitions.Pairwise fun p q => p.upperNum ≤ q.lowerNum
  /-- They cover the numbers of the records. -/
  covers : ∀ k, (∃ p ∈ partitions, p.lowerNum ≤ k ∧ k < p.upperNum) ↔ 0 ≤ k ∧ k < settings.recordCount
  /-- They are of one size, but for one key. -/
  sizes : ∀ p ∈ partitions, ∀ q ∈ partitions, p.upperNum - p.lowerNum ≤ q.upperNum - q.lowerNum + 1
  /-- The key of a number, padded as all are, is in the range that the number is in. -/
  keys : ∀ p ∈ partitions, ∀ k, 0 ≤ k → (longToString k).length ≤ settings.zeropadding →
    ((p.lower ≤ buildKeyName k settings.zeropadding settings.orderedinserts ∧
      buildKeyName k settings.zeropadding settings.orderedinserts < p.upper) ↔ p.lowerNum ≤ k ∧ k < p.upperNum)

section

variable {settings : Settings} {partitions : List RangePartition}

/-- Where the `i`-th range begins: the first so many of the ranges have one key more. -/
def bound (size extra i : ℤ) : ℤ := i * size + min i extra

theorem bound_succ (size extra i : ℤ) : bound size extra (i + 1) = bound size extra i + size + if i < extra then 1 else 0 := by
  unfold bound
  rw [Int.add_mul, Int.one_mul]
  split_ifs <;> omega

theorem bound_mono {size : ℤ} (hsize : 0 ≤ size) (extra : ℤ) {i j : ℤ} (hij : i ≤ j) : bound size extra i ≤ bound size extra j := by
  have hmul := Int.mul_le_mul_of_nonneg_right hij hsize
  unfold bound
  omega

/-- Ranges that follow each other cover what is between the first and the last bound. -/
theorem exists_between_iff {f : ℕ → ℤ} (hf : ∀ i j, i ≤ j → f i ≤ f j) {n : ℕ} {k : ℤ} : (∃ j < n, f j ≤ k ∧ k < f (j + 1)) ↔ f 0 ≤ k ∧ k < f n := by
  constructor
  · rintro ⟨j, hj, hle, hlt⟩
    exact ⟨(hf 0 j (Nat.zero_le j)).trans hle, hlt.trans_le (hf (j + 1) n hj)⟩
  · rintro ⟨hle, hlt⟩
    induction n with
    | zero => omega
    | succ n ih =>
      by_cases hn : k < f n
      · obtain ⟨j, hj, hin⟩ := ih hn
        exact ⟨j, by omega, hin⟩
      · exact ⟨n, Nat.lt_succ_self n, not_lt.mp hn, hlt⟩

/-- The range between two numbers. -/
def Settings.partition (settings : Settings) (lowerNum upperNum : ℤ) : RangePartition :=
  ⟨lowerNum, upperNum, buildKeyName lowerNum settings.zeropadding settings.orderedinserts,
    buildKeyName upperNum settings.zeropadding settings.orderedinserts⟩

/-- The loop adds the ranges between the bounds. -/
theorem rangeLoop_eq {recordCount remainder size extra : ℤ} (hsize : recordCount.tdiv settings.numTablets = size) (hnonneg : 0 ≤ size)
    (hextra : max 0 remainder = extra) {rounds : ℕ} {i : ℤ} (hi : 0 ≤ i) (hlast : bound size extra (i + rounds) < 2 ^ 63) :
    rangeLoop settings recordCount remainder rounds i (bound size extra i) =
      (List.range rounds).map fun j : ℕ => settings.partition (bound size extra (i + j)) (bound size extra (i + j + 1)) := by
  induction rounds generalizing i with
  | zero => rfl
  | succ rounds ih =>
    -- no bound overflows
    have hfirst : bound size extra 0 ≤ bound size extra i := bound_mono hnonneg extra hi
    have hzero : bound size extra 0 = 0 := by
      unfold bound
      omega
    have hnext : bound size extra (i + 1) ≤ bound size extra (i + (rounds + 1 : ℕ)) := bound_mono hnonneg extra (by push_cast; omega)
    have hsucc := bound_succ size extra i
    have hupper : (if i < remainder then asLong (asLong (bound size extra i + size) + 1) else asLong (bound size extra i + size)) =
        bound size extra (i + 1) := by
      unfold asLong
      split_ifs at hsucc ⊢ <;> omega
    have hrest : i + 1 + (rounds : ℤ) = i + (rounds + 1 : ℕ) := by
      push_cast
      omega
    rw [rangeLoop, hsize, hupper, ih (by omega) (hrest ▸ hlast), List.range_succ_eq_map, List.map_cons, List.map_map, Int.natCast_zero, Int.add_zero]
    refine congrArg _ (List.map_congr_left fun j _ => ?_)
    have hj : i + 1 + (j : ℤ) = i + (j + 1 : ℕ) := by
      push_cast
      omega
    simp only [Function.comp, hj]

/-- How many ranges have one key more than the others. -/
def Settings.extra (settings : Settings) : ℤ := max 0 ((asInt settings.recordCount).tmod settings.numTablets)

/-- The bounds of the ranges. -/
def Settings.bound (settings : Settings) : ℤ → ℤ := Kudu.bound (settings.recordCount / settings.numTablets) settings.extra

@[simp] theorem bound_zero : settings.bound 0 = 0 := by
  unfold Settings.bound bound Settings.extra
  omega

/-- Where `setupTable` adds ranges, the settings have passed its checks. -/
theorem setupTable_range (hset : setupTable settings = .ok (.range partitions)) (hcount : 1 ≤ settings.recordCount) :
    settings.numTablets ≤ 9000 ∧ settings.orderedinserts = true ∧ (longToString settings.recordCount).length ≤ settings.zeropadding ∧
      partitions = rangeLoop settings settings.recordCount ((asInt settings.recordCount).tmod settings.numTablets)
        settings.numTablets.toNat 0 0 := by
  rw [setupTable, if_neg (show settings.recordCount ≠ 0 by omega)] at hset
  cases hschema : settings.partitionSchema with
  | hash =>
    rw [hschema] at hset
    dsimp only at hset
    split_ifs at hset
    cases hset
  | other =>
    rw [hschema] at hset
    dsimp only at hset
    split_ifs at hset
  | range =>
    rw [hschema] at hset
    dsimp only at hset
    split_ifs at hset with hmany hordered hpadding hnone
    cases hset
    exact ⟨not_lt.mp hmany, by simpa using hordered, not_lt.mp hpadding, rfl⟩

/-- The last bound does not overflow: where there is something left over the number of records is not among the last. -/
theorem bound_numTablets_lt (hcount : 1 ≤ settings.recordCount) (hfits : FitsLong settings.recordCount) (htablets : 1 ≤ settings.numTablets)
    (hmany : settings.numTablets ≤ 9000) : settings.bound settings.numTablets < 2 ^ 63 := by
  have hmul : settings.numTablets * (settings.recordCount / settings.numTablets) ≤ settings.recordCount :=
    Int.mul_ediv_self_le (by omega)
  have hextra : settings.extra ≤ 9000 ∧ (0 < settings.extra → 0 < asInt settings.recordCount) := by
    unfold Settings.extra
    rcases le_or_gt (asInt settings.recordCount) 0 with hle | hgt
    · have hneg := Int.tmod_nonneg settings.numTablets (show 0 ≤ -asInt settings.recordCount by omega)
      rw [Int.neg_tmod] at hneg
      omega
    · have := Int.tmod_lt_of_pos (asInt settings.recordCount) (show 0 < settings.numTablets by omega)
      omega
  have hbound : settings.bound settings.numTablets ≤ settings.recordCount + settings.extra := by
    unfold Settings.bound bound
    omega
  obtain ⟨hsmall, hpos⟩ := hextra
  unfold FitsLong asInt at *
  omega

/-- They are between the bounds. -/
theorem partitions_eq (hset : setupTable settings = .ok (.range partitions)) (hcount : 1 ≤ settings.recordCount)
    (hfits : FitsLong settings.recordCount) (htablets : 1 ≤ settings.numTablets) :
    partitions = (List.range settings.numTablets.toNat).map fun j : ℕ => settings.partition (settings.bound j) (settings.bound (j + 1)) := by
  obtain ⟨hmany, -, -, rfl⟩ := setupTable_range hset hcount
  have hdiv : settings.recordCount.tdiv settings.numTablets = settings.recordCount / settings.numTablets :=
    Int.tdiv_eq_ediv_of_nonneg (by omega)
  have hnonneg : 0 ≤ settings.recordCount / settings.numTablets := Int.ediv_nonneg (by omega) (by omega)
  have hcast : (settings.numTablets.toNat : ℤ) = settings.numTablets := Int.toNat_of_nonneg (by omega)
  have hlast : settings.bound (0 + settings.numTablets.toNat) < 2 ^ 63 := by
    rw [Int.zero_add, Int.toNat_of_nonneg (by omega)]
    exact bound_numTablets_lt hcount hfits htablets hmany
  have hloop : rangeLoop settings settings.recordCount ((asInt settings.recordCount).tmod settings.numTablets) settings.numTablets.toNat 0
      (settings.bound 0) = (List.range settings.numTablets.toNat).map fun j : ℕ =>
        settings.partition (settings.bound (0 + j)) (settings.bound (0 + j + 1)) := rangeLoop_eq hdiv hnonneg rfl le_rfl hlast
  simpa only [bound_zero, Int.zero_add] using hloop

/-- The keys of numbers that are not larger than that of the records are padded to one length. -/
theorem length_le_of_le {n m zeropadding : ℤ} (hn : 0 ≤ n) (hle : n ≤ m) (hm : (longToString m).length ≤ zeropadding) :
    (longToString n).length ≤ zeropadding := by
  have hpos : 0 < (longToString m).length := by
    rw [longToString_of_nonneg (hn.trans hle), List.length_map]
    exact Nat.length_toDigits_pos
  have hm' := (length_longToString_le_iff (hn.trans hle) hpos).mp le_rfl
  have hn' := (length_longToString_le_iff hn hpos).mpr (lt_of_le_of_lt hle hm')
  omega

/-- They cover the numbers of the records just if the last one ends with them. -/
theorem bound_eq_recordCount_iff (htablets : 1 ≤ settings.numTablets) :
    settings.bound settings.numTablets = settings.recordCount ↔ settings.extra = settings.recordCount % settings.numTablets := by
  have hdiv := Int.mul_ediv_add_emod settings.recordCount settings.numTablets
  have hlt : settings.extra < settings.numTablets := by
    unfold Settings.extra
    have := Int.tmod_lt_of_pos (asInt settings.recordCount) (show 0 < settings.numTablets by omega)
    omega
  unfold Settings.bound bound
  omega

theorem Settings.bound_mono (hcount : 1 ≤ settings.recordCount) (htablets : 1 ≤ settings.numTablets) {i j : ℤ} (hij : i ≤ j) :
    settings.bound i ≤ settings.bound j := Kudu.bound_mono (Int.ediv_nonneg (by omega) (by omega)) _ hij

/-- The numbers that are in a range are those below the last bound. -/
theorem exists_range_iff (hset : setupTable settings = .ok (.range partitions)) (hcount : 1 ≤ settings.recordCount)
    (hfits : FitsLong settings.recordCount) (htablets : 1 ≤ settings.numTablets) (k : ℤ) :
    (∃ p ∈ partitions, p.lowerNum ≤ k ∧ k < p.upperNum) ↔ 0 ≤ k ∧ k < settings.bound settings.numTablets := by
  have hcast : (settings.numTablets.toNat : ℤ) = settings.numTablets := Int.toNat_of_nonneg (by omega)
  have hbounds : ∀ i j : ℕ, i ≤ j → settings.bound i ≤ settings.bound j := fun i j hij => Settings.bound_mono hcount htablets (Int.ofNat_le.mpr hij)
  have hbetween := exists_between_iff hbounds (n := settings.numTablets.toNat) (k := k)
  simp only [Int.natCast_zero, bound_zero, hcast] at hbetween
  rw [← hbetween, partitions_eq hset hcount hfits htablets]
  simp [Settings.partition]

/-- If they are the numbers of the records, what is left over is right. -/
theorem extra_of_splits (hset : setupTable settings = .ok (.range partitions)) (hcount : 1 ≤ settings.recordCount)
    (hfits : FitsLong settings.recordCount) (htablets : 1 ≤ settings.numTablets) (h : Splits settings partitions) :
    settings.extra = settings.recordCount % settings.numTablets := by
  rw [← bound_eq_recordCount_iff htablets]
  have hlast := Settings.bound_mono hcount htablets (show 0 ≤ settings.numTablets by omega)
  rw [bound_zero] at hlast
  have hbelow : ∀ k, 0 ≤ k → (k < settings.bound settings.numTablets ↔ k < settings.recordCount) := fun k hk => by
    have := (exists_range_iff hset hcount hfits htablets k).symm.trans (h.covers k)
    omega
  have hle := hbelow settings.recordCount (by omega)
  have hge := hbelow (settings.bound settings.numTablets) hlast
  omega

section

variable (hset : setupTable settings = .ok (.range partitions)) (hcount : 1 ≤ settings.recordCount) (hfits : FitsLong settings.recordCount)
  (htablets : 1 ≤ settings.numTablets)

include hset hcount hfits htablets

theorem partition_of_mem {p : RangePartition} (hp : p ∈ partitions) :
    ∃ j : ℕ, j < settings.numTablets ∧ p = settings.partition (settings.bound j) (settings.bound (j + 1)) := by
  rw [partitions_eq hset hcount hfits htablets] at hp
  obtain ⟨j, hj, rfl⟩ := List.mem_map.mp hp
  have hlt := List.mem_range.mp hj
  exact ⟨j, by omega, rfl⟩

theorem upperNum_eq_lowerNum {i : ℕ} {p q : RangePartition} (hp : partitions[i]? = some p) (hq : partitions[i + 1]? = some q) :
    p.upperNum = q.lowerNum := by
  rw [partitions_eq hset hcount hfits htablets, List.getElem?_map, Option.map_eq_some_iff] at hp hq
  obtain ⟨j, hj, rfl⟩ := hp
  obtain ⟨j', hj', rfl⟩ := hq
  obtain ⟨hi, hj⟩ := List.getElem?_eq_some_iff.mp hj
  obtain ⟨hi', hj'⟩ := List.getElem?_eq_some_iff.mp hj'
  rw [List.getElem_range] at hj hj'
  subst hj hj'
  rfl

theorem pairwise_partitions : partitions.Pairwise fun p q => p.upperNum ≤ q.lowerNum := by
  rw [partitions_eq hset hcount hfits htablets, List.pairwise_map]
  refine List.pairwise_lt_range.imp fun {i j} hij => Settings.bound_mono hcount htablets ?_
  omega

/-- A range has one key more than another at most. -/
theorem size_le {p q : RangePartition} (hp : p ∈ partitions) (hq : q ∈ partitions) : p.upperNum - p.lowerNum ≤ q.upperNum - q.lowerNum + 1 := by
  obtain ⟨i, -, rfl⟩ := partition_of_mem hset hcount hfits htablets hp
  obtain ⟨j, -, rfl⟩ := partition_of_mem hset hcount hfits htablets hq
  have hi := bound_succ (settings.recordCount / settings.numTablets) settings.extra i
  have hj := bound_succ (settings.recordCount / settings.numTablets) settings.extra j
  simp only [Settings.partition, Settings.bound]
  split_ifs at hi hj <;> omega

/-- Where the last range ends with the records, the keys of a range are those of its numbers. -/
theorem key_mem_iff (hlast : settings.bound settings.numTablets = settings.recordCount) {p : RangePartition} (hp : p ∈ partitions) {k : ℤ} (hk : 0 ≤ k)
    (hlength : (longToString k).length ≤ settings.zeropadding) :
    (p.lower ≤ buildKeyName k settings.zeropadding settings.orderedinserts ∧
      buildKeyName k settings.zeropadding settings.orderedinserts < p.upper) ↔ p.lowerNum ≤ k ∧ k < p.upperNum := by
  obtain ⟨-, hordered, hpadding, -⟩ := setupTable_range hset hcount
  obtain ⟨j, hj, rfl⟩ := partition_of_mem hset hcount hfits htablets hp
  have hmono : ∀ {i j : ℤ}, i ≤ j → settings.bound i ≤ settings.bound j := fun hij => Settings.bound_mono hcount htablets hij
  have hlower : 0 ≤ settings.bound j := bound_zero ▸ hmono (Int.natCast_nonneg j)
  have hstep : settings.bound j ≤ settings.bound (j + 1) := hmono (by omega)
  have hupper : settings.bound (j + 1) ≤ settings.recordCount := hlast ▸ hmono (by omega)
  have hll := length_le_of_le hlower (hstep.trans hupper) hpadding
  have hlu := length_le_of_le (hlower.trans hstep) hupper hpadding
  simp only [Settings.partition, hordered]
  rw [← not_lt, buildKeyName_lt_iff hk hlower hlength hll, buildKeyName_lt_iff hk (hlower.trans hstep) hlength hlu, not_lt]

/-- **The ranges split the keys of the records**, just if the number of ranges with one key more is the number of records left over. -/
theorem splits_iff : Splits settings partitions ↔
    max 0 ((asInt settings.recordCount).tmod settings.numTablets) = settings.recordCount % settings.numTablets := by
  refine ⟨extra_of_splits hset hcount hfits htablets, fun hextra => ?_⟩
  have hlast := (bound_eq_recordCount_iff htablets).mpr hextra
  exact
    { contiguous := fun _ _ _ hp hq => upperNum_eq_lowerNum hset hcount hfits htablets hp hq
      disjoint := pairwise_partitions hset hcount hfits htablets
      covers := fun k => by rw [exists_range_iff hset hcount hfits htablets k, hlast]
      sizes := fun _ hp _ hq => size_le hset hcount hfits htablets hp hq
      keys := fun _ hp _ hk hlength => key_mem_iff hset hcount hfits htablets hlast hp hk hlength }

end

/-- More records than fit in an `int`: the one left over is in no range. -/
theorem not_splits_beyond : ∃ partitions, setupTable ⟨3, 4294967299, 12, true, .range⟩ = .ok (.range partitions) ∧
    ¬ Splits ⟨3, 4294967299, 12, true, .range⟩ partitions :=
  ⟨_, rfl, fun h => absurd (extra_of_splits rfl (by decide) (by decide) (by decide) h) (by decide)⟩

theorem splits_iff_ten : ∃ partitions, setupTable ⟨4, 10, 12, true, .range⟩ = .ok (.range partitions) ∧
    (Splits ⟨4, 10, 12, true, .range⟩ partitions ↔ max 0 ((asInt 10).tmod 4) = 10 % 4) :=
  ⟨_, rfl, splits_iff rfl (by decide) (by decide) (by decide)⟩

end

end YcsbIvs.Kudu
