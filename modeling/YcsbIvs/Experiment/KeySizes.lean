import YcsbIvs.Foundations.Counts

/-!
# The histogram of value sizes

After each run the MongoDB experiment logs the size of every record, one `key,size` to a line, and `get_key_sizes` makes a histogram of the log, which the next run draws
its field lengths from. The script that makes the log is JavaScript, the one that reads it is awk.

`get_key_sizes` skips the first line of the log, as the logs of the MariaDB experiments begin with the names of the columns. The log that the MongoDB shell
prints does not: the first record is not counted. So the histogram counts every record **just when there is none** (`countsEvery_iff`); all others are
in the buckets of their sizes, if there is no comma in their keys (`count_tail`).

What awk takes for the number that a text begins with is a parameter. Sizes are whole numbers below `2⁵³`, which awk's numbers are exact for.
-/

namespace YcsbIvs.Experiment

open YcsbIvs.Foundations

/-! ### The log -/

/-- A record, as it is logged. -/
structure Logged where
  /-- Its key. -/
  key : List Char
  /-- How many bytes its values are, as JSON. -/
  byteLength : ℕ
  /-- It is logged on one line. -/
  oneLine : '\n' ∉ key

/-- `key + "," + byteLength`. -/
def Logged.line (r : Logged) : List Char := r.key ++ ',' :: Nat.toDigits 10 r.byteLength

/-- What the records are logged as. -/
def dump : List Logged → List Char
  | [] => []
  | r :: records => r.line ++ '\n' :: dump records

/-! ### The histogram -/

/-- The records awk reads, the first after its beginning `line`: one for each line. -/
def awkRecords (line : List Char) : List Char → List (List Char)
  | [] => if line = [] then [] else [line]
  | c :: text => if c = '\n' then line :: awkRecords [] text else awkRecords (line ++ [c]) text

/-- `$2`, the separator being a comma. -/
def secondField (line : List Char) : List Char := ((line.splitOn ',')[1]?).getD []

/-- `int(x)`. -/
def awkInt (x : ℚ) : ℤ := if 0 ≤ x then ⌊x⌋ else ⌈x⌉

/-- `block`. -/
def block : ℕ := 100

/-- The bucket of a record: `toNumber` is the number a text begins with. -/
def bucketOf (toNumber : List Char → ℚ) (line : List Char) : ℤ :=
  let size := toNumber (secondField line)
  awkInt (size / (block * 10))

/-- What the program keeps. -/
structure Program where
  /-- `histogram`. -/
  histogram : ℤ → ℕ
  /-- `max_bucket`. -/
  maxBucket : ℤ

/-- What it does with a record. -/
def Program.read (toNumber : List Char → ℚ) (s : Program) (line : List Char) : Program :=
  let bucket := bucketOf toNumber line
  ⟨Function.update s.histogram bucket (s.histogram bucket + 1), if s.maxBucket < bucket then bucket else s.maxBucket⟩

/-- The histogram file: the size of a block, and the rows of a bucket and a count. -/
structure HistogramFile where
  /-- The size of a block. -/
  blockSize : ℕ
  /-- The rows. -/
  rows : List (ℕ × ℕ)

/-- `get_key_sizes`. The first record of the log is skipped. -/
def getKeySizes (toNumber : List Char → ℚ) (log : List Char) : HistogramFile :=
  let s := ((awkRecords [] log).drop 1).foldl (Program.read toNumber) ⟨fun _ => 0, 0⟩
  ⟨block, (List.range (s.maxBucket + 1).toNat).map fun i => (i, s.histogram i)⟩

/-! ### What is promised -/

/-- The count written for a bucket. -/
def HistogramFile.count (file : HistogramFile) (bucket : ℕ) : ℕ := (file.rows.lookup bucket).getD 0

/-- The bucket of a record's size: there are ten fields. -/
def Logged.bucket (r : Logged) : ℕ := r.byteLength / (block * 10)

/-- Every record is counted, in the bucket of its size. -/
structure CountsEvery (file : HistogramFile) (records : List Logged) : Prop where
  /-- The counts sum to the number of records. -/
  total : (file.rows.map Prod.snd).sum = records.length
  /-- Each is the number of the bucket's records. -/
  each : ∀ bucket, file.count bucket = records.countP fun r => r.bucket = bucket

/-! ### Reading the log -/

theorem awkRecords_append {s : List Char} (h : '\n' ∉ s) (line text : List Char) :
    awkRecords line (s ++ '\n' :: text) = (line ++ s) :: awkRecords [] text := by
  induction s generalizing line with
  | nil => rw [List.nil_append, awkRecords, if_pos rfl, List.append_nil]
  | cons c s ih =>
    obtain ⟨hc, hs⟩ := not_or.mp fun h' => h (List.mem_cons.mpr h')
    rw [List.cons_append, awkRecords, if_neg fun heq => hc heq.symm, ih hs, List.append_assoc, List.singleton_append]

theorem not_mem_toDigits {c : Char} (hc : c.isDigit = false) (n : ℕ) : c ∉ Nat.toDigits 10 n := fun h => by
  rw [Nat.isDigit_of_mem_toDigits (by decide) (by decide) h] at hc
  cases hc

/-- Each record is a line. -/
theorem awkRecords_dump (records : List Logged) : awkRecords [] (dump records) = records.map Logged.line := by
  induction records with
  | nil => rfl
  | cons r records ih =>
    have hline : '\n' ∉ r.line := by
      rw [Logged.line, List.mem_append, List.mem_cons, not_or, not_or]
      exact ⟨r.oneLine, by decide, not_mem_toDigits rfl _⟩
    rw [dump, awkRecords_append hline, ih, List.nil_append, List.map_cons]

/-- The size is the second field, if there is no comma in the key. -/
theorem secondField_line {r : Logged} (h : ',' ∉ r.key) : secondField r.line = Nat.toDigits 10 r.byteLength := by
  have hjoin : r.line = List.intercalate [','] [r.key, Nat.toDigits 10 r.byteLength] := by
    simp [Logged.line, List.intercalate]
  rw [secondField, hjoin, List.splitOn_intercalate ',' (by simpa using ⟨h, not_mem_toDigits rfl _⟩) (by simp)]
  rfl

/-! ### Counting -/

variable {toNumber : List Char → ℚ}

/-- The program counts the records of each bucket. -/
theorem histogram_foldl (lines : List (List Char)) (s : Program) (bucket : ℤ) :
    (lines.foldl (Program.read toNumber) s).histogram bucket = s.histogram bucket + lines.countP fun line => bucketOf toNumber line = bucket := by
  induction lines generalizing s with
  | nil => rfl
  | cons line lines ih =>
    rw [List.foldl_cons, ih, List.countP_cons, Program.read]
    by_cases h : bucketOf toNumber line = bucket
    · simp only [h, Function.update_self, decide_true, if_true]
      omega
    · simp only [h, Function.update_of_ne fun heq => h heq.symm, decide_false, Bool.false_eq_true, if_false]
      rfl

/-- No bucket is above the greatest. -/
theorem maxBucket_foldl (toNumber : List Char → ℚ) (lines : List (List Char)) (s : Program) :
    s.maxBucket ≤ (lines.foldl (Program.read toNumber) s).maxBucket ∧
      ∀ line ∈ lines, bucketOf toNumber line ≤ (lines.foldl (Program.read toNumber) s).maxBucket := by
  induction lines generalizing s with
  | nil => exact ⟨le_rfl, fun _ h => absurd h List.not_mem_nil⟩
  | cons line lines ih =>
    obtain ⟨hmax, hall⟩ := ih (Program.read toNumber s line)
    have hread : s.maxBucket ≤ (Program.read toNumber s line).maxBucket ∧ bucketOf toNumber line ≤ (Program.read toNumber s line).maxBucket := by
      rw [Program.read]
      dsimp only
      split_ifs with h
      · exact ⟨h.le, le_rfl⟩
      · exact ⟨le_rfl, not_lt.mp h⟩
    exact ⟨hread.1.trans hmax, List.forall_mem_cons.mpr ⟨hread.2.trans hmax, hall⟩⟩

/-- A row is found by its bucket. -/
theorem lookup_rows (f : ℕ → ℕ) (l : List ℕ) (bucket : ℕ) :
    (l.map fun i => (i, f i)).lookup bucket = if bucket ∈ l then some (f bucket) else none := by
  induction l with
  | nil => rfl
  | cons i l ih =>
    rw [List.map_cons, List.lookup_cons, ih]
    by_cases h : bucket = i
    · simp [h]
    · simp [h, beq_false_of_ne h]

/-- What is written of a log. -/
theorem getKeySizes_eq (toNumber : List Char → ℚ) (records : List Logged) :
    ∃ n : ℕ, ((getKeySizes toNumber (dump records)).rows =
        (List.range (n + 1)).map fun i : ℕ => (i, (records.tail.map Logged.line).countP fun line => bucketOf toNumber line = i)) ∧
      ∀ line ∈ records.tail.map Logged.line, bucketOf toNumber line < n + 1 := by
  have hlines : (awkRecords [] (dump records)).drop 1 = records.tail.map Logged.line := by
    rw [awkRecords_dump, List.drop_one, List.map_tail]
  obtain ⟨hmax, hall⟩ := maxBucket_foldl toNumber (records.tail.map Logged.line) ⟨fun _ => 0, 0⟩
  refine ⟨((records.tail.map Logged.line).foldl (Program.read toNumber) ⟨fun _ => 0, 0⟩).maxBucket.toNat, ?_, fun line hline => ?_⟩
  · rw [getKeySizes, hlines]
    dsimp only
    rw [Int.toNat_add hmax Int.one_nonneg]
    refine List.map_congr_left fun i _ => ?_
    rw [histogram_foldl, Nat.zero_add]
  · rw [Int.toNat_of_nonneg hmax]
    exact Int.lt_add_one_of_le (hall line hline)

/-- A record is read back into the bucket of its size, if there is no comma in its key. -/
theorem bucketOf_line (hnumber : ∀ n, toNumber (Nat.toDigits 10 n) = n) {r : Logged} (hkey : ',' ∉ r.key) : bucketOf toNumber r.line = r.bucket := by
  have hdiv : ((r.byteLength : ℚ) / (block * 10)) = ((r.byteLength : ℚ) / ((block * 10 : ℕ) : ℚ)) := by push_cast; rfl
  rw [bucketOf, secondField_line hkey, hnumber, hdiv, awkInt, if_pos (by positivity), Rat.floor_natCast_div_natCast]
  rfl

/-- **What the histogram counts**: all records but the first, each in the bucket of its size, if there is no comma in their keys. -/
theorem count_tail (hnumber : ∀ n, toNumber (Nat.toDigits 10 n) = n) {records : List Logged} (hkeys : ∀ r ∈ records.tail, ',' ∉ r.key) :
    CountsEvery (getKeySizes toNumber (dump records)) records.tail := by
  have hbucket : ∀ r ∈ records.tail, bucketOf toNumber r.line = r.bucket := fun r hr => bucketOf_line hnumber (hkeys r hr)
  obtain ⟨n, hrows, hall⟩ := getKeySizes_eq toNumber records
  have hcount : ∀ i : ℕ, (records.tail.map Logged.line).countP (fun line => bucketOf toNumber line = (i : ℤ)) =
      records.tail.countP fun r => r.bucket = i := fun i => by
    rw [List.countP_map]
    refine List.countP_congr fun r hr => ?_
    simp only [Function.comp, hbucket r hr, Int.ofNat_inj]
  constructor
  · have hsum := sum_countP (bucketOf toNumber) (records.tail.map Logged.line) (n + 1)
    rw [hrows, List.map_map]
    refine hsum.trans ?_
    rw [List.countP_eq_length.mpr fun line hline => ?_, List.length_map]
    obtain ⟨r, hr, rfl⟩ := List.mem_map.mp hline
    have hlt := hall _ hline
    rw [hbucket r hr] at hlt ⊢
    simp only [Int.natCast_nonneg, true_and, decide_eq_true_eq]
    exact_mod_cast hlt
  · intro i
    rw [HistogramFile.count, hrows, lookup_rows]
    split_ifs with hi
    · exact hcount i
    · -- above the last row there are none
      refine (List.countP_eq_zero.mpr fun r hr => ?_).symm
      have hlt := hall _ (List.mem_map_of_mem hr)
      rw [hbucket r hr] at hlt
      rw [List.mem_range] at hi
      rw [decide_eq_true_eq]
      omega

/-- The first record is in no bucket. -/
theorem total_le (toNumber : List Char → ℚ) (records : List Logged) :
    ((getKeySizes toNumber (dump records)).rows.map Prod.snd).sum ≤ records.tail.length := by
  obtain ⟨n, hrows, -⟩ := getKeySizes_eq toNumber records
  have hsum := sum_countP (bucketOf toNumber) (records.tail.map Logged.line) (n + 1)
  rw [hrows, List.map_map]
  exact (hsum.trans_le List.countP_le_length).trans_eq (List.length_map _)

/-- **When every record is counted**: when there is none. -/
theorem countsEvery_iff (toNumber : List Char → ℚ) (records : List Logged) :
    CountsEvery (getKeySizes toNumber (dump records)) records ↔ records = [] := by
  constructor
  · intro h
    have hle := total_le toNumber records
    rw [h.total, List.length_tail] at hle
    cases records with
    | nil => rfl
    | cons r records => exact absurd hle (by simp)
  · rintro rfl
    obtain ⟨n, hrows, -⟩ := getKeySizes_eq toNumber []
    constructor
    · rw [hrows, List.map_map]
      exact sum_countP (bucketOf toNumber) [] (n + 1)
    · intro i
      rw [HistogramFile.count, hrows, lookup_rows]
      split_ifs <;> rfl

/-- The whole number that a text begins with. -/
def leadingNumber (text : List Char) : ℚ := (Nat.ofDigitChars 10 (text.takeWhile Char.isDigit) 0 : ℕ)

/-- Of a record of 4000 bytes and one of 2000, only the second is counted. -/
theorem not_countsEvery :
    ¬ CountsEvery (getKeySizes leadingNumber (dump [⟨['a'], 4000, by decide⟩, ⟨['b'], 2000, by decide⟩]))
      [⟨['a'], 4000, by decide⟩, ⟨['b'], 2000, by decide⟩] := by
  intro h
  have hle := total_le leadingNumber [⟨['a'], 4000, by decide⟩, ⟨['b'], 2000, by decide⟩]
  rw [h.total] at hle
  exact absurd hle (by decide)

end YcsbIvs.Experiment
