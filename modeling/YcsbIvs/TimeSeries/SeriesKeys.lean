import YcsbIvs.TimeSeries.Verification

/-!
# Verification and the key of a series

The hash of a point is documented as that of its key and its tags. `validationFunction` is given the key, and makes it a part of the capacity of its buffer only: so the
hash is the same for all keys, and `verifyRow` accepts the cells of one series as those of another.

**Cells of another key are found out just if they would be refused for their own as well** (`detects_iff`): the timestamp stored is not the one that was
hashed, or a tag has the name of the timestamp or the value. Otherwise they never are (`verifyRowOf_accepts`).
-/

namespace YcsbIvs.TimeSeries

open YcsbIvs.Core YcsbIvs.Foundations YcsbIvs.Generator
open YcsbIvs.Workloads (hashCode)

/-- `validationFunction(key, timestamp, tags)`, with the key. -/
def validationFunctionOf (w : TimeSeriesWorkload) (_key : Utf16) (timestamp : ℤ) (tags : SortedMap Utf16 Utf16) : Except Thrown ℤ :=
  validationFunction w timestamp tags

/-- `verifyRow(key, cells)`, with the key. -/
def verifyRowOf (w : TimeSeriesWorkload) (key : Utf16) (cells : List (Utf16 × Cell)) : Except Thrown Status := do
  let row ← cells.foldlM (readCell w) ⟨0, 0, .empty⟩
  let hash ← validationFunctionOf w key row.timestamp row.validationTags
  .ok (if longToDouble hash == row.value then .ok else .unexpectedState)

/-- The cells that `nextDataPoint` writes for a series, if `stored` is the timestamp it stores, and `current` that of its generator. -/
def writtenCells (w : TimeSeriesWorkload) (key : Utf16) (current stored : ℤ) (tags : SortedMap Utf16 Utf16) : Except Thrown (SortedMap Utf16 Cell) := do
  let map := (tags.map Cell.string).put w.timestampKey (.long stored)
  let hash ← validationFunctionOf w key current tags
  .ok (map.put w.valueKey (.long hash))

/-- The hash as it is documented: of the key, and the names and values of the tags, with the timestamp. -/
def documentedHash (key : Utf16) (timestamp : ℤ) (tags : SortedMap Utf16 Utf16) : ℤ :=
  xorLong (hashCode (key ++ (tags.entries.map fun pair => pair.1 ++ pair.2).flatten)) timestamp

section

variable {w : TimeSeriesWorkload} {key : Utf16} {current stored : ℤ} {tags : SortedMap Utf16 Utf16}

/-- The key does not matter to the verification. -/
theorem verifyRowOf_eq (key : Utf16) (cells : List (Utf16 × Cell)) : verifyRowOf w key cells = verifyRow w cells := rfl

theorem writtenCells_inv {map : SortedMap Utf16 Cell} (h : writtenCells w key current stored tags = .ok map) :
    map = ((tags.map Cell.string).put w.timestampKey (.long stored)).put w.valueKey (.long (xorLong (tagHash tags) current)) ∧
      ∀ timestamp tags, validationFunction w timestamp tags = .ok (xorLong (tagHash tags) timestamp) := by
  obtain ⟨hash, hhash, h⟩ := bind_inv h
  have hall := validationFunction_inv hhash
  rw [validationFunctionOf, hall] at hhash
  cases hhash
  cases h
  exact ⟨rfl, hall⟩

/-- What `nextDataPoint` writes. -/
theorem writtenCells_of_nextDataPoint (hintegrity : w.dataintegrity = true) {s s' s₁ : ThreadState} {isInsert : Bool} {draws : Draws} {point : DataPoint}
    (hnext : nextDataPoint w s isInsert draws = .ok (point, s')) (hturn : atTurn w s draws = .ok s₁) :
    writtenCells w point.key s₁.timestampGenerator.currentTimestamp (turnTimestamp w s₁ isInsert draws) (turnTags w s₁) = .ok point.map := by
  obtain ⟨hmap, hvalidation⟩ := makePoint_inv hintegrity (makePoint_of_nextDataPoint hnext hturn)
  rw [writtenCells, validationFunctionOf, hvalidation, hmap]
  rfl

/-- **Cells written under one key are found out under another just if the hash is not found again in them**: if it is, the other key is accepted. -/
theorem detects_iff {key' : Utf16} {map : SortedMap Utf16 Cell} (hmap : writtenCells w key current stored tags = .ok map) {cells : List (Utf16 × Cell)}
    (hcells : cells.Perm map.entries) :
    (documentedHash key current tags ≠ documentedHash key' current tags → verifyRowOf w key' cells ≠ .ok .ok) ↔
      documentedHash key current tags = documentedHash key' current tags ∨ findsHash w tags current stored = false := by
  obtain ⟨rfl, hvalidation⟩ := writtenCells_inv hmap
  rw [verifyRowOf_eq, ne_eq (verifyRow w cells), verifyRow_cells_iff hvalidation hcells, Bool.not_eq_true]
  exact or_iff_not_imp_left.symm

/-- **Otherwise no key is found out**: where the timestamp is the one that was hashed and the names are apart, the cells are accepted under every key. -/
theorem verifyRowOf_accepts (hne : w.timestampKey ≠ w.valueKey) (htimestamp : tags.get w.timestampKey = none) (hvalue : tags.get w.valueKey = none)
    {map : SortedMap Utf16 Cell} (hmap : writtenCells w key current current tags = .ok map) (key' : Utf16) :
    verifyRowOf w key' map.entries = .ok .ok := by
  obtain ⟨rfl, hvalidation⟩ := writtenCells_inv hmap
  rw [verifyRowOf_eq, verifyRow_cells_iff hvalidation (List.Perm.refl _), findsHash_of_notMem hne htimestamp hvalue]
  exact longToDouble_beq_self _

end

/-- The tags of the first series of `integrityOfTwo`. -/
def firstTags : SortedMap Utf16 Utf16 := (SortedMap.empty.put [0x41] [0x41]).put [0x42] [0x41]

/-- The documented hash tells the first two keys apart. -/
theorem documentedHash_ne : documentedHash [0x41] 1451606400 firstTags ≠ documentedHash [0x42] 1451606400 firstTags := by decide

set_option maxRecDepth 4000 in
/-- The workload with two tags, whose keys are the letters. -/
theorem exists_integrityOfTwo :
    ∃ w map, init integrityOfTwo noShuffles = .ok w ∧ w.dataintegrity = true ∧ [0x41] ∈ w.keys ∧ [0x42] ∈ w.keys ∧
      writtenCells w [0x41] 1451606400 1451606400 firstTags = .ok map ∧ w.timestampKey ≠ w.valueKey ∧ firstTags.get w.timestampKey = none ∧
      firstTags.get w.valueKey = none :=
  ⟨_, _, rfl, rfl, by decide, by decide, rfl, by decide, by decide, by decide⟩

/-- The first series under the second key: the hashes differ, and the hash is found again. -/
theorem detects_iff_letters :
    ∃ w map, init integrityOfTwo noShuffles = .ok w ∧ writtenCells w [0x41] 1451606400 1451606400 firstTags = .ok map ∧
      ¬ (documentedHash [0x41] 1451606400 firstTags ≠ documentedHash [0x42] 1451606400 firstTags →
        verifyRowOf w [0x42] map.entries ≠ .ok .ok) := by
  obtain ⟨w, map, hw, -, -, -, hmap, hne, htimestamp, hvalue⟩ := exists_integrityOfTwo
  refine ⟨w, map, hw, hmap, fun h => ?_⟩
  rcases (detects_iff hmap (List.Perm.refl _)).mp h with heq | hfinds
  · exact documentedHash_ne heq
  · rw [findsHash_of_notMem hne htimestamp hvalue] at hfinds
    exact absurd ((longToDouble_beq_self _).symm.trans hfinds) (by decide)

/-- The cells of the first series are accepted as those of the second. -/
theorem not_detects :
    ¬ ∀ (p : Properties) (shuffles : Shuffles) (w : TimeSeriesWorkload), init p shuffles = .ok w → w.dataintegrity = true →
      ∀ key ∈ w.keys, ∀ key' ∈ w.keys, ∀ (timestamp : ℤ) (tags : SortedMap Utf16 Utf16) (map : SortedMap Utf16 Cell),
        documentedHash key timestamp tags ≠ documentedHash key' timestamp tags → writtenCells w key timestamp timestamp tags = .ok map →
          verifyRowOf w key' map.entries ≠ .ok .ok := by
  intro h
  obtain ⟨w, map, hw, hintegrity, hkey, hkey', hmap, hne, htimestamp, hvalue⟩ := exists_integrityOfTwo
  exact h _ _ w hw hintegrity _ hkey _ hkey' _ _ map documentedHash_ne hmap (verifyRowOf_accepts hne htimestamp hvalue hmap _)

end YcsbIvs.TimeSeries
