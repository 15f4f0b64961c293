import YcsbIvs.Generator.Timestamps

/-!
# Timestamps in a random order

`RandomDiscreteTimestampGenerator` fills an array with the numbers of its intervals, shuffles it, and returns a timestamp for each of them: the array is a permutation of what it
was whatever is drawn (`perm_shuffleArray`), and each call returns the timestamp of one place of it, so that **each interval's timestamp is returned once, and then
no other** (`goesThrough`). They count from `startTimestamp`, which a constructor sets an interval before the start it is given, or before the clock.
-/

namespace YcsbIvs.Generator

open YcsbIvs.Foundations

/-! ### Shuffles -/

/-- The loop of `shuffleArray`, from index `i` down: what it swaps an element with is drawn of those up to it. -/
def shuffleLoop {α : Type} (draws : ℕ → ℕ) : ℕ → List α → List α
  | 0, array => array
  | i + 1, array =>
    let idx := draws (i + 1) % (i + 2)
    match array[idx]?, array[i + 1]? with
    | some temp, some element => shuffleLoop draws i ((array.set idx element).set (i + 1) temp)
    | _, _ => array

/-- `Utils.shuffleArray(array)`, if `nextInt(i + 1)` gives the remainder of `draws i`. -/
def shuffleArray {α : Type} (draws : ℕ → ℕ) (array : List α) : List α := shuffleLoop draws (array.length - 1) array

theorem perm_shuffleLoop {α : Type} (draws : ℕ → ℕ) (i : ℕ) (array : List α) : (shuffleLoop draws i array).Perm array := by
  induction i generalizing array with
  | zero => exact .refl array
  | succ i ih =>
    rw [shuffleLoop]
    split
    · next temp element htemp helement =>
      obtain ⟨hidx, rfl⟩ := List.getElem?_eq_some_iff.mp htemp
      obtain ⟨hi, rfl⟩ := List.getElem?_eq_some_iff.mp helement
      exact (ih _).trans (List.set_set_perm hidx hi)
    · exact .refl array

/-- **A shuffle permutes.** -/
theorem perm_shuffleArray {α : Type} (draws : ℕ → ℕ) (array : List α) : (shuffleArray draws array).Perm array := perm_shuffleLoop ..

namespace TimestampGenerator

/-! ### Random timestamps -/

/-- `new RandomDiscreteTimestampGenerator(interval, timeUnits, intervals)`. -/
def randomOfClock (clock : Clock) (interval : ℤ) (timeUnits : TimeUnit) (intervals : ℤ) (draws : ℕ → ℕ) : Except Thrown TimestampGenerator :=
  (ofClock clock interval timeUnits).setup intervals (shuffleArray draws)

/-- `new RandomDiscreteTimestampGenerator(interval, timeUnits, startTimestamp, intervals)`. -/
def randomOfStart (interval : ℤ) (timeUnits : TimeUnit) (startTimestamp intervals : ℤ) (draws : ℕ → ℕ) : Except Thrown TimestampGenerator :=
  (ofStart interval timeUnits startTimestamp).setup intervals (shuffleArray draws)

/-- The next `n` values, and the generator after them. -/
def nextValues : ℕ → TimestampGenerator → Except Thrown (List ℤ × TimestampGenerator)
  | 0, g => .ok ([], g)
  | n + 1, g => do
    let next ← g.nextValue
    let rest ← nextValues n next.2
    .ok (next.1 :: rest.1, rest.2)

/-- The timestamp of an offset. -/
def timestampOf (g : TimestampGenerator) (offset : ℤ) : ℤ := asLong (g.startTimestamp + offset * g.getOffset 1)

variable {g : TimestampGenerator} {offsets : List ℤ}

/-- A call returns the timestamp of the next place. -/
theorem nextValue_of_lt (h : g.offsets = some offsets) (hlt : g.offsetIndex < offsets.length) :
    ∃ g', g.nextValue = .ok (g.timestampOf offsets[g.offsetIndex], g') ∧ g'.offsets = some offsets ∧ g'.offsetIndex = g.offsetIndex + 1 ∧
      g'.timestampOf = g.timestampOf := by
  rw [nextValue, h]
  dsimp only
  rw [List.getElem?_eq_getElem hlt]
  exact ⟨_, rfl, rfl, rfl, rfl⟩

/-- When there is none it throws. -/
theorem nextValue_of_le (h : g.offsets = some offsets) (hle : offsets.length ≤ g.offsetIndex) : g.nextValue = .error .illegalState := by
  rw [nextValue, h]
  dsimp only
  rw [List.getElem?_eq_none hle]

/-- **A run** returns the timestamps of the places it goes through. -/
theorem nextValues_eq (n : ℕ) (h : g.offsets = some offsets) (hle : g.offsetIndex + n ≤ offsets.length) :
    ∃ g', g.nextValues n = .ok (((offsets.drop g.offsetIndex).take n).map g.timestampOf, g') ∧ g'.offsets = some offsets ∧
      g'.offsetIndex = g.offsetIndex + n := by
  induction n generalizing g with
  | zero => exact ⟨g, by rw [nextValues, List.take_zero, List.map_nil], h, rfl⟩
  | succ n ih =>
    have hlt : g.offsetIndex < offsets.length := by omega
    obtain ⟨g₁, hnext, hoffsets, hindex, htimestamp⟩ := nextValue_of_lt h hlt
    obtain ⟨g', hrest, hoffsets', hindex'⟩ := ih hoffsets (by omega)
    refine ⟨g', ?_, hoffsets', by omega⟩
    rw [List.drop_eq_getElem_cons hlt, List.take_succ_cons, List.map_cons, nextValues, hnext]
    rw [hindex, htimestamp] at hrest
    exact congrArg (·.bind fun rest => .ok (g.timestampOf offsets[g.offsetIndex] :: rest.1, rest.2)) hrest

/-- What `setup` makes of a generator. -/
theorem setup_spec {g₀ : TimestampGenerator} {intervals : ℤ} {draws : ℕ → ℕ} (h : g₀.setup intervals (shuffleArray draws) = .ok g) :
    ∃ offsets, g.offsets = some offsets ∧ g.offsetIndex = 0 ∧ offsets.Perm ((List.range intervals.toNat).map Int.ofNat) := by
  rw [setup] at h
  split_ifs at h
  cases h
  exact ⟨_, rfl, rfl, perm_shuffleArray ..⟩

/-- It does not throw unless the number of intervals is negative, or too large. -/
theorem setup_ok_iff (g₀ : TimestampGenerator) (intervals : ℤ) (draws : ℕ → ℕ) :
    (∃ g, g₀.setup intervals (shuffleArray draws) = .ok g) ↔ 0 ≤ intervals ∧ intervals ≤ maxIntervals := by
  rw [setup]
  split_ifs with hneg hmax
  · refine iff_of_false ?_ (by omega)
    rintro ⟨g, hg⟩
    cases hg
  · refine iff_of_false ?_ (by omega)
    rintro ⟨g, hg⟩
    cases hg
  · exact iff_of_true ⟨_, rfl⟩ (by omega)

/-- Whatever the generator was before `setup`. -/
theorem goesThrough_of_setup {g₀ : TimestampGenerator} {intervals : ℤ} {draws : ℕ → ℕ} (h : g₀.setup intervals (shuffleArray draws) = .ok g)
    (hfits : ∀ k : ℕ, k < intervals → FitsLong (g.startTimestamp + k * g.getOffset 1)) :
    ∃ values g', g.nextValues intervals.toNat = .ok (values, g') ∧
      values.Perm ((List.range intervals.toNat).map fun k : ℕ => g.startTimestamp + k * g.getOffset 1) ∧ g'.nextValue = .error .illegalState := by
  obtain ⟨offsets, hoffsets, hindex, hperm⟩ := setup_spec h
  have hlength : offsets.length = intervals.toNat := by rw [hperm.length_eq, List.length_map, List.length_range]
  obtain ⟨g', hvalues, hoffsets', hindex'⟩ := nextValues_eq intervals.toNat hoffsets (by omega)
  refine ⟨_, g', hvalues, ?_, nextValue_of_le hoffsets' (by omega)⟩
  rw [hindex, List.drop_zero, ← hlength, List.take_length]
  refine (hperm.map g.timestampOf).trans (.of_eq ?_)
  rw [List.map_map, hlength]
  refine List.map_congr_left fun k hk => ?_
  rw [List.mem_range] at hk
  exact asLong_of_fits (hfits k (by omega))

/-- From a start that is given or from the clock, **each interval's timestamp is returned once, and then no other**. -/
theorem goesThrough {interval intervals : ℤ} {timeUnits : TimeUnit} {draws : ℕ → ℕ}
    (hnew : (∃ startTimestamp, randomOfStart interval timeUnits startTimestamp intervals draws = .ok g) ∨
      ∃ clock, randomOfClock clock interval timeUnits intervals draws = .ok g)
    (hfits : ∀ k : ℕ, k < intervals → FitsLong (g.startTimestamp + k * g.getOffset 1)) :
    ∃ values g', g.nextValues intervals.toNat = .ok (values, g') ∧
      values.Perm ((List.range intervals.toNat).map fun k : ℕ => g.startTimestamp + k * g.getOffset 1) ∧ g'.nextValue = .error .illegalState := by
  obtain ⟨startTimestamp, hstart⟩ | ⟨clock, hclock⟩ := hnew
  · exact goesThrough_of_setup hstart hfits
  · exact goesThrough_of_setup hclock hfits

/-- Two intervals of a minute, swapped. -/
theorem goesThrough_two :
    ∃ values g', nextValues 2 ⟨1072915140, 1072915140, 1072915080, 60, .seconds, some [1, 0], 0⟩ = .ok (values, g') ∧
      values.Perm ((List.range 2).map fun k : ℕ => 1072915140 + k * 60) ∧ g'.nextValue = .error .illegalState := by
  have hnew : randomOfStart 60 .seconds 1072915200 2 (fun _ => 0) = .ok ⟨1072915140, 1072915140, 1072915080, 60, .seconds, some [1, 0], 0⟩ := rfl
  refine goesThrough (.inl ⟨_, hnew⟩) fun k hk => ?_
  obtain rfl | rfl : k = 0 ∨ k = 1 := by omega
  · decide
  · decide

end TimestampGenerator

end YcsbIvs.Generator
