import YcsbIvs.TimeSeries.Alignment
import YcsbIvs.TimeSeries.Coverage
import YcsbIvs.TimeSeries.Initialisation
import Mathlib.Data.Set.Function

/-!
# The numbers of series, and which are delayed

`nextDataPoint` gives each series a number, `overallIdx`: its key and the values of its tags are digits, weighted by the products of the
cardinalities after them. These are the weights of an odometer, so **the series are numbered one to one by the
numbers below `totalCardinality`**, as long as each tag has a cardinality and the number of series is an `int` (`bijOn_overallIdx`).

A series whose number is in the part that `delayedseries` gives is to be delayed: written with timestamps earlier than the current one.
By how much depends on its number alone: by as many intervals as the number leaves modulo `delayedintervals`. That may be none, so that **a
series of that part is delayed just when its number does not leave zero, and the product with the interval is a positive
`int`** (`delayedByNumber_iff`).
-/

namespace YcsbIvs.TimeSeries

open YcsbIvs.Foundations YcsbIvs.Generator

/-! ### Numbers -/

/-- A series of the workload: it has one of its keys, and each tag has one of its values. -/
def IsSeriesOf (w : TimeSeriesWorkload) (p : Series) : Prop := 0 ≤ p.1 ∧ p.1 < w.keys.length ∧ IsDigits w.tagCardinality p.2

/-- `overallIdx`, as `nextDataPoint` computes it for a series. -/
def overallIdx (w : TimeSeriesWorkload) (p : Series) : ℤ :=
  (List.range w.tagPairs).foldl (fun n i => asInt (n + p.2.getD i 0 * w.cumulativeCardinality.getD (i + 1) 0))
    (asInt (p.1 * w.cumulativeCardinality.getD 0 0))

theorem turnNumber_eq (w : TimeSeriesWorkload) (s : ThreadState) : turnNumber w s = overallIdx w s.turn := rfl

/-- How many series there are. -/
def seriesOf (w : TimeSeriesWorkload) : ℤ := w.keys.length * w.tagCardinality.prod

/-- Each tag has a cardinality, and the number of series is an `int`. -/
structure Numbered (w : TimeSeriesWorkload) : Prop where
  /-- The cardinalities. -/
  cards_pos : ∀ card ∈ w.tagCardinality, 1 ≤ card
  /-- Their product with the number of keys. -/
  fits : seriesOf w < 2 ^ 31

/-! ### Weights -/

/-- The first of the products is that of all. -/
theorem suffixProducts_getD_zero (cards : List ℕ) : ((suffixProducts cards).map Int.ofNat).getD 0 0 = cards.prod := by
  cases cards with
  | nil => rfl
  | cons card cards => rfl

/-- **The loop over the tags adds the number that their values stand for**, as long as it is an `int`. -/
theorem foldl_weights {cards digits : List ℕ} (h : IsDigits cards digits) {n : ℤ} (hn : 0 ≤ n) (hfits : n + number cards digits < 2 ^ 31) :
    (List.range cards.length).foldl
        (fun n i => asInt (n + digits.getD i 0 * ((suffixProducts cards).map Int.ofNat).getD (i + 1) 0)) n = n + number cards digits := by
  induction h generalizing n with
  | nil => simp [number]
  | @cons card d cards digits hd hds ih =>
    rw [number, Nat.cast_add, Nat.cast_mul] at hfits
    have hweight : 0 ≤ (d : ℤ) * cards.prod := by positivity
    have hfirst : asInt (n + d * cards.prod) = n + d * cards.prod := asInt_of_fits (by unfold FitsInt; omega)
    have hstep : ∀ i, ((suffixProducts (card :: cards)).map Int.ofNat).getD (i + 1) 0 = ((suffixProducts cards).map Int.ofNat).getD i 0 :=
      fun i => rfl
    rw [List.length_cons, List.range_succ_eq_map, List.foldl_cons, List.foldl_map]
    simp only [hstep, suffixProducts_getD_zero, List.getD_cons_zero, List.getD_cons_succ, hfirst]
    rw [ih (by omega) (by omega), number, Nat.cast_add, Nat.cast_mul]
    omega

section

variable {w : TimeSeriesWorkload}

/-- The weights are the products of the cardinalities after each. -/
theorem cumulativeCardinality_eq (haccepted : Accepted w) (hnumbered : Numbered w) :
    w.cumulativeCardinality = (suffixProducts w.tagCardinality).map Int.ofNat := by
  have hkeys : (1 : ℤ) ≤ w.keys.length := by exact_mod_cast haccepted.keys_pos
  have hle : ((w.tagCardinality.prod : ℕ) : ℤ) ≤ seriesOf w := by
    rw [seriesOf]
    nlinarith [Int.natCast_nonneg w.tagCardinality.prod]
  have hfits := hnumbered.fits
  rw [haccepted.cumulate_eq, cumulate_eq_suffixProducts _ hnumbered.cards_pos (by omega)]

/-- The number of a series with these digits, the key the first. -/
theorem number_lt_seriesOf {p : Series} (hp : IsSeriesOf w p) : p.1 * w.tagCardinality.prod + number w.tagCardinality p.2 < seriesOf w := by
  obtain ⟨-, hlt, hdigits⟩ := hp
  have hnumber : (number w.tagCardinality p.2 : ℤ) < w.tagCardinality.prod := by exact_mod_cast number_lt hdigits
  rw [seriesOf]
  nlinarith

/-- **The number of a series is what its digits stand for.** -/
theorem overallIdx_eq (haccepted : Accepted w) (hnumbered : Numbered w) {p : Series} (hp : IsSeriesOf w p) :
    overallIdx w p = p.1 * w.tagCardinality.prod + number w.tagCardinality p.2 := by
  obtain ⟨hnonneg, hlt, hdigits⟩ := hp
  have hfits := (number_lt_seriesOf ⟨hnonneg, hlt, hdigits⟩).trans hnumbered.fits
  have hkey : 0 ≤ p.1 * (w.tagCardinality.prod : ℤ) := by positivity
  have hkeyFits : asInt (p.1 * w.tagCardinality.prod) = p.1 * w.tagCardinality.prod := asInt_of_fits (by unfold FitsInt; omega)
  rw [overallIdx, cumulativeCardinality_eq haccepted hnumbered, ← haccepted.length_tagCardinality, suffixProducts_getD_zero, hkeyFits]
  exact foldl_weights hdigits hkey hfits

/-- The key and the tags as one list of digits. -/
theorem overallIdx_eq_number (haccepted : Accepted w) (hnumbered : Numbered w) {p : Series} (hp : IsSeriesOf w p) :
    IsDigits (w.keys.length :: w.tagCardinality) (p.1.toNat :: p.2) ∧
      overallIdx w p = number (w.keys.length :: w.tagCardinality) (p.1.toNat :: p.2) := by
  obtain ⟨hnonneg, hlt, hdigits⟩ := hp
  refine ⟨.cons (by omega) hdigits, ?_⟩
  rw [overallIdx_eq haccepted hnumbered ⟨hnonneg, hlt, hdigits⟩, number, Nat.cast_add, Nat.cast_mul, Int.toNat_of_nonneg hnonneg]

/-- **The series are numbered one to one by the numbers below that of all.** -/
theorem bijOn_overallIdx (haccepted : Accepted w) (hnumbered : Numbered w) :
    Set.BijOn (overallIdx w) {p | IsSeriesOf w p} {n | 0 ≤ n ∧ n < seriesOf w} := by
  refine ⟨fun p hp => ?_, fun p hp q hq heq => ?_, fun n hn => ?_⟩
  · obtain ⟨-, hnumber⟩ := overallIdx_eq_number haccepted hnumbered hp
    have hlt := number_lt_seriesOf hp
    rw [← overallIdx_eq haccepted hnumbered hp] at hlt
    exact ⟨by omega, hlt⟩
  · obtain ⟨hp', hpn⟩ := overallIdx_eq_number haccepted hnumbered hp
    obtain ⟨hq', hqn⟩ := overallIdx_eq_number haccepted hnumbered hq
    rw [hpn, hqn, Nat.cast_inj] at heq
    obtain ⟨hkey, htags⟩ := List.cons.inj (number_inj hp' hq' heq)
    obtain ⟨hp0, -, -⟩ := hp
    obtain ⟨hq0, -, -⟩ := hq
    exact Prod.ext (by omega) htags
  · obtain ⟨hnonneg, hlt⟩ := hn
    have hpos : ∀ r ∈ w.keys.length :: w.tagCardinality, 0 < r := List.forall_mem_cons.mpr ⟨haccepted.keys_pos, hnumbered.cards_pos⟩
    have hprod : n.toNat < (w.keys.length :: w.tagCardinality).prod := by
      rw [seriesOf] at hlt
      rw [List.prod_cons, ← Int.ofNat_lt, Nat.cast_mul, Int.toNat_of_nonneg hnonneg]
      exact hlt
    obtain ⟨digits, hdigits, hnumber⟩ := exists_number_eq hpos hprod
    obtain ⟨d, tags, hd, htags, rfl⟩ := List.forall₂_cons_left_iff.mp hdigits
    have hp : IsSeriesOf w ((d : ℤ), tags) := ⟨Int.natCast_nonneg d, Int.ofNat_lt.mpr hd, htags⟩
    refine ⟨((d : ℤ), tags), hp, ?_⟩
    rw [(overallIdx_eq_number haccepted hnumbered hp).2, Int.toNat_natCast, hnumber]
    omega

/-! ### Delays -/

/-- An insert of the series is stored earlier than the current timestamp, by a positive delay. -/
def Delayed (w : TimeSeriesWorkload) (p : Series) : Prop := ∃ delay, delayOf w (overallIdx w p) = .ok delay ∧ 0 < delay

/-- Each insert of the series is stored at the distance of the delay of its number, whatever has been written before. -/
def StoredByNumber (w : TimeSeriesWorkload) (p : Series) : Prop :=
  ∀ s s₁ s' draws point, atTurn w s draws = .ok s₁ → s₁.turn = p → nextDataPoint w s true draws = .ok (point, s') → w.timestampKey ≠ w.valueKey →
    ∃ delay, delayOf w (overallIdx w p) = .ok delay ∧
      point.map.get w.timestampKey = some (.long (asLong (s₁.timestampGenerator.currentTimestamp - delay)))

/-- A series is delayed just if its number is in the part of `delayedseries`, the numbers being those below that of all series. -/
structure DelayedByNumber (w : TimeSeriesWorkload) (p : Series) : Prop where
  /-- The numbers. -/
  bijOn : Set.BijOn (overallIdx w) {p | IsSeriesOf w p} {n | 0 ≤ n ∧ n < w.totalCardinality}
  /-- What is stored is fixed by the number. -/
  stored : StoredByNumber w p
  /-- Whether it is delayed. -/
  delayed : Delayed w p ↔ w.delayedSeries.above (overallIdx w p) w.totalCardinality = true

/-- What an insert is stored under. -/
theorem stored_of_makePoint (hdelayed : w.delayedSeries.positive = true) (hne : w.timestampKey ≠ w.valueKey) {s : ThreadState} {draws : Draws}
    {point : DataPoint} (h : makePoint w s true draws = .ok point) :
    ∃ delay, delayOf w (overallIdx w s.turn) = .ok delay ∧
      point.map.get w.timestampKey = some (.long (asLong (s.timestampGenerator.currentTimestamp - delay))) := by
  obtain ⟨key, -, h⟩ := bind_inv h
  obtain ⟨weight, hweight, h⟩ := bind_inv h
  obtain ⟨t, htags, h⟩ := bind_inv h
  obtain ⟨timestamp, htimestamp, h⟩ := bind_inv h
  obtain ⟨value, -, h⟩ := bind_inv h
  cases h
  rw [overallIdx_eq_turnNumber hdelayed hweight htags, turnNumber_eq, timestampOf, if_neg (by decide)] at htimestamp
  obtain ⟨delay, hdelay, htimestamp⟩ := bind_inv htimestamp
  cases htimestamp
  refine ⟨delay, hdelay, ?_⟩
  rw [SortedMap.get_put, if_neg hne, SortedMap.get_put, if_pos rfl]

theorem storedByNumber (hdelayed : w.delayedSeries.positive = true) (p : Series) : StoredByNumber w p := by
  rintro s s₁ s' draws point hturn rfl hnext hne
  exact stored_of_makePoint hdelayed hne (makePoint_of_nextDataPoint hnext hturn)

/-- **When a series is delayed**: its number is in the part, and leaves a number of intervals whose product with the interval is positive. -/
theorem delayed_iff (hdelayed : w.delayedSeries.positive = true) {p : Series} (hnonneg : 0 ≤ overallIdx w p) :
    Delayed w p ↔ w.delayedSeries.above (overallIdx w p) w.totalCardinality = true ∧ w.delayedIntervals ≠ 0 ∧
      0 < asInt (w.timestampInterval * (overallIdx w p).tmod w.delayedIntervals) := by
  have hmod := Int.tmod_nonneg w.delayedIntervals hnonneg
  rw [Delayed, delayOf, if_pos hdelayed]
  by_cases habove : w.delayedSeries.above (overallIdx w p) w.totalCardinality = true
  · rw [if_pos habove, modulo]
    by_cases hzero : w.delayedIntervals = 0
    · rw [if_pos hzero]
      refine iff_of_false ?_ fun h => h.2.1 hzero
      rintro ⟨delay, hdelay, -⟩
      cases hdelay
    · rw [if_neg hzero, bind_ok rfl]
      dsimp only
      rw [if_neg (by omega)]
      simp [habove, hzero]
  · rw [if_neg habove]
    simp [habove]

end

/-- **The numbers are one to one, and what is stored depends on them alone; a series is delayed as its number says just when a number in the part of
`delayedseries` leaves a number of intervals modulo `delayedintervals` whose product with the interval is positive.** -/
theorem delayedByNumber_iff {properties : Properties} {shuffles : Shuffles} {w : TimeSeriesWorkload} (hinit : init properties shuffles = .ok w)
    (hnumbered : Numbered w) (hdelayed : w.delayedSeries.positive = true) {p : Series} (hp : IsSeriesOf w p) :
    DelayedByNumber w p ↔ (w.delayedSeries.above (overallIdx w p) w.totalCardinality = true →
      w.delayedIntervals ≠ 0 ∧ 0 < asInt (w.timestampInterval * (overallIdx w p).tmod w.delayedIntervals)) := by
  have htotal := totalCardinality_eq hinit hnumbered.cards_pos
  have hbij := bijOn_overallIdx (init_accepted hinit) hnumbered
  have hpos : 0 ≤ seriesOf w := Int.mul_nonneg (Int.natCast_nonneg _) (Int.natCast_nonneg _)
  have hfits := hnumbered.fits
  rw [← seriesOf, asInt_of_fits (by unfold FitsInt; omega)] at htotal
  have hiff := delayed_iff hdelayed (hbij.mapsTo hp).1
  constructor
  · rintro ⟨-, -, hdelay⟩ habove
    exact (hiff.mp (hdelay.mpr habove)).2
  · intro h
    refine ⟨htotal ▸ hbij, storedByNumber hdelayed p, ?_⟩
    rw [hiff]
    exact ⟨fun hand => hand.1, fun habove => ⟨habove, h habove⟩⟩

set_option maxRecDepth 4000 in
/-- Twenty series: one key, and tags with four and five values. -/
theorem exists_twentySeries :
    ∃ w, init (twoTags [some (.of 4), some (.of 5)]) noShuffles = .ok w ∧ Numbered w ∧ w.delayedSeries = Properties.defaults.delayedseries ∧
      w.totalCardinality = 20 ∧ w.delayedIntervals = 5 ∧ w.timestampInterval = 60 ∧ IsSeriesOf w (0, [0, 0]) ∧ overallIdx w (0, [0, 0]) = 0 ∧
      IsSeriesOf w (0, [0, 1]) ∧ overallIdx w (0, [0, 1]) = 1 := by
  obtain ⟨w, hw, hcards, hkeys, hdelayed, htotal, hintervals, hinterval, hpairs⟩ :
      ∃ w, init (twoTags [some (.of 4), some (.of 5)]) noShuffles = .ok w ∧ w.tagCardinality = [4, 5] ∧ w.keys.length = 1 ∧
        w.delayedSeries = Properties.defaults.delayedseries ∧ w.totalCardinality = 20 ∧ w.delayedIntervals = 5 ∧ w.timestampInterval = 60 ∧
        w.tagPairs = 2 := ⟨_, rfl, rfl, rfl, rfl, rfl, rfl, rfl, rfl⟩
  have hweights : w.cumulativeCardinality = [20, 5, 1] := by
    rw [(init_accepted hw).cumulate_eq, hkeys, hcards]
    decide
  refine ⟨w, hw, ⟨by simp [hcards], by simp [seriesOf, hcards, hkeys]⟩, hdelayed, htotal, hintervals, hinterval, ?_, ?_, ?_, ?_⟩
  · rw [IsSeriesOf, hkeys, hcards]
    exact ⟨by decide, by decide, .cons (by decide) (.cons (by decide) .nil)⟩
  · rw [overallIdx, hpairs, hweights]
    decide
  · rw [IsSeriesOf, hkeys, hcards]
    exact ⟨by decide, by decide, .cons (by decide) (.cons (by decide) .nil)⟩
  · rw [overallIdx, hpairs, hweights]
    decide

/-- The second of twenty series is delayed by an interval. -/
theorem delayedByNumber_iff_second :
    ∃ w, init (twoTags [some (.of 4), some (.of 5)]) noShuffles = .ok w ∧ overallIdx w (0, [0, 1]) = 1 ∧ DelayedByNumber w (0, [0, 1]) := by
  obtain ⟨w, hw, hnumbered, hdelayed, -, hintervals, hinterval, -, -, hp, hnumber⟩ := exists_twentySeries
  refine ⟨w, hw, hnumber, (delayedByNumber_iff hw hnumbered (by rw [hdelayed]; rfl) hp).mpr fun _ => ?_⟩
  rw [hnumber, hintervals, hinterval]
  decide

/-- **The first series is not delayed**: it is in the part of `delayedseries`, and stored under the current timestamp. -/
theorem not_delayedByNumber :
    ¬ ∀ (properties : Properties) (shuffles : Shuffles) (w : TimeSeriesWorkload), init properties shuffles = .ok w → Numbered w →
      w.delayedSeries.positive = true → ∀ p, IsSeriesOf w p → DelayedByNumber w p := by
  intro h
  obtain ⟨w, hw, hnumbered, hdelayed, htotal, hintervals, hinterval, hp, hnumber, -, -⟩ := exists_twentySeries
  have hpositive : w.delayedSeries.positive = true := by
    rw [hdelayed]
    rfl
  have habove : w.delayedSeries.above (overallIdx w (0, [0, 0])) w.totalCardinality = true := by
    rw [hdelayed, hnumber, htotal]
    rfl
  have hdelay := (h _ _ w hw hnumbered hpositive _ hp).delayed.mpr habove
  rw [delayed_iff hpositive hnumber.ge, hnumber, hintervals, hinterval] at hdelay
  exact absurd hdelay.2.2 (by decide)

end YcsbIvs.TimeSeries
