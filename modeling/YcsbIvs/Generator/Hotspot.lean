import YcsbIvs.Generator.Timestamps
import Mathlib.Data.Rat.Floor

/-!
# Hot and cold items

`HotspotIntegerGenerator` draws a number of an interval: one of its first numbers, the hot ones, for a given fraction
of the draws, and one of the others, the cold ones, for the rest. How many are hot is a fraction of the interval, cut off
after the point; so there may be none of either kind, and then the remainder by their number is one by zero. Besides, `Math.abs` of the least
`long` is negative, and so is a remainder of it that is not zero.

The fractions and what `nextDouble()` draws are exact here.

**A draw gives a number of its kind just if there is one, and the draw is not the least `long`, or leaves no remainder**
(`serves_iff`). This is for an interval whose size fits a `long`; for a larger one the size is negative, and only a cold draw may do.
-/

namespace YcsbIvs.Generator

open YcsbIvs.Foundations

/-! ### Remainders of a draw -/

/-- The remainder of `Math.abs` of a draw is negative only for the least `long`. -/
theorem tmod_abs_bounds {draw n : ℤ} (hdraw : FitsLong draw) (hn : n ≠ 0) :
    -(n.natAbs : ℤ) < (asLong draw.natAbs).tmod n ∧ (asLong draw.natAbs).tmod n < n.natAbs ∧
      (0 ≤ (asLong draw.natAbs).tmod n ↔ draw ≠ -2 ^ 63 ∨ n ∣ 2 ^ 63) := by
  have hlt : ((asLong draw.natAbs).tmod n).natAbs < n.natAbs := by
    rw [Int.natAbs_tmod]
    exact Nat.mod_lt _ (Int.natAbs_pos.mpr hn)
  refine ⟨by omega, by omega, ?_⟩
  by_cases hmin : draw = -2 ^ 63
  · have habs : asLong draw.natAbs = -2 ^ 63 := by
      rw [hmin]
      decide
    have hnonneg : 0 ≤ (2 ^ 63 : ℤ).tmod n := Int.tmod_nonneg n (by decide)
    rw [habs, Int.neg_tmod]
    constructor
    · exact fun h => .inr (Int.dvd_of_tmod_eq_zero (by omega))
    · rintro (h | h)
      · exact absurd hmin h
      · rw [Int.tmod_eq_zero_of_dvd h]
        decide
  · have habs : asLong draw.natAbs = draw.natAbs := by
      unfold FitsLong at hdraw
      exact asLong_of_fits (by unfold FitsLong; omega)
    rw [habs]
    exact ⟨fun _ => .inl hmin, fun _ => Int.tmod_nonneg n (by omega)⟩

/-! ### The generator -/

/-- `(int) x`. -/
def ratToInt (x : ℚ) : ℤ := max (-2 ^ 31) (min (2 ^ 31 - 1) (if 0 ≤ x then ⌊x⌋ else ⌈x⌉))

/-- `HotspotIntegerGenerator`. -/
structure HotspotIntegerGenerator where
  /-- The least number. -/
  lowerBound : ℤ
  /-- The greatest number. -/
  upperBound : ℤ
  /-- How many are hot. -/
  hotInterval : ℤ
  /-- How many are cold. -/
  coldInterval : ℤ
  /-- The fraction of the draws that are hot. -/
  hotOpnFraction : ℚ

namespace HotspotIntegerGenerator

/-- A fraction, or 0 if it is out of range. -/
def fractionOrZero (x : ℚ) : ℚ := if x < 0 ∨ 1 < x then 0 else x

/-- `new HotspotIntegerGenerator(lowerBound, upperBound, hotsetFraction, hotOpnFraction)`. -/
def new (lowerBound upperBound : ℤ) (hotsetFraction hotOpnFraction : ℚ) : HotspotIntegerGenerator :=
  let lb := if upperBound < lowerBound then upperBound else lowerBound
  let ub := if upperBound < lowerBound then lowerBound else upperBound
  let interval := asLong (ub - lb + 1)
  let hotInterval := ratToInt (interval * fractionOrZero hotsetFraction)
  ⟨lb, ub, hotInterval, asLong (interval - hotInterval), fractionOrZero hotOpnFraction⟩

/-- `nextValue()`, if `nextDouble()` gives `operation` and `nextLong()` gives `draw`. -/
def nextValue (g : HotspotIntegerGenerator) (operation : ℚ) (draw : ℤ) : Except Thrown ℤ :=
  if operation < g.hotOpnFraction then do
    let r ← modulo (asLong draw.natAbs) g.hotInterval
    .ok (asLong (g.lowerBound + r))
  else do
    let r ← modulo (asLong draw.natAbs) g.coldInterval
    .ok (asLong (g.lowerBound + g.hotInterval + r))

/-- `nextValue()` does not throw, and gives a number of the interval that is hot just if the operation is. -/
def Serves (g : HotspotIntegerGenerator) (operation : ℚ) (draw : ℤ) : Prop :=
  ∃ value, g.nextValue operation draw = .ok value ∧ g.lowerBound ≤ value ∧ value ≤ g.upperBound ∧
    if operation < g.hotOpnFraction then value < g.lowerBound + g.hotInterval else g.lowerBound + g.hotInterval ≤ value

/-- There are numbers of the kind, and the draw is not the least `long`, or leaves no remainder. Where the size of the interval does not
fit a `long`, there are no hot numbers, and a cold draw has to make up for their negative number. -/
def CanServe (g : HotspotIntegerGenerator) (operation : ℚ) (draw : ℤ) : Prop :=
  let size := if operation < g.hotOpnFraction then g.hotInterval else g.coldInterval
  size ≠ 0 ∧
    if g.upperBound - g.lowerBound + 1 < 2 ^ 63 then draw ≠ -2 ^ 63 ∨ size ∣ 2 ^ 63
    else ¬ operation < g.hotOpnFraction ∧ 0 ≤ g.hotInterval + (asLong draw.natAbs).tmod size

/-! ### When it serves -/

/-- The part of an interval that is hot. -/
theorem ratToInt_mul_bounds {q : ℚ} (hq : 0 ≤ q) (hq' : q ≤ 1) (n : ℤ) :
    (0 ≤ n → 0 ≤ ratToInt (n * q) ∧ ratToInt (n * q) ≤ n) ∧ (n ≤ 0 → n ≤ ratToInt (n * q) ∧ ratToInt (n * q) ≤ 0) := by
  rw [ratToInt]
  constructor
  · intro hn
    have hn' : (0 : ℚ) ≤ n := Int.cast_nonneg hn
    have hpos : 0 ≤ n * q := mul_nonneg hn' hq
    have hle : ⌊(n : ℚ) * q⌋ ≤ n := by
      rw [← Int.floor_intCast (R := ℚ) n]
      exact Int.floor_le_floor (by simpa using mul_le_of_le_one_right hn' hq')
    have hfloor : 0 ≤ ⌊(n : ℚ) * q⌋ := Int.floor_nonneg.mpr hpos
    rw [if_pos hpos]
    omega
  · intro hn
    have hn' : (n : ℚ) ≤ 0 := Int.cast_nonpos.mpr hn
    have hneg : n * q ≤ 0 := mul_nonpos_of_nonpos_of_nonneg hn' hq
    have hle : (n : ℚ) ≤ n * q := le_mul_of_le_one_right hn' hq'
    by_cases hzero : 0 ≤ (n : ℚ) * q
    · rw [if_pos hzero, le_antisymm hneg hzero, Int.floor_zero]
      omega
    · have hceil : n ≤ ⌈(n : ℚ) * q⌉ := Int.cast_le.mp (hle.trans (Int.le_ceil _))
      have hceil' : ⌈(n : ℚ) * q⌉ ≤ 0 := Int.ceil_le.mpr (by simpa using hneg)
      rw [if_neg hzero]
      omega

theorem fractionOrZero_bounds (x : ℚ) : 0 ≤ fractionOrZero x ∧ fractionOrZero x ≤ 1 := by
  rw [fractionOrZero]
  split_ifs with h
  · exact ⟨le_refl 0, zero_le_one⟩
  · rw [not_or, not_lt, not_lt] at h
    exact h

theorem new_bounds {lowerBound upperBound : ℤ} (h : lowerBound ≤ upperBound) (hotsetFraction hotOpnFraction : ℚ) :
    (new lowerBound upperBound hotsetFraction hotOpnFraction).lowerBound = lowerBound ∧
      (new lowerBound upperBound hotsetFraction hotOpnFraction).upperBound = upperBound :=
  ⟨if_neg (not_lt.mpr h), if_neg (not_lt.mpr h)⟩

/-- What holds of a generator that has been made. -/
structure Made (g : HotspotIntegerGenerator) : Prop where
  /-- The bounds are in order. -/
  le : g.lowerBound ≤ g.upperBound
  /-- The least number is a `long`. -/
  lower : FitsLong g.lowerBound
  /-- The greatest is. -/
  upper : FitsLong g.upperBound
  /-- The numbers of hot and cold ones add up to the size of the interval. -/
  add : g.hotInterval + g.coldInterval = asLong (g.upperBound - g.lowerBound + 1)
  /-- They are not negative if the size is not. -/
  nonneg : 0 ≤ asLong (g.upperBound - g.lowerBound + 1) → 0 ≤ g.hotInterval ∧ 0 ≤ g.coldInterval
  /-- They are not positive if it is not. -/
  nonpos : asLong (g.upperBound - g.lowerBound + 1) ≤ 0 → g.hotInterval ≤ 0 ∧ g.coldInterval ≤ 0

theorem made_new {lowerBound upperBound : ℤ} (hlower : FitsLong lowerBound) (hupper : FitsLong upperBound) (hotsetFraction hotOpnFraction : ℚ) :
    Made (new lowerBound upperBound hotsetFraction hotOpnFraction) := by
  obtain ⟨hfraction, hfraction'⟩ := fractionOrZero_bounds hotsetFraction
  obtain ⟨lb, hlb⟩ : ∃ lb, lb = if upperBound < lowerBound then upperBound else lowerBound := ⟨_, rfl⟩
  obtain ⟨ub, hub⟩ : ∃ ub, ub = if upperBound < lowerBound then lowerBound else upperBound := ⟨_, rfl⟩
  obtain ⟨interval, hinterval⟩ : ∃ interval, interval = asLong (ub - lb + 1) := ⟨_, rfl⟩
  obtain ⟨hot, hhot⟩ : ∃ hot, hot = ratToInt (interval * fractionOrZero hotsetFraction) := ⟨_, rfl⟩
  have hnew : new lowerBound upperBound hotsetFraction hotOpnFraction = ⟨lb, ub, hot, asLong (interval - hot), fractionOrZero hotOpnFraction⟩ := by
    rw [hhot, hinterval, hub, hlb]
    rfl
  have hbounds := ratToInt_mul_bounds hfraction hfraction' interval
  have hfits : FitsLong interval := hinterval ▸ fitsLong_asLong _
  rw [← hhot] at hbounds
  have hcold : asLong (interval - hot) = interval - hot := by
    refine asLong_of_fits ?_
    unfold FitsLong at *
    omega
  rw [hnew, hcold]
  refine ⟨?_, ?_, ?_, ?_, ?_, ?_⟩ <;> dsimp only
  · split_ifs at hlb hub <;> omega
  · split_ifs at hlb
    · exact hlb ▸ hupper
    · exact hlb ▸ hlower
  · split_ifs at hub
    · exact hub ▸ hlower
    · exact hub ▸ hupper
  · omega
  · rw [← hinterval]
    omega
  · rw [← hinterval]
    omega

/-- **A draw gives a number of its kind**, without a remainder by zero, just if there is one, and the draw is not the least `long`, or leaves no
remainder. -/
theorem serves_iff {lowerBound upperBound : ℤ} (hlower : FitsLong lowerBound) (hupper : FitsLong upperBound) (hotsetFraction hotOpnFraction : ℚ)
    (operation : ℚ) {draw : ℤ} (hdraw : FitsLong draw) :
    Serves (new lowerBound upperBound hotsetFraction hotOpnFraction) operation draw ↔
      CanServe (new lowerBound upperBound hotsetFraction hotOpnFraction) operation draw := by
  have hmade := made_new hlower hupper hotsetFraction hotOpnFraction
  generalize new lowerBound upperBound hotsetFraction hotOpnFraction = g at hmade ⊢
  obtain ⟨hle, hlb, hub, hadd, hnonneg, hnonpos⟩ := hmade
  rw [Serves, CanServe, nextValue]
  by_cases hop : operation < g.hotOpnFraction
  · simp only [if_pos hop, modulo]
    by_cases hzero : g.hotInterval = 0
    · rw [if_pos hzero]
      exact ⟨fun ⟨v, hv, _⟩ => (nomatch hv), fun h => absurd hzero h.1⟩
    · obtain ⟨hk, hk', hsign⟩ := tmod_abs_bounds hdraw hzero
      rw [if_neg hzero, ← hsign]
      generalize (asLong draw.natAbs).tmod g.hotInterval = k at *
      unfold FitsLong asLong at *
      constructor
      · rintro ⟨v, hv, hge, hle', hhot⟩
        have hvalue := Except.ok.inj hv
        refine ⟨hzero, ?_⟩
        split_ifs <;> omega
      · rintro ⟨-, h⟩
        split_ifs at h with hsize
        · exact ⟨_, rfl, by omega, by omega, by omega⟩
        · exact absurd hop h.1
  · simp only [if_neg hop, modulo]
    by_cases hzero : g.coldInterval = 0
    · rw [if_pos hzero]
      exact ⟨fun ⟨v, hv, _⟩ => (nomatch hv), fun h => absurd hzero h.1⟩
    · obtain ⟨hk, hk', hsign⟩ := tmod_abs_bounds hdraw hzero
      rw [if_neg hzero, ← hsign]
      generalize (asLong draw.natAbs).tmod g.coldInterval = k at *
      unfold FitsLong asLong at *
      constructor
      · rintro ⟨v, hv, hge, hle', hcold⟩
        have hvalue := Except.ok.inj hv
        refine ⟨hzero, ?_⟩
        split_ifs
        · omega
        · exact ⟨hop, by omega⟩
      · rintro ⟨-, h⟩
        split_ifs at h with hsize
        · exact ⟨_, rfl, by omega, by omega, by omega⟩
        · obtain ⟨-, h⟩ := h
          exact ⟨_, rfl, by omega, by omega, by omega⟩

set_option maxRecDepth 4000 in
theorem serves_iff_five : Serves (new 0 9 (3 / 10) (1 / 2)) 0 5 :=
  (serves_iff (by decide) (by decide) (3 / 10) (1 / 2) 0 (by decide)).mpr (by unfold CanServe; decide +kernel)

set_option maxRecDepth 4000 in
/-- Of ten numbers, none are hot; or three are, and the draw is the least `long`. -/
theorem not_serves : ¬ Serves (new 0 9 0 (1 / 2)) 0 5 ∧ ¬ Serves (new 0 9 (3 / 10) (1 / 2)) 0 (-2 ^ 63) := by
  have hzero : nextValue (new 0 9 0 (1 / 2)) 0 5 = .error .arithmetic := by decide +kernel
  have hleast : nextValue (new 0 9 (3 / 10) (1 / 2)) 0 (-2 ^ 63) = .ok (-2) := by decide +kernel
  constructor
  · rintro ⟨v, hv, -⟩
    rw [hzero] at hv
    cases hv
  · rintro ⟨v, hv, hge, -⟩
    rw [hleast] at hv
    cases hv
    exact absurd hge (by decide +kernel)

end HotspotIntegerGenerator

end YcsbIvs.Generator
