import Mathlib.Analysis.Convex.SpecificFunctions.Basic

/-!
# Differences of powers

For an exponent between zero and one the powers of the naturals go up by less and less: the step from `n` to `n + 1` is at most the slope of the power at `n`, and
that is at most the step to `n` (`pow_step_le`, `le_pow_step`). So the slopes between `m` and `n` come to no more than the difference of the powers (`sum_slopes_le`).
-/

namespace YcsbIvs.Foundations

variable {p : ℝ}

/-- The step after `x`. -/
theorem pow_step_le (hp : 0 ≤ p) (hone : p ≤ 1) {x : ℝ} (hx : 0 < x) : (x + 1) ^ p - x ^ p ≤ p * x ^ (p - 1) := by
  have hbernoulli := rpow_one_add_le_one_add_mul_self (s := 1 / x) (by have := one_div_pos.mpr hx; linarith) hp hone
  have hfactor : (x + 1) ^ p = x ^ p * (1 + 1 / x) ^ p := by
    rw [← Real.mul_rpow hx.le (by positivity)]
    congr 1
    field_simp
  have hslope : x ^ (p - 1) = x ^ p * (1 / x) := by rw [Real.rpow_sub_one hx.ne', mul_one_div]
  have hle := mul_le_mul_of_nonneg_left hbernoulli (Real.rpow_nonneg hx.le p)
  rw [hfactor, hslope]
  linarith

/-- The step before `x + 1`. -/
theorem le_pow_step (hp : 0 ≤ p) (hone : p ≤ 1) {x : ℝ} (hx : 0 ≤ x) : p * (x + 1) ^ (p - 1) ≤ (x + 1) ^ p - x ^ p := by
  have hpos : 0 < x + 1 := by linarith
  have hshare : 1 / (x + 1) ≤ 1 := (div_le_one hpos).mpr (by linarith)
  have hbernoulli := rpow_one_add_le_one_add_mul_self (s := -(1 / (x + 1))) (by linarith) hp hone
  have hfactor : x ^ p = (x + 1) ^ p * (1 + -(1 / (x + 1))) ^ p := by
    rw [← Real.mul_rpow hpos.le (by linarith)]
    congr 1
    field_simp
    ring
  have hslope : (x + 1) ^ (p - 1) = (x + 1) ^ p * (1 / (x + 1)) := by rw [Real.rpow_sub_one hpos.ne', mul_one_div]
  have hle := mul_le_mul_of_nonneg_left hbernoulli (Real.rpow_nonneg hpos.le p)
  rw [hslope]
  linarith

/-- **The steps go down.** -/
theorem pow_steps_antitone (hp : 0 ≤ p) (hone : p ≤ 1) {x : ℝ} (hx : 0 ≤ x) : (x + 1 + 1) ^ p - (x + 1) ^ p ≤ (x + 1) ^ p - x ^ p :=
  (pow_step_le hp hone (by linarith)).trans (le_pow_step hp hone hx)

/-- **The slopes between two naturals.** -/
theorem sum_slopes_le (hp : 0 ≤ p) (hone : p ≤ 1) {m n : ℕ} (h : m ≤ n) :
    p * ∑ i ∈ Finset.Ico m n, ((i : ℝ) + 1) ^ (p - 1) ≤ (n : ℝ) ^ p - (m : ℝ) ^ p := by
  induction n, h using Nat.le_induction with
  | base => simp
  | succ n hmn ih =>
    rw [Finset.sum_Ico_succ_top hmn, mul_add, Nat.cast_succ]
    have hstep := le_pow_step hp hone (Nat.cast_nonneg (α := ℝ) n)
    linarith

end YcsbIvs.Foundations
