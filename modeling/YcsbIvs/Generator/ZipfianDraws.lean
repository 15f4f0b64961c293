import YcsbIvs.Foundations.Powers
import YcsbIvs.Foundations.Shares
import YcsbIvs.Generator.Zipfian

/-!
# How often a Zipfian number is drawn

`nextValue()` of a `ZipfianGenerator` makes a number out of `u`, which is at least zero and less than one. In exact arithmetic, with an exponent between zero and one:
the `u` of a number are an interval (`drawn_iff`), these intervals are one after the other and fill up the unit interval, so that all numbers of the range are drawn and no
others (`popularity_sum`), and **no number is drawn more often than the one before** (`popularity_antitone`). The first two have exactly the share of their weights; the
others share the rest by an approximation, a power of `u`.
-/

namespace YcsbIvs.Generator

open YcsbIvs.Foundations

namespace ZipfianGenerator

/-- `eta`. -/
noncomputable def exactEta (n : ℕ) (theta : ℝ) : ℝ := (1 - (2 / (n : ℝ)) ^ (1 - theta)) / (1 - zeta 2 theta / zeta n theta)

/-- Where the interval of a number begins. -/
noncomputable def bound (n : ℕ) (theta : ℝ) : ℕ → ℝ
  | 0 => 0
  | 1 => 1 / zeta n theta
  | k + 2 => 1 - (1 - (((k + 2 : ℕ) : ℝ) / n) ^ (1 - theta)) / exactEta n theta

/-- The lengths of the intervals. -/
noncomputable def popularity (n : ℕ) (theta : ℝ) : List ℝ := (List.range n).map fun k => bound n theta (k + 1) - bound n theta k

/-! ### The bounds -/

section

variable {n : ℕ} {theta : ℝ}

theorem zeta_one (theta : ℝ) : zeta 1 theta = 1 := by simp [zeta]

theorem zeta_two (theta : ℝ) : zeta 2 theta = 1 + (1 / 2 : ℝ) ^ theta := by
  rw [zeta, Finset.sum_range_succ, Finset.sum_range_one, Real.div_rpow (by norm_num) (by norm_num)]
  norm_num

theorem zeta_le {m : ℕ} (h : m ≤ n) (theta : ℝ) : zeta m theta ≤ zeta n theta := (zeta_strictMono theta).monotone h

/-- The weights after the second. -/
theorem zeta_sub_two (h : 2 ≤ n) (theta : ℝ) : zeta n theta - zeta 2 theta = ∑ i ∈ Finset.Ico 2 n, ((i : ℝ) + 1) ^ (-theta) := by
  rw [zeta, zeta, ← Finset.sum_range_add_sum_Ico _ h, add_sub_cancel_left]
  refine Finset.sum_congr rfl fun i _ => ?_
  rw [Real.rpow_neg (by positivity), one_div]

section Three

variable (hn : 3 ≤ n) (hone : theta < 1)
include hn

theorem rest_pos (theta : ℝ) : 0 < 1 - zeta 2 theta / zeta n theta := by
  have hlt : zeta 2 theta < zeta n theta := zeta_strictMono theta (by omega)
  exact sub_pos.mpr ((div_lt_one (zeta_pos (by omega) theta)).mpr hlt)

include hone

theorem power_two_lt : (2 / (n : ℝ)) ^ (1 - theta) < 1 := by
  have hlt : (2 : ℝ) < n := by exact_mod_cast hn
  exact Real.rpow_lt_one (by positivity) ((div_lt_one (by linarith)).mpr hlt) (by linarith)

theorem eta_pos : 0 < exactEta n theta := div_pos (sub_pos.mpr (power_two_lt hn hone)) (rest_pos hn theta)

/-- The bounds after the second, in terms of the power of `u`. -/
theorem bound_le_iff (k : ℕ) (u : ℝ) : bound n theta (k + 2) ≤ u ↔ (((k + 2 : ℕ) : ℝ) / n) ^ (1 - theta) ≤ 1 - exactEta n theta * (1 - u) := by
  have hpos := eta_pos hn hone
  rw [bound, sub_le_comm, le_div_iff₀ hpos, mul_comm, le_sub_comm]

/-- The two formulas meet at the second bound. -/
theorem bound_two : bound n theta 2 = zeta 2 theta / zeta n theta := by
  have hrest := (rest_pos hn theta).ne'
  have hpow := (sub_pos.mpr (power_two_lt hn hone)).ne'
  rw [bound, exactEta, Nat.zero_add, Nat.cast_ofNat, div_div_eq_mul_div, mul_comm, mul_div_assoc, div_self hpow]
  ring

end Three

theorem bound_last (hn : 1 ≤ n) (theta : ℝ) : bound n theta n = 1 := by
  match n, hn with
  | 1, _ => rw [bound, zeta_one, div_one]
  | n + 2, _ => rw [bound, div_self (by positivity), Real.one_rpow, sub_self, zero_div, sub_zero]

/-- **The intervals are one after the other.** -/
theorem upTo_popularity {k : ℕ} (h : k ≤ n) (theta : ℝ) : upTo (popularity n theta) k = bound n theta k := by
  rw [upTo, popularity, ← List.map_take, List.take_range, min_eq_left h]
  clear h
  induction k with
  | zero => rfl
  | succ k ih =>
    rw [List.range_succ, List.map_append, List.sum_append, ih, List.map_singleton, List.sum_singleton]
    ring

/-- They fill up the unit interval. -/
theorem popularity_sum (hn : 1 ≤ n) (theta : ℝ) : (popularity n theta).sum = 1 := by
  have hlength : (popularity n theta).length = n := by simp [popularity]
  have hall := upTo_popularity le_rfl theta (n := n)
  rw [upTo, List.take_of_length_le hlength.le] at hall
  rw [hall, bound_last hn]

end

/-! ### The number of a draw -/

/-- Which number `u` gives, from the least one on. -/
noncomputable def rank (n : ℕ) (theta u : ℝ) : ℕ :=
  if u * zeta n theta < 1 then 0
  else if u * zeta n theta < zeta 2 theta then 1
  else ⌊(n : ℝ) * (1 - exactEta n theta * (1 - u)) ^ (1 - theta)⁻¹⌋₊

/-- **Each `u` is in the interval of its number.** -/
theorem rank_inShare {n : ℕ} {theta u : ℝ} (hn : 1 ≤ n) (hone : theta < 1) (hu : 0 ≤ u) (hlt : u < 1) : InShare (popularity n theta) (rank n theta u) u := by
  have hzeta := zeta_pos hn theta
  have hlength : (popularity n theta).length = n := by simp [popularity]
  suffices h : rank n theta u < n ∧ bound n theta (rank n theta u) ≤ u ∧ u < bound n theta (rank n theta u + 1) by
    rw [InShare, hlength, upTo_popularity h.1.le, upTo_popularity h.1]
    exact h
  rw [rank]
  split_ifs with hfirst hsecond
  · exact ⟨hn, hu, (lt_div_iff₀ hzeta).mpr hfirst⟩
  · have htwo : 2 ≤ n := by
      by_contra hnot
      obtain rfl : n = 1 := by omega
      rw [zeta_one, mul_one] at hfirst
      exact hfirst hlt
    refine ⟨htwo, (div_le_iff₀ hzeta).mpr (not_lt.mp hfirst), ?_⟩
    rcases htwo.eq_or_lt with rfl | hthree
    · rw [bound_last (by decide)]
      exact hlt
    · rw [bound_two hthree hone]
      exact (lt_div_iff₀ hzeta).mpr hsecond
  · have hthree : 3 ≤ n := by
      by_contra hnot
      have hle := zeta_le (show n ≤ 2 by omega) theta
      have hmul := mul_lt_mul_of_pos_right hlt hzeta
      rw [one_mul] at hmul
      exact hsecond (hmul.trans_le hle)
    have hitems : (0 : ℝ) < n := by positivity
    have hp : 0 < 1 - theta := by linarith
    have hsecond : bound n theta 2 ≤ u := by
      rw [bound_two hthree hone]
      exact (div_le_iff₀ hzeta).mpr (not_lt.mp hsecond)
    have hpower := (bound_le_iff hthree hone 0 u).mp hsecond
    have heta := mul_pos (eta_pos hthree hone) (show 0 < 1 - u by linarith)
    generalize hx : 1 - exactEta n theta * (1 - u) = x at hpower
    have hpos : 0 ≤ x := le_trans (by positivity) hpower
    have hle : ∀ k : ℕ, (k : ℝ) ≤ n * x ^ (1 - theta)⁻¹ ↔ ((k : ℝ) / n) ^ (1 - theta) ≤ x := fun k => by
      rw [← div_le_iff₀' hitems, Real.le_rpow_inv_iff_of_pos (by positivity) hpos hp]
    have hrank : ∀ k : ℕ, k ≤ ⌊(n : ℝ) * x ^ (1 - theta)⁻¹⌋₊ ↔ ((k : ℝ) / n) ^ (1 - theta) ≤ x := fun k => by
      rw [Nat.le_floor_iff (by positivity), hle]
    -- the floor is at least two, and below `n`
    obtain ⟨k, hk⟩ := Nat.exists_eq_add_of_le' ((hrank 2).mpr hpower)
    rw [hk]
    refine ⟨?_, ?_, ?_⟩
    · rw [← hk, ← not_le, hrank, div_self hitems.ne', Real.one_rpow]
      linarith
    · rw [bound_le_iff hthree hone, hx]
      exact (hrank (k + 2)).mp hk.ge
    · refine not_le.mp fun hc => ?_
      have habove := (hrank (k + 1 + 2)).mpr (hx ▸ (bound_le_iff hthree hone (k + 1) u).mp hc)
      omega

/-! ### The generator -/

/-- What does not change. -/
structure Fixed {D : Type} (base : ℤ) (alpha : D) (g : ZipfianGenerator D) : Prop where
  /-- The least number. -/
  base : g.base = base
  /-- The exponent of the powers of `u`. -/
  alpha : g.alpha = alpha

section

variable {D : Type} {A : Arithmetic D} {base : ℤ} {alpha : D} {g : ZipfianGenerator D}

theorem Fixed.nextLong (h : Fixed base alpha g) (itemcount : ℤ) (u : D) : Fixed base alpha (g.nextLong A itemcount u).2 := by
  obtain ⟨lastVal, heq⟩ := nextLong_eq (A := A) g itemcount u
  obtain ⟨zetan, eta, countforzeta, hrec⟩ := recompute_eq (A := A) g itemcount
  rw [heq, hrec]
  exact ⟨h.base, h.alpha⟩

theorem Fixed.nextLongs (h : Fixed base alpha g) (calls : List (ℤ × D)) : Fixed base alpha (g.nextLongs A calls) := by
  induction calls generalizing g with
  | nil => exact h
  | cons call calls ih => exact ih (h.nextLong call.1 call.2)

theorem fixed_new (min max : ℤ) (theta u : D) : Fixed min (A.div (A.ofRat 1) (A.sub (A.ofRat 1) theta)) (new A min max theta u) := by
  have hdraw : ∀ (g : ZipfianGenerator D) n, Fixed min (A.div (A.ofRat 1) (A.sub (A.ofRat 1) theta)) g →
      Fixed min (A.div (A.ofRat 1) (A.sub (A.ofRat 1) theta)) (g.nextLong A n u).2 := fun _ n h => h.nextLong n u
  exact hdraw _ _ ⟨rfl, rfl⟩

end

/-- A cast of a number that is not too large. -/
theorem toLong_reals {x : ℝ} (h : 0 ≤ x) (hlt : x < 2 ^ 63) : reals.toLong (some x) = ⌊x⌋₊ := by
  have hfloor : ⌊x⌋ < 2 ^ 63 := Int.floor_lt.mpr (by exact_mod_cast hlt)
  have hnonneg : 0 ≤ ⌊x⌋ := Int.floor_nonneg.mpr h
  show max (-2 ^ 63) (min (2 ^ 63 - 1) (if 0 ≤ x then ⌊x⌋ else ⌈x⌉)) = _
  rw [if_pos h, min_eq_right (by omega), max_eq_right (by omega), Int.natCast_floor_eq_floor h]

/-- The number that is drawn. -/
theorem nextLong_fst {min : ℤ} {n : ℕ} {theta u : ℝ} {g : ZipfianGenerator (Option ℝ)} (hkept : Kept reals n n (some theta) g)
    (hfixed : Fixed min (reals.div (reals.ofRat 1) (reals.sub (reals.ofRat 1) (some theta))) g) (hn : 1 ≤ n) (hone : theta < 1) (hu : 0 ≤ u) (hlt : u < 1)
    (hmin : FitsLong min) (hmax : FitsLong (min + n - 1)) (hitems : FitsLong n) :
    (g.nextLong reals n (some u)).1 = min + rank n theta u := by
  have hzeta := zeta_pos hn theta
  have hin := rank_inShare hn hone hu hlt
  have hrank : rank n theta u < n := by
    have hlength := hin.1
    simpa [popularity] using hlength
  have hsame : g.recompute reals n = g := by rw [recompute, if_neg (not_not.mpr hkept.countforzeta.symm)]
  have hzetan : g.zetan = some (zeta n theta) := hkept.zetan.trans (zetastatic_reals n theta)
  have htwo : reals.add (reals.ofRat 1) (reals.pow (reals.ofRat (1 / 2)) g.theta) = some (zeta 2 theta) := by
    rw [hkept.theta, reals.ofRat_eq, reals.ofRat_eq, reals.pow_some (by norm_num), reals.add_some, zeta_two]
    norm_num
  have hltl : ∀ x y : ℝ, (reals.lt (some x) (some y) = true) = (x < y) := fun x y => decide_eq_true_eq
  have hunit : reals.ofRat 1 = some 1 := by rw [reals.ofRat_eq, Rat.cast_one]
  unfold FitsLong at hmin hmax hitems
  rw [nextLong, hsame]
  dsimp only
  rw [htwo, hzetan, hunit, reals.mul_some]
  simp only [hltl]
  rw [rank] at hrank ⊢
  split_ifs at hrank ⊢ with hfirst hsecond
  · rw [hfixed.base, Nat.cast_zero, add_zero]
  · rw [hfixed.base, Nat.cast_one]
    exact asLong_of_fits (by unfold FitsLong; omega)
  · have hthree : 3 ≤ n := by
      by_contra hnot
      have hle := zeta_le (show n ≤ 2 by omega) theta
      have hmul := mul_lt_mul_of_pos_right hlt hzeta
      rw [one_mul] at hmul
      exact hsecond (hmul.trans_le hle)
    have hp : 1 - theta ≠ 0 := by linarith
    have heta : g.eta = some (exactEta n theta) := by
      have hzetas : zetastatic reals 0 2 (some theta) (reals.ofRat 0) = some (zeta 2 theta) := zetastatic_reals 2 theta
      rw [hkept.eta, hkept.zeta2theta, hzetas, hzetan, etaOf_some (by omega) (by omega) (by omega), exactEta]
    have halpha : g.alpha = some (1 - theta)⁻¹ := by rw [hfixed.alpha, hunit, reals.sub_some, reals.div_some _ hp, one_div]
    have hbase : exactEta n theta * u - exactEta n theta + 1 = 1 - exactEta n theta * (1 - u) := by ring
    have hpos : 0 < 1 - exactEta n theta * (1 - u) := by
      have hsecond : bound n theta 2 ≤ u := by
        rw [bound_two hthree hone]
        exact (div_le_iff₀ hzeta).mpr (not_lt.mp hsecond)
      exact lt_of_lt_of_le (by positivity) ((bound_le_iff hthree hone 0 u).mp hsecond)
    have hcast : ((n : ℤ) : ℚ) = (n : ℚ) := by norm_cast
    rw [heta, halpha, hfixed.base, reals.mul_some, reals.sub_some, reals.add_some, hbase, reals.pow_some hpos, hcast, reals.ofRat_eq, Rat.cast_natCast,
      reals.mul_some, toLong_reals (by positivity)]
    · exact asLong_of_fits (by unfold FitsLong; omega)
    · have hfloor := Nat.lt_of_floor_lt hrank
      have hbig : (n : ℝ) < 2 ^ 63 := by exact_mod_cast hitems.2
      exact hfloor.trans hbig

/-! ### The popularity -/

section

variable {n : ℕ} {theta : ℝ}

theorem length_popularity (n : ℕ) (theta : ℝ) : (popularity n theta).length = n := by simp [popularity]

theorem getElem_popularity {k : ℕ} (h : k < (popularity n theta).length) : (popularity n theta)[k] = bound n theta (k + 1) - bound n theta k := by
  simp [popularity]

/-- The first two numbers have the shares of their weights. -/
theorem bound_two_eq (hn : 2 ≤ n) (hone : theta < 1) : bound n theta 2 = zeta 2 theta / zeta n theta := by
  rcases hn.eq_or_lt with htwo | hthree
  · subst htwo
    rw [bound_last (by decide), div_self (zeta_pos (by decide) theta).ne']
  · exact bound_two hthree hone

/-- No interval is empty. -/
theorem bound_lt_succ (hone : theta < 1) {k : ℕ} (h : k < n) : bound n theta k < bound n theta (k + 1) := by
  have hzeta := zeta_pos (show 0 < n by omega) theta
  match k with
  | 0 =>
    rw [bound, bound]
    positivity
  | 1 =>
    rw [bound_two_eq h hone, bound, zeta_two]
    have hhalf : (0 : ℝ) < (1 / 2) ^ theta := by positivity
    gcongr
    linarith
  | k + 2 =>
    have hthree : 3 ≤ n := by omega
    have hpos := eta_pos hthree hone
    have hmono : (((k + 2 : ℕ) : ℝ) / n) ^ (1 - theta) < (((k + 1 + 2 : ℕ) : ℝ) / n) ^ (1 - theta) := by
      refine Real.rpow_lt_rpow (by positivity) ?_ (by linarith)
      have hitems : (0 : ℝ) < n := by positivity
      gcongr
      omega
    rw [bound, bound]
    gcongr

/-- The lengths of the intervals after the second. -/
theorem step_eq (n : ℕ) (theta : ℝ) (k : ℕ) :
    bound n theta (k + 3) - bound n theta (k + 2) =
      ((((k + 2 : ℕ) : ℝ) + 1) ^ (1 - theta) - ((k + 2 : ℕ) : ℝ) ^ (1 - theta)) / ((n : ℝ) ^ (1 - theta) * exactEta n theta) := by
  have hpow : ∀ j : ℕ, ((j : ℝ) / n) ^ (1 - theta) = (j : ℝ) ^ (1 - theta) / (n : ℝ) ^ (1 - theta) := fun j =>
    Real.div_rpow (Nat.cast_nonneg j) (Nat.cast_nonneg n) _
  rw [bound, bound, hpow, hpow, ← Nat.cast_succ, div_mul_eq_div_div]
  ring

/-- `eta` of three items or more, by the powers. -/
theorem pow_mul_eta (hn : 3 ≤ n) (theta : ℝ) :
    (n : ℝ) ^ (1 - theta) * exactEta n theta = ((n : ℝ) ^ (1 - theta) - 2 ^ (1 - theta)) * zeta n theta / (zeta n theta - zeta 2 theta) := by
  have hzeta := (zeta_pos (show 0 < n by omega) theta).ne'
  have hrest : zeta n theta - zeta 2 theta ≠ 0 := (sub_pos.mpr (zeta_strictMono theta (show 2 < n by omega))).ne'
  have hitems : (n : ℝ) ^ (1 - theta) ≠ 0 := (Real.rpow_pos_of_pos (by positivity) _).ne'
  rw [exactEta, Real.div_rpow (by norm_num) (Nat.cast_nonneg n), one_sub_div hzeta, one_sub_div hitems]
  field_simp

/-- **No interval is longer than the one before.** -/
theorem step_le (hnonneg : 0 ≤ theta) (hone : theta < 1) {k : ℕ} (h : k + 2 ≤ n) :
    bound n theta (k + 2) - bound n theta (k + 1) ≤ bound n theta (k + 1) - bound n theta k := by
  have hzeta := zeta_pos (show 0 < n by omega) theta
  have hp : 0 ≤ 1 - theta := by linarith
  have hpone : 1 - theta ≤ 1 := by linarith
  match k with
  | 0 =>
    have hhalf : (1 / 2 : ℝ) ^ theta ≤ 1 := Real.rpow_le_one (by norm_num) (by norm_num) hnonneg
    rw [bound_two_eq h hone, bound, bound, zeta_two, sub_zero, ← sub_div]
    gcongr
    linarith
  | 1 =>
    -- the step from two to three is at most the slope at two, and the weights after the second at most the slopes after it
    have hthree : 3 ≤ n := h
    have hrest : 0 < zeta n theta - zeta 2 theta := sub_pos.mpr (zeta_strictMono theta (show 2 < n by omega))
    have hgap : (0 : ℝ) < (n : ℝ) ^ (1 - theta) - 2 ^ (1 - theta) := by
      have hlt : (2 : ℝ) < n := by exact_mod_cast hthree
      exact sub_pos.mpr (Real.rpow_lt_rpow (by norm_num) hlt (by linarith))
    have hslope := pow_step_le hp hpone (x := 2) (by norm_num)
    have hslopes := sum_slopes_le hp hpone (show 2 ≤ n by omega)
    have hexp : (1 - theta) - 1 = -theta := by ring
    have hhalf : (2 : ℝ) ^ (-theta) = (1 / 2) ^ theta := by rw [Real.rpow_neg (by norm_num), one_div, Real.inv_rpow (by norm_num)]
    rw [hexp, ← zeta_sub_two (by omega), Nat.cast_ofNat] at hslopes
    rw [hexp, hhalf] at hslope
    have hlength : bound n theta 2 - bound n theta 1 = (1 / 2 : ℝ) ^ theta / zeta n theta := by
      rw [bound_two_eq (by omega) hone, bound, zeta_two]
      ring
    rw [step_eq, hlength, pow_mul_eta hthree, Nat.zero_add, Nat.cast_ofNat, div_div_eq_mul_div, div_le_div_iff₀ (by positivity) hzeta]
    have hmul : ((2 + 1 : ℝ) ^ (1 - theta) - 2 ^ (1 - theta)) * (zeta n theta - zeta 2 theta) ≤
        (1 / 2 : ℝ) ^ theta * ((n : ℝ) ^ (1 - theta) - 2 ^ (1 - theta)) :=
      calc _ ≤ (1 - theta) * (1 / 2 : ℝ) ^ theta * (zeta n theta - zeta 2 theta) := mul_le_mul_of_nonneg_right hslope hrest.le
        _ = (1 / 2 : ℝ) ^ theta * ((1 - theta) * (zeta n theta - zeta 2 theta)) := by ring
        _ ≤ _ := mul_le_mul_of_nonneg_left hslopes (by positivity)
    calc _ ≤ (1 / 2 : ℝ) ^ theta * ((n : ℝ) ^ (1 - theta) - 2 ^ (1 - theta)) * zeta n theta := mul_le_mul_of_nonneg_right hmul hzeta.le
      _ = _ := by ring
  | k + 2 =>
    have hpos := eta_pos (show 3 ≤ n by omega) hone
    have hsteps := pow_steps_antitone hp hpone (Nat.cast_nonneg (α := ℝ) (k + 2))
    have hcast : ((k + 1 + 2 : ℕ) : ℝ) = ((k + 2 : ℕ) : ℝ) + 1 := Nat.cast_succ (k + 2)
    rw [step_eq n theta (k + 1), step_eq n theta k, hcast]
    exact div_le_div_of_nonneg_right hsteps (by positivity)

/-- So the popularity goes down. -/
theorem popularity_antitone (hnonneg : 0 ≤ theta) (hone : theta < 1) : (popularity n theta).Pairwise (· ≥ ·) := by
  rw [List.pairwise_iff_getElem]
  intro i j hi hj hij
  rw [getElem_popularity, getElem_popularity]
  rw [length_popularity] at hj
  induction j, hij using Nat.le_induction with
  | base => exact step_le hnonneg hone hj
  | succ j hij ih => exact (step_le hnonneg hone (by omega)).trans (ih (by omega))

end

/-- **What is drawn**, after any calls for at most as many numbers: the number whose interval `u` is in. -/
theorem drawn_iff {min max : ℤ} {n : ℕ} (hn : 1 ≤ n) (hrange : max = min + n - 1) (hmin : FitsLong min) (hmax : FitsLong max) (hitems : FitsLong n) {theta : ℝ}
    (hone : theta < 1) (u₀ : Option ℝ) (calls : List (ℤ × Option ℝ)) (hcalls : ∀ call ∈ calls, call.1 ≤ n) {u : ℝ} (hu : 0 ≤ u) (hlt : u < 1) (k : ℕ) :
    (((new reals min max (some theta) u₀).nextLongs reals calls).nextValue reals (some u)).1 = min + k ↔ InShare (popularity n theta) k u := by
  have hsize : asLong (max - min + 1) = n := by
    rw [hrange, asLong_of_fits]
    · omega
    · unfold FitsLong at hitems ⊢
      omega
  obtain ⟨m, hm, hleast, hkept⟩ := (kept_new (A := reals) hsize (Int.natCast_nonneg n) (some theta) u₀).nextLongs (Int.natCast_nonneg n) calls
  obtain rfl : m = n := le_antisymm (hleast n le_rfl hcalls) hm
  have hdrawn := nextLong_fst hkept ((fixed_new min max (some theta) u₀).nextLongs calls) hn hone hu hlt hmin (hrange ▸ hmax) hitems
  have hin := rank_inShare hn hone hu hlt
  rw [nextValue, hkept.items, hdrawn]
  refine ⟨fun heq => ?_, fun hshare => ?_⟩
  · have hk : rank n theta u = k := by omega
    rwa [← hk]
  · have hunique := existsUnique_inShare (fun share hmem => ?_) hu (hlt.trans_eq (popularity_sum hn theta).symm)
    · rw [hunique.unique hin hshare]
    · obtain ⟨j, hj, rfl⟩ := List.mem_map.mp hmem
      exact sub_nonneg.mpr (bound_lt_succ hone (List.mem_range.mp hj)).le

/-- **The draws of a Zipfian generator**: after any calls each number of the range has an interval of the `u`, and is what is drawn for those; there are no others, and no
number has more than the one before. -/
theorem draws {min max : ℤ} {n : ℕ} (hn : 1 ≤ n) (hrange : max = min + n - 1) (hmin : FitsLong min) (hmax : FitsLong max) (hitems : FitsLong n) {theta : ℝ}
    (hnonneg : 0 ≤ theta) (hone : theta < 1) (u₀ : Option ℝ) :
    (∀ calls : List (ℤ × Option ℝ), (∀ call ∈ calls, call.1 ≤ n) → ∀ u : ℝ, 0 ≤ u → u < 1 →
        (∃! k, InShare (popularity n theta) k u) ∧ ∀ k : ℕ,
          (((new reals min max (some theta) u₀).nextLongs reals calls).nextValue reals (some u)).1 = min + k ↔ InShare (popularity n theta) k u) ∧
      (popularity n theta).length = n ∧ (popularity n theta).sum = 1 ∧ (∀ share ∈ popularity n theta, 0 < share) ∧ (popularity n theta).Pairwise (· ≥ ·) ∧
      (popularity n theta)[0]? = some (1 / zeta n theta) := by
  have hpos : ∀ share ∈ popularity n theta, 0 < share := fun share hmem => by
    obtain ⟨j, hj, rfl⟩ := List.mem_map.mp hmem
    exact sub_pos.mpr (bound_lt_succ hone (List.mem_range.mp hj))
  refine ⟨fun calls hcalls u hu hlt => ⟨?_, drawn_iff hn hrange hmin hmax hitems hone u₀ calls hcalls hu hlt⟩, length_popularity n theta, popularity_sum hn theta, hpos,
    popularity_antitone hnonneg hone, ?_⟩
  · exact existsUnique_inShare (fun share hmem => (hpos share hmem).le) hu (hlt.trans_eq (popularity_sum hn theta).symm)
  · rw [List.getElem?_eq_getElem (by rw [length_popularity]; exact hn), getElem_popularity, bound, bound, sub_zero]

/-- A thousand numbers, with the exponent that is used. -/
theorem draws_thousand : (popularity 1000 (99 / 100)).sum = 1 ∧ (popularity 1000 (99 / 100)).Pairwise (· ≥ ·) :=
  have htheta : (0 : ℝ) ≤ 99 / 100 ∧ (99 / 100 : ℝ) < 1 := ⟨by norm_num, by norm_num⟩
  have hrange : (999 : ℤ) = 0 + (1000 : ℕ) - 1 := by decide
  have h := (draws (by decide) hrange (by decide) (by decide) (by decide) htheta.1 htheta.2 (some 0)).2
  ⟨h.2.1, h.2.2.2.1⟩

end ZipfianGenerator

end YcsbIvs.Generator
