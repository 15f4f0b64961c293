import YcsbIvs.Foundations.Arithmetic
import YcsbIvs.Foundations.Words
import Mathlib.Algebra.BigOperators.Intervals

/-!
# Zipfian numbers

`ZipfianGenerator` keeps what it needs of a Zipfian distribution of `items` numbers: the sum `zetan` of their weights, `eta`, which is made of it and of the number of
items, and the number `countforzeta` that they were made for. If it is asked for one of more items than that, it adds the weights of the new items to `zetan` and makes `eta`
again. `SkewedLatestGenerator` asks it for one of as many as its counter has given.

The sum is the same as from scratch, whatever the arithmetic (`zetastatic_grow`). But `eta` is made with `items`, which stays as it was. In exact arithmetic a
generator that has grown is what a new one is **just if the exponent is one, or there are two items** (`grown_iff`), where `eta` is a division by zero. With
the exponent that it has, `SkewedLatestGenerator` draws from what it was made for, not from what there is (`latest_iff`).
-/

namespace YcsbIvs.Generator

open YcsbIvs.Foundations

variable {D : Type}

/-- `ZipfianGenerator`. -/
structure ZipfianGenerator (D : Type) where
  /-- The number of items it was made for. -/
  items : ℤ
  /-- The least number. -/
  base : ℤ
  /-- `1 / (1 – theta)`. -/
  alpha : D
  /-- The sum of the weights. -/
  zetan : D
  /-- What the draws are scaled by. -/
  eta : D
  /-- The exponent of the distribution. -/
  theta : D
  /-- The sum of the first two weights. -/
  zeta2theta : D
  /-- The number of items `zetan` is of. -/
  countforzeta : ℤ
  /-- Whether the number of items may become less. -/
  allowitemcountdecrease : Bool
  /-- `lastValue()`. -/
  lastVal : Option ℤ

namespace ZipfianGenerator

variable (A : Arithmetic D)

/-- The loop of `zetastatic`, from `i` on: the weights of `k` items. -/
def zetaLoop (theta : D) : ℕ → ℤ → D → D
  | 0, _, sum => sum
  | k + 1, i, sum => zetaLoop theta k (i + 1) (A.add sum (A.div (A.ofRat 1) (A.pow (A.ofRat (i + 1 : ℤ)) theta)))

/-- `zetastatic(st, n, theta, initialsum)`. -/
def zetastatic (st n : ℤ) (theta initialsum : D) : D := zetaLoop A theta (n - st).toNat st initialsum

/-- `(1 - Math.pow(2.0 / items, 1 - theta)) / (1 - zeta2theta / zetan)`. -/
def etaOf (items : ℤ) (theta zeta2theta zetan : D) : D :=
  A.div (A.sub (A.ofRat 1) (A.pow (A.div (A.ofRat 2) (A.ofRat items)) (A.sub (A.ofRat 1) theta)))
    (A.sub (A.ofRat 1) (A.div zeta2theta zetan))

/-- What `nextLong` does if the number of items has changed. -/
def recompute (g : ZipfianGenerator D) (itemcount : ℤ) : ZipfianGenerator D :=
  if itemcount ≠ g.countforzeta then
    if g.countforzeta < itemcount then
      let zetan := zetastatic A g.countforzeta itemcount g.theta g.zetan
      { g with zetan := zetan, eta := etaOf A g.items g.theta g.zeta2theta zetan, countforzeta := itemcount }
    else if itemcount < g.countforzeta ∧ g.allowitemcountdecrease then
      let zetan := zetastatic A 0 itemcount g.theta (A.ofRat 0)
      { g with zetan := zetan, eta := etaOf A g.items g.theta g.zeta2theta zetan, countforzeta := itemcount }
    else g
  else g

/-- `nextLong(itemcount)`, if `nextDouble()` gives `u`: the number, and the generator after it. -/
def nextLong (g : ZipfianGenerator D) (itemcount : ℤ) (u : D) : ℤ × ZipfianGenerator D :=
  let g := g.recompute A itemcount
  let uz := A.mul u g.zetan
  if A.lt uz (A.ofRat 1) then (g.base, g)
  else if A.lt uz (A.add (A.ofRat 1) (A.pow (A.ofRat (1 / 2)) g.theta)) then (asLong (g.base + 1), g)
  else
    let ret := asLong (g.base +
      A.toLong (A.mul (A.ofRat itemcount) (A.pow (A.add (A.sub (A.mul g.eta u) g.eta) (A.ofRat 1)) g.alpha)))
    (ret, { g with lastVal := some ret })

/-- `nextValue()`. -/
def nextValue (g : ZipfianGenerator D) (u : D) : ℤ × ZipfianGenerator D := g.nextLong A g.items u

/-- `new ZipfianGenerator(min, max, zipfianconstant, zetan)`, which draws a first number. -/
def ofZetan (min max : ℤ) (zipfianconstant zetan u : D) : ZipfianGenerator D :=
  let items := asLong (max - min + 1)
  let zeta2theta := zetastatic A 0 2 zipfianconstant (A.ofRat 0)
  let g : ZipfianGenerator D :=
    { items := items, base := min, alpha := A.div (A.ofRat 1) (A.sub (A.ofRat 1) zipfianconstant), zetan := zetan
      eta := etaOf A items zipfianconstant zeta2theta zetan, theta := zipfianconstant, zeta2theta := zeta2theta, countforzeta := items
      allowitemcountdecrease := false, lastVal := none }
  (g.nextValue A u).2

/-- `new ZipfianGenerator(min, max, zipfianconstant)`. -/
def new (min max : ℤ) (zipfianconstant u : D) : ZipfianGenerator D :=
  ofZetan A min max zipfianconstant (zetastatic A 0 (asLong (max - min + 1)) zipfianconstant (A.ofRat 0)) u

/-- What the distribution depends on. -/
def state (g : ZipfianGenerator D) : D × D × ℤ := (g.zetan, g.eta, g.countforzeta)

/-! ### The sum of the weights -/

theorem zetaLoop_add (theta : D) (j k : ℕ) (i : ℤ) (sum : D) :
    zetaLoop A theta (j + k) i sum = zetaLoop A theta k (i + j) (zetaLoop A theta j i sum) := by
  induction j generalizing i sum with
  | zero => rw [Nat.zero_add, Nat.cast_zero, add_zero, zetaLoop]
  | succ j ih => rw [Nat.succ_add, zetaLoop, zetaLoop, ih, Nat.cast_succ, add_assoc, add_comm (1 : ℤ)]

/-- **The weights of new items can be added**, whatever is rounded. -/
theorem zetastatic_grow {n m : ℤ} (hn : 0 ≤ n) (h : n ≤ m) (theta initialsum : D) :
    zetastatic A n m theta (zetastatic A 0 n theta initialsum) = zetastatic A 0 m theta initialsum := by
  have hsplit : (m - 0).toNat = (n - 0).toNat + (m - n).toNat := by omega
  have hfrom : (0 : ℤ) + (n - 0).toNat = n := by omega
  rw [zetastatic, zetastatic, zetastatic, hsplit, zetaLoop_add, hfrom]

/-! ### What is kept -/

/-- The generator was made for `n` items, and has been asked for as many as `m`. -/
structure Kept (n m : ℤ) (zipfianconstant : D) (g : ZipfianGenerator D) : Prop where
  /-- What it was made for. -/
  items : g.items = n
  /-- The exponent. -/
  theta : g.theta = zipfianconstant
  /-- The first two weights. -/
  zeta2theta : g.zeta2theta = zetastatic A 0 2 zipfianconstant (A.ofRat 0)
  /-- The weights of `m` items. -/
  zetan : g.zetan = zetastatic A 0 m zipfianconstant (A.ofRat 0)
  /-- It is made with the number of items that it was made for. -/
  eta : g.eta = etaOf A n zipfianconstant g.zeta2theta g.zetan
  /-- What the weights are of. -/
  countforzeta : g.countforzeta = m
  /-- The flag is never set. -/
  increases : g.allowitemcountdecrease = false

/-- The calls `nextLong(itemcount)`, each with its draw. -/
def nextLongs (g : ZipfianGenerator D) (calls : List (ℤ × D)) : ZipfianGenerator D := calls.foldl (fun g call => (g.nextLong A call.1 call.2).2) g

variable {A}

/-- What is made again. -/
theorem recompute_eq (g : ZipfianGenerator D) (itemcount : ℤ) :
    ∃ zetan eta countforzeta, g.recompute A itemcount = { g with zetan := zetan, eta := eta, countforzeta := countforzeta } := by
  rw [recompute]
  split_ifs <;> exact ⟨_, _, _, rfl⟩

/-- What is drawn is not part of the distribution. -/
theorem nextLong_eq (g : ZipfianGenerator D) (itemcount : ℤ) (u : D) :
    ∃ lastVal, (g.nextLong A itemcount u).2 = { g.recompute A itemcount with lastVal := lastVal } := by
  rw [nextLong]
  dsimp only
  split_ifs <;> exact ⟨_, rfl⟩

theorem Kept.recompute {n m : ℤ} {theta : D} {g : ZipfianGenerator D} (h : Kept A n m theta g) (hm : 0 ≤ m) (itemcount : ℤ) :
    Kept A n (max m itemcount) theta (g.recompute A itemcount) := by
  have hcount := h.countforzeta
  have hflag := h.increases
  rw [ZipfianGenerator.recompute]
  by_cases hlt : m < itemcount
  · rw [if_pos (by omega), if_pos (by omega), max_eq_right hlt.le]
    refine ⟨h.items, h.theta, h.zeta2theta, ?_, ?_, rfl, hflag⟩
    · dsimp only
      rw [h.zetan, hcount, h.theta, zetastatic_grow A hm hlt.le]
    · dsimp only
      rw [h.items, h.theta]
  · have hdecrease : ¬(itemcount < g.countforzeta ∧ g.allowitemcountdecrease = true) := fun hboth => by simp [hflag] at hboth
    rw [if_neg (show ¬g.countforzeta < itemcount by omega), if_neg hdecrease, ite_self, max_eq_left (not_lt.mp hlt)]
    exact h

/-- **A step**: the weights are those of the most items asked for, `eta` is not. -/
theorem Kept.nextLong {n m : ℤ} {theta : D} {g : ZipfianGenerator D} (h : Kept A n m theta g) (hm : 0 ≤ m) (itemcount : ℤ) (u : D) :
    Kept A n (max m itemcount) theta (g.nextLong A itemcount u).2 := by
  obtain ⟨lastVal, heq⟩ := nextLong_eq (A := A) g itemcount u
  have hkept := h.recompute hm itemcount
  rw [heq]
  exact ⟨hkept.items, hkept.theta, hkept.zeta2theta, hkept.zetan, hkept.eta, hkept.countforzeta, hkept.increases⟩

/-- **A run.** -/
theorem Kept.nextLongs {n m : ℤ} {theta : D} {g : ZipfianGenerator D} (h : Kept A n m theta g) (hm : 0 ≤ m) (calls : List (ℤ × D)) :
    ∃ k, m ≤ k ∧ (∀ bound, m ≤ bound → (∀ call ∈ calls, call.1 ≤ bound) → k ≤ bound) ∧ Kept A n k theta (g.nextLongs A calls) := by
  induction calls generalizing m g with
  | nil => exact ⟨m, le_rfl, fun bound hbound _ => hbound, h⟩
  | cons call calls ih =>
    obtain ⟨k, hk, hleast, hkept⟩ := ih (h.nextLong hm call.1 call.2) (hm.trans (le_max_left ..))
    refine ⟨k, (le_max_left ..).trans hk, fun bound hbound hcalls => ?_, hkept⟩
    rw [List.forall_mem_cons] at hcalls
    exact hleast bound (max_le hbound hcalls.1) hcalls.2

/-- What the distribution depends on then. -/
theorem Kept.state_eq {n m : ℤ} {theta : D} {g : ZipfianGenerator D} (h : Kept A n m theta g) :
    g.state = (zetastatic A 0 m theta (A.ofRat 0),
      etaOf A n theta (zetastatic A 0 2 theta (A.ofRat 0)) (zetastatic A 0 m theta (A.ofRat 0)), m) := by
  rw [state, h.eta, h.zeta2theta, h.zetan, h.countforzeta]

/-- A generator that has been made has been asked for as many as it was made for. -/
theorem kept_new {min max n : ℤ} (h : asLong (max - min + 1) = n) (hn : 0 ≤ n) (theta u : D) : Kept A n n theta (new A min max theta u) := by
  have hdraw : ∀ g, Kept A n n theta g → Kept A n n theta (g.nextLong A n u).2 := by
    intro g hg
    have hkept := hg.nextLong hn n u
    rwa [max_self] at hkept
  subst h
  exact hdraw _ ⟨rfl, rfl, rfl, rfl, rfl, rfl, rfl⟩

variable (A)

/-! ### Exact arithmetic -/

/-- The sum of the weights of `n` items. -/
noncomputable def zeta (n : ℕ) (theta : ℝ) : ℝ := ∑ i ∈ Finset.range n, 1 / ((i : ℝ) + 1) ^ theta

theorem zetaLoop_reals (theta : ℝ) (k i : ℕ) (sum : ℝ) :
    zetaLoop reals (some theta) k i (some sum) = some (sum + ∑ j ∈ Finset.range k, 1 / ((i : ℝ) + j + 1) ^ theta) := by
  induction k generalizing i sum with
  | zero => rw [zetaLoop, Finset.sum_range_zero, add_zero]
  | succ k ih =>
    have hpos : (0 : ℝ) < (i : ℝ) + 1 := by positivity
    have hweight : reals.div (reals.ofRat 1) (reals.pow (reals.ofRat ((i : ℤ) + 1 : ℤ)) (some theta)) = some (1 / ((i : ℝ) + 1) ^ theta) := by
      rw [reals.ofRat_eq, reals.ofRat_eq]
      push_cast
      rw [reals.pow_some hpos, reals.div_some _ (Real.rpow_pos_of_pos hpos theta).ne']
    rw [zetaLoop, hweight, reals.add_some, ← Int.natCast_succ, ih, Finset.sum_range_succ', add_assoc sum, add_comm (1 / _)]
    push_cast
    simp only [add_zero, add_assoc, add_comm (1 : ℝ)]

theorem zetastatic_reals (n : ℕ) (theta : ℝ) : zetastatic reals 0 n (some theta) (reals.ofRat 0) = some (zeta n theta) := by
  have h := zetaLoop_reals theta n 0 0
  rw [zetastatic, Int.sub_zero, Int.toNat_natCast, reals.ofRat_eq, Rat.cast_zero]
  rw [Int.natCast_zero] at h
  rw [h, zeta]
  simp

/-- More items weigh more. -/
theorem zeta_strictMono (theta : ℝ) : StrictMono fun n => zeta n theta := by
  refine strictMono_nat_of_lt_succ fun n => ?_
  rw [zeta, zeta, Finset.sum_range_succ]
  exact lt_add_of_pos_right _ (by positivity)

theorem zeta_pos {n : ℕ} (h : 0 < n) (theta : ℝ) : 0 < zeta n theta := by
  have hlt := zeta_strictMono theta h
  simpa [zeta] using hlt

/-- What `eta` is divided by. -/
theorem divisor_ne {m : ℕ} (h : 0 < m) (htwo : m ≠ 2) (theta : ℝ) : 1 - zeta 2 theta / zeta m theta ≠ 0 := by
  intro hzero
  have heq : zeta 2 theta = zeta m theta := (div_eq_one_iff_eq (zeta_pos h theta).ne').mp (sub_eq_zero.mp hzero).symm
  exact htwo ((zeta_strictMono theta).injective heq).symm

/-- `eta` of two items is a division by zero. -/
theorem etaOf_two (items : ℤ) (theta : ℝ) : etaOf reals items (some theta) (some (zeta 2 theta)) (some (zeta 2 theta)) = none := by
  have hpos := zeta_pos (show 0 < 2 by decide) theta
  have hzero : reals.sub (reals.ofRat 1) (reals.div (some (zeta 2 theta)) (some (zeta 2 theta))) = some 0 := by
    rw [reals.div_some _ hpos.ne', div_self hpos.ne', reals.ofRat_eq, Rat.cast_one, reals.sub_some, sub_self]
  rw [etaOf, hzero]
  exact reals.div_zero _

/-- Of another number of items it is a real number, unless it is made with none. -/
theorem etaOf_some {n m : ℕ} (hn : 0 < n) (hm : 0 < m) (htwo : m ≠ 2) (theta : ℝ) :
    etaOf reals n (some theta) (some (zeta 2 theta)) (some (zeta m theta)) =
      some ((1 - (2 / (n : ℝ)) ^ (1 - theta)) / (1 - zeta 2 theta / zeta m theta)) := by
  have hitems : (0 : ℝ) < n := Nat.cast_pos.mpr hn
  rw [etaOf, reals.div_some _ (zeta_pos hm theta).ne']
  simp only [reals.ofRat_eq, Rat.cast_one, reals.sub_some]
  push_cast
  rw [reals.div_some _ hitems.ne', reals.pow_some (by positivity), reals.sub_some, reals.div_some _ (divisor_ne hm htwo theta)]

theorem etaOf_zero (theta zeta2theta zetan : Option ℝ) : etaOf reals 0 theta zeta2theta zetan = none := by
  have hnone : reals.div (reals.ofRat 2) (reals.ofRat ((0 : ℤ) : ℚ)) = none := by
    rw [reals.ofRat_eq, reals.ofRat_eq, Int.cast_zero, Rat.cast_zero]
    exact reals.div_zero _
  rw [etaOf, hnone]
  rfl

/-- The two values of `eta` are one just for an exponent of one, or two items. -/
theorem etaOf_eq_iff {n m : ℕ} (h : n < m) (theta : ℝ) :
    etaOf reals n (some theta) (some (zeta 2 theta)) (some (zeta m theta)) =
        etaOf reals m (some theta) (some (zeta 2 theta)) (some (zeta m theta)) ↔
      m = 2 ∨ theta = 1 ∧ n ≠ 0 := by
  by_cases htwo : m = 2
  · subst htwo
    rw [etaOf_two, etaOf_two]
    exact iff_of_true rfl (.inl rfl)
  · have hm : 0 < m := by omega
    rw [or_iff_right htwo, etaOf_some hm hm htwo theta]
    obtain rfl | hn := Nat.eq_zero_or_pos n
    · rw [Int.natCast_zero, etaOf_zero]
      simp
    · have hn' : (0 : ℝ) < n := Nat.cast_pos.mpr hn
      have hm' : (0 : ℝ) < m := Nat.cast_pos.mpr hm
      rw [etaOf_some hn hm htwo theta, Option.some.injEq, div_left_inj' (divisor_ne hm htwo theta), sub_right_inj]
      constructor
      · intro heq
        refine ⟨?_, hn.ne'⟩
        by_contra hone
        have hinj := (Real.rpow_left_inj (by positivity) (by positivity) (sub_ne_zero.mpr (Ne.symm hone))).mp heq
        rw [div_eq_div_iff hn'.ne' hm'.ne'] at hinj
        have hnm : (n : ℝ) = m := by linarith
        exact h.ne (Nat.cast_injective hnm)
      · rintro ⟨rfl, -⟩
        rw [sub_self, Real.rpow_zero, Real.rpow_zero]

theorem Kept.grows_iff {n m : ℕ} {theta : ℝ} {g g' : ZipfianGenerator (Option ℝ)} (hg : Kept reals n m (some theta) g)
    (hg' : Kept reals m m (some theta) g') (h : n < m) : g.state = g'.state ↔ m = 2 ∨ theta = 1 ∧ n ≠ 0 := by
  have htwo := zetastatic_reals 2 theta
  rw [Nat.cast_ofNat] at htwo
  rw [hg.state_eq, hg'.state_eq, htwo, zetastatic_reals, Prod.mk.injEq, Prod.mk.injEq, eq_self_iff_true, eq_self_iff_true, true_and, and_true]
  exact etaOf_eq_iff h theta

/-- A generator made for `n` items, in any run of calls for at most `m` items, and one more for `m`. -/
theorem kept_grown {min max : ℤ} {n m : ℕ} (hn : asLong (max - min + 1) = n) (h : n < m) (theta u : D) (calls : List (ℤ × D))
    (hcalls : ∀ call ∈ calls, call.1 ≤ m) (u' : D) :
    Kept A n m theta (((new A min max theta u).nextLongs A calls).nextLong A m u').2 := by
  obtain ⟨k, hnk, hleast, hkept⟩ := (kept_new (A := A) hn (Int.natCast_nonneg n) theta u).nextLongs (Int.natCast_nonneg n) calls
  have hgrown := hkept.nextLong ((Int.natCast_nonneg n).trans hnk) m u'
  rwa [max_eq_right (hleast m (Int.ofNat_lt.mpr h).le hcalls)] at hgrown

/-- **When growth equals a fresh start**, in exact arithmetic and after any run: when the exponent is one, or there are two items. -/
theorem grown_iff {min max min' max' : ℤ} {n m : ℕ} (hn : asLong (max - min + 1) = n) (hm : asLong (max' - min' + 1) = m) (h : n < m) (theta : ℝ)
    (calls : List (ℤ × Option ℝ)) (hcalls : ∀ call ∈ calls, call.1 ≤ m) (u u' u'' : Option ℝ) :
    (((new reals min max (some theta) u).nextLongs reals calls).nextLong reals m u').2.state = (new reals min' max' (some theta) u'').state ↔
      m = 2 ∨ theta = 1 ∧ n ≠ 0 :=
  (kept_grown reals hn h (some theta) u calls hcalls u').grows_iff (kept_new hm (Int.natCast_nonneg m) (some theta) u'') h

/-- One item, and then three. -/
theorem grown_iff_three : (((new reals 0 0 (some (99 / 100)) (some 0)).nextLongs reals []).nextLong reals (3 : ℕ) (some 0)).2.state =
    (new reals 0 2 (some (99 / 100)) (some 0)).state ↔ 3 = 2 ∨ (99 / 100 : ℝ) = 1 ∧ 1 ≠ 0 :=
  grown_iff (by decide) (by decide) (by decide) (99 / 100) [] (by simp) (some 0) (some 0) (some 0)

/-- With the constant that is used, one item and then three. -/
theorem not_grown : (((new reals 0 0 (some (99 / 100)) (some 0)).nextLongs reals []).nextLong reals (3 : ℕ) (some 0)).2.state ≠
    (new reals 0 2 (some (99 / 100)) (some 0)).state := by
  intro heq
  have hone : asLong (0 - 0 + 1) = (1 : ℕ) := by decide
  have hthree : asLong (2 - 0 + 1) = (3 : ℕ) := by decide
  have hkept := kept_grown reals hone (show 1 < 3 by decide) (some (99 / 100)) (some 0) [] (by simp) (some 0)
  have hiff := (hkept.grows_iff (kept_new hthree (by decide) (some (99 / 100)) (some 0)) (by decide)).mp heq
  norm_num at hiff

end ZipfianGenerator

/-! ### The latest -/

/-- `SkewedLatestGenerator`, less its counter: others count with it. -/
structure SkewedLatestGenerator (D : Type) where
  /-- The numbers from the latest down. -/
  zipfian : ZipfianGenerator D
  /-- `lastValue()`. -/
  lastVal : Option ℤ

namespace SkewedLatestGenerator

variable (A : Arithmetic D)

/-- `nextValue()`, if `basis.lastValue()` gives `max` and `nextDouble()` gives `u`. -/
def nextValue (g : SkewedLatestGenerator D) (max : ℤ) (u : D) : ℤ × SkewedLatestGenerator D :=
  let (number, zipfian) := g.zipfian.nextLong A max u
  let next := asLong (max - number)
  (next, { zipfian := zipfian, lastVal := some next })

/-- `new SkewedLatestGenerator(basis)`, if `basis.lastValue()` gives `max`. -/
def new (max : ℤ) (u u' : D) : SkewedLatestGenerator D :=
  let zipfian := ZipfianGenerator.new A 0 (asLong (max - 1)) (A.ofRat (99 / 100)) u
  (nextValue A { zipfian := zipfian, lastVal := none } max u').2

/-- The calls `nextValue()`, each with what the counter gives and its draw. -/
def nextValues (g : SkewedLatestGenerator D) (calls : List (ℤ × D)) : SkewedLatestGenerator D :=
  calls.foldl (fun g call => (g.nextValue A call.1 call.2).2) g

variable {A}

theorem zipfian_nextValues (g : SkewedLatestGenerator D) (calls : List (ℤ × D)) :
    (g.nextValues A calls).zipfian = g.zipfian.nextLongs A calls := by
  induction calls generalizing g with
  | nil => rfl
  | cons call calls ih => exact ih (g.nextValue A call.1 call.2).2

theorem items_eq {max : ℤ} (h : FitsLong max) : asLong (asLong (max - 1) - 0 + 1) = max := by
  unfold FitsLong at h
  unfold asLong
  omega

/-- What it draws from when it is made. -/
theorem kept_new {n : ℕ} (h : FitsLong n) (u u' : D) : ZipfianGenerator.Kept A n n (A.ofRat (99 / 100)) (new A n u u').zipfian := by
  have hkept := (ZipfianGenerator.kept_new (A := A) (items_eq h) (Int.natCast_nonneg n) (A.ofRat (99 / 100)) u).nextLong (Int.natCast_nonneg n) n u'
  rwa [max_self] at hkept

/-- **What it draws from after inserts** is what a new one draws from only for two records: else it has kept the `eta` of the records that there were first. -/
theorem latest_iff {n m : ℕ} (hm : FitsLong m) (h : n < m) (calls : List (ℤ × Option ℝ)) (hcalls : ∀ call ∈ calls, call.1 ≤ m)
    (u₁ u₂ u u₃ u₄ : Option ℝ) :
    (((new reals n u₁ u₂).nextValues reals calls).nextValue reals m u).2.zipfian.state = (new reals m u₃ u₄).zipfian.state ↔ m = 2 := by
  have hn : FitsLong n := by
    unfold FitsLong at hm ⊢
    omega
  obtain ⟨k, hnk, hleast, hkept⟩ := (kept_new (A := reals) hn u₁ u₂).nextLongs (Int.natCast_nonneg n) calls
  have hgrown := hkept.nextLong ((Int.natCast_nonneg n).trans hnk) m u
  rw [max_eq_right (hleast m (Int.ofNat_lt.mpr h).le hcalls), ← zipfian_nextValues] at hgrown
  have hiff := hgrown.grows_iff (kept_new (A := reals) hm u₃ u₄) h
  norm_num at hiff
  exact hiff

end SkewedLatestGenerator

end YcsbIvs.Generator
