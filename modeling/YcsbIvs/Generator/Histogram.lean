import YcsbIvs.Generator.Timestamps
import YcsbIvs.Foundations.Runs
import Mathlib.Algebra.BigOperators.Intervals
import Mathlib.Algebra.Order.BigOperators.Group.List
import Mathlib.Data.Rat.Cast.Order
import Mathlib.Tactic.Linarith
import Mathlib.Tactic.Ring

/-!
# Sizes drawn from a histogram

`HistogramGenerator` draws a number below the area of a histogram and takes the buckets off it until nothing is left. A bucket stands for the largest value in it,
`blockSize` times its number counted from one.

The loop stops when what is left *is* nothing, and not only when it is less: so the first bucket has one draw too many. It leaves the last bucket out, and what
is not stopped gives `i * blockSize` after it, which is the value of the bucket before. And `mean` counts the buckets from zero. So the draws follow the
histogram **only if all of it is in the first of several buckets** (`follows_iff`), where the mean is wrong: **the generator never draws its histogram**
(`never_drawsHistogram`). What `mean` gives is a block less than the mean of the histogram (`meanSize_eq`).

The arithmetic of `mean` is in exact rationals.
-/

namespace YcsbIvs.Generator

open YcsbIvs.Foundations

/-- `HistogramGenerator`. -/
structure HistogramGenerator where
  /-- The size of a block. -/
  blockSize : ℤ
  /-- How many values there are in each bucket. -/
  buckets : List ℤ
  /-- How many there are. -/
  area : ℤ
  /-- Their sum in blocks, the buckets counted from zero. -/
  weightedArea : ℤ
  /-- What `mean()` returns. -/
  meanSize : ℚ

namespace HistogramGenerator

/-- The loop of `init`, from bucket `i` on. -/
def initLoop : ℕ → List ℤ → ℤ → ℤ → ℤ × ℤ
  | _, [], area, weightedArea => (area, weightedArea)
  | i, bucket :: buckets, area, weightedArea =>
    initLoop (i + 1) buckets (asLong (area + bucket)) (asLong (weightedArea + asLong (i * bucket)))

/-- `new HistogramGenerator(buckets, blockSize)`. -/
def new (buckets : List ℤ) (blockSize : Word) : HistogramGenerator :=
  let (area, weightedArea) := initLoop 0 buckets 0 0
  ⟨blockSize.1, buckets, area, weightedArea, blockSize.1 * weightedArea / area⟩

/-- The loop of `nextValue`, from bucket `i` on; it does not go to the last. -/
def nextLoop (blockSize : ℤ) : ℕ → List ℤ → ℤ → ℤ
  | i, bucket :: next :: buckets, number =>
    if asInt (number - bucket) ≤ 0 then asLong ((i + 1) * blockSize) else nextLoop blockSize (i + 1) (next :: buckets) (asInt (number - bucket))
  | i, _, _ => asLong (i * blockSize)

/-- `nextValue()`, if `nextInt(bound)` gives the remainder of `draw`. -/
def nextValue (g : HistogramGenerator) (draw : ℕ) : Except Thrown ℤ := do
  let number ← nextInt (asInt g.area) draw
  .ok (nextLoop g.blockSize 0 g.buckets number)

/-- `mean()`. -/
def mean (g : HistogramGenerator) : ℚ := g.meanSize

/-! ### What is promised -/

/-- How many of the draws give a value. -/
def drawsOf (g : HistogramGenerator) (value : ℤ) : ℕ := (List.range g.area.toNat).countP fun draw => g.nextValue draw = .ok value

/-- The sum of the values that the draws give. -/
def drawn (g : HistogramGenerator) : ℤ := ∑ draw ∈ Finset.range g.area.toNat, (g.nextValue draw).toOption.getD 0

/-- Each bucket's value is drawn as often as the bucket says, and zero is not drawn. -/
structure Follows (g : HistogramGenerator) : Prop where
  /-- Each bucket. -/
  draws : ∀ i (h : i < g.buckets.length), (g.drawsOf ((i + 1) * g.blockSize) : ℤ) = g.buckets[i]
  /-- Not zero. -/
  nonzero : ∀ draw < g.area.toNat, g.nextValue draw ≠ .ok 0

/-- The generator draws its histogram, and `mean()` is the mean of what it draws. -/
structure DrawsHistogram (g : HistogramGenerator) : Prop where
  /-- The draws. -/
  follows : g.Follows
  /-- The mean. -/
  mean : g.mean = g.drawn / g.area

/-! ### What is drawn -/

variable {g : HistogramGenerator}

/-- A draw below the area is the number the loop starts with. -/
theorem nextValue_eq (hle : g.area ≤ 2 ^ 31 - 1) {draw : ℕ} (h : draw < g.area.toNat) :
    g.nextValue draw = .ok (nextLoop g.blockSize 0 g.buckets draw) := by
  have harea : asInt g.area = g.area := asInt_of_fits (by unfold FitsInt; omega)
  have hnumber : nextInt (asInt g.area) draw = .ok (draw : ℤ) := by
    rw [harea, nextInt, if_neg (by omega), Int.emod_eq_of_lt (Int.natCast_nonneg draw) (by omega)]
  rw [nextValue, bind_ok hnumber]

/-- The draws that are not above the first bucket give its value. -/
theorem nextLoop_first {blockSize : ℤ} (hfits : FitsInt blockSize) {bucket next : ℤ} (buckets : List ℤ) {number : ℤ} (hnumber : 0 ≤ number)
    (hle : number ≤ bucket) (hlt : bucket < 2 ^ 31) : nextLoop blockSize 0 (bucket :: next :: buckets) number = blockSize := by
  have hleft : asInt (number - bucket) = number - bucket := asInt_of_fits (by unfold FitsInt; omega)
  rw [nextLoop, hleft, if_pos (by omega), Nat.cast_zero, zero_add, one_mul]
  unfold FitsInt at hfits
  exact asLong_of_fits (by unfold FitsLong; omega)

theorem drawsOf_le (g : HistogramGenerator) (value : ℤ) : g.drawsOf value ≤ g.area.toNat := by
  rw [drawsOf]
  exact List.countP_le_length.trans (List.length_range).le

/-- If all of it is in the first of several buckets, every draw gives that bucket's value. -/
theorem nextValue_first (hle : g.area ≤ 2 ^ 31 - 1) (hfits : FitsInt g.blockSize) {next : ℤ} {buckets : List ℤ}
    (hbuckets : g.buckets = g.area :: next :: buckets) {draw : ℕ} (h : draw < g.area.toNat) : g.nextValue draw = .ok g.blockSize := by
  rw [nextValue_eq hle h, hbuckets, nextLoop_first hfits buckets (Int.natCast_nonneg draw) (by omega) (by omega)]

/-- So the other buckets' values are not drawn. -/
theorem drawsOf_first (hle : g.area ≤ 2 ^ 31 - 1) (hfits : FitsInt g.blockSize) {next : ℤ} {buckets : List ℤ}
    (hbuckets : g.buckets = g.area :: next :: buckets) (value : ℤ) : g.drawsOf value = if g.blockSize = value then g.area.toNat else 0 := by
  rw [drawsOf]
  split_ifs with hvalue
  · refine (List.countP_eq_length.mpr fun draw hdraw => ?_).trans List.length_range
    rw [nextValue_first hle hfits hbuckets (List.mem_range.mp hdraw), hvalue, decide_eq_true_eq]
  · refine List.countP_eq_zero.mpr fun draw hdraw => ?_
    rw [nextValue_first hle hfits hbuckets (List.mem_range.mp hdraw), decide_eq_true_eq]
    exact fun h => hvalue (Except.ok.inj h)

/-- The first bucket has a draw more than it says, unless it has them all. -/
theorem first_eq_area (hpos : 0 < g.area) (hle : g.area ≤ 2 ^ 31 - 1) (hfits : FitsInt g.blockSize) (h : g.Follows) {bucket next : ℤ}
    {buckets : List ℤ} (hbuckets : g.buckets = bucket :: next :: buckets) : bucket = g.area := by
  have hdraws : (g.drawsOf g.blockSize : ℤ) = bucket := by
    have := h.draws 0 (by rw [hbuckets]; exact Nat.zero_lt_succ _)
    simpa [hbuckets] using this
  have hmost := drawsOf_le g g.blockSize
  by_contra hne
  have hfirst : bucket.toNat + 1 ≤ g.drawsOf g.blockSize :=
    calc bucket.toNat + 1 = (List.range (bucket.toNat + 1)).countP fun draw => g.nextValue draw = .ok g.blockSize := by
          refine ((List.countP_eq_length.mpr fun draw hdraw => ?_).trans List.length_range).symm
          have hdraw := List.mem_range.mp hdraw
          rw [nextValue_eq hle (by omega), hbuckets, nextLoop_first hfits buckets (Int.natCast_nonneg draw) (by omega) (by omega), decide_eq_true_eq]
      _ ≤ g.drawsOf g.blockSize := (List.range_sublist.mpr (by omega)).countP_le
  omega

/-- Buckets after the first stand for other values than it does. -/
theorem value_ne {blockSize : ℤ} (h : blockSize ≠ 0) (i : ℕ) : blockSize ≠ ((i + 1 : ℕ) + 1) * blockSize := by
  intro heq
  have hzero : ((i : ℤ) + 1) * blockSize = 0 := by
    push_cast at heq
    linarith
  rcases mul_eq_zero.mp hzero with hi | hb
  · omega
  · exact h hb

/-- With fewer than two buckets every draw gives zero. -/
theorem nextLoop_of_length_le {blockSize : ℤ} {buckets : List ℤ} (h : buckets.length ≤ 1) (number : ℤ) : nextLoop blockSize 0 buckets number = 0 := by
  match buckets with
  | [] | [_] =>
    rw [nextLoop, Nat.cast_zero, zero_mul]
    · rfl
    · exact fun _ _ _ => nofun
  | _ :: _ :: _ => exact absurd h (by simp)

/-- Where zero is not drawn there are several buckets. -/
theorem exists_buckets (hpos : 0 < g.area) (hle : g.area ≤ 2 ^ 31 - 1) (h : g.nextValue 0 ≠ .ok 0) :
    ∃ bucket next buckets, g.buckets = bucket :: next :: buckets := by
  by_contra hnot
  refine h ((nextValue_eq hle (by omega)).trans (congrArg Except.ok (nextLoop_of_length_le ?_ _)))
  match hbuckets : g.buckets with
  | [] | [_] => simp
  | bucket :: next :: buckets => exact absurd ⟨bucket, next, buckets, hbuckets⟩ hnot

/-- If all of it is in the first of several buckets, the draws follow. -/
theorem follows_of_first (hle : g.area ≤ 2 ^ 31 - 1) (hpos : 0 < g.area) (hfits : FitsInt g.blockSize) (hblock : g.blockSize ≠ 0) {next : ℤ} {buckets : List ℤ}
    (hbuckets : g.buckets = g.area :: next :: buckets) (hzeros : ∀ bucket ∈ next :: buckets, bucket = 0) : g.Follows := by
  refine ⟨fun i hi => ?_, fun draw hdraw => ?_⟩
  · rw [drawsOf_first hle hfits hbuckets]
    obtain _ | i := i
    · rw [if_pos (by simp)]
      simp only [hbuckets, List.getElem_cons_zero]
      omega
    · rw [if_neg (value_ne hblock i)]
      simp only [hbuckets, List.getElem_cons_succ]
      exact (hzeros _ (List.getElem_mem _)).symm
  · rw [nextValue_first hle hfits hbuckets hdraw]
    exact fun h => hblock (Except.ok.inj h)

/-- **When the draws follow the histogram**: when all of it is in the first of several buckets. -/
theorem follows_iff (hpos : 0 < g.area) (hle : g.area ≤ 2 ^ 31 - 1) (hfits : FitsInt g.blockSize) :
    g.Follows ↔ g.blockSize ≠ 0 ∧ ∃ next buckets, g.buckets = g.area :: next :: buckets ∧ ∀ bucket ∈ next :: buckets, bucket = 0 := by
  constructor
  · intro h
    have hzero := h.nonzero 0 (by omega)
    obtain ⟨bucket, next, buckets, hbuckets⟩ := exists_buckets hpos hle hzero
    obtain rfl := first_eq_area hpos hle hfits h hbuckets
    rw [nextValue_first hle hfits hbuckets (by omega)] at hzero
    have hblock : g.blockSize ≠ 0 := fun heq => hzero (congrArg Except.ok heq)
    refine ⟨hblock, next, buckets, hbuckets, fun bucket hbucket => ?_⟩
    obtain ⟨i, hi, rfl⟩ := List.getElem_of_mem hbucket
    have hdraws := h.draws (i + 1) (by rw [hbuckets]; exact Nat.succ_lt_succ hi)
    rw [drawsOf_first hle hfits hbuckets, if_neg (value_ne hblock i)] at hdraws
    simpa [hbuckets] using hdraws.symm
  · rintro ⟨hblock, next, buckets, hbuckets, hzeros⟩
    exact follows_of_first hle hpos hfits hblock hbuckets hzeros

/-! ### The mean -/

/-- The blocks of a histogram, its buckets counted from `i`. -/
def weigh : ℕ → List ℤ → ℤ
  | _, [] => 0
  | i, bucket :: buckets => i * bucket + weigh (i + 1) buckets

theorem weigh_nonneg {buckets : List ℤ} (h : ∀ bucket ∈ buckets, 0 ≤ bucket) (i : ℕ) : 0 ≤ weigh i buckets := by
  induction buckets generalizing i with
  | nil => exact le_refl _
  | cons bucket buckets ih =>
    obtain ⟨hbucket, hbuckets⟩ := List.forall_mem_cons.mp h
    exact add_nonneg (mul_nonneg (Int.natCast_nonneg i) hbucket) (ih hbuckets (i + 1))

/-- Counted from one, a block more each. -/
theorem weigh_succ (i : ℕ) (buckets : List ℤ) : weigh (i + 1) buckets = weigh i buckets + buckets.sum := by
  induction buckets generalizing i with
  | nil => rfl
  | cons bucket buckets ih =>
    rw [weigh, weigh, ih, List.sum_cons]
    push_cast
    ring

/-- `init` adds up, where no sum is too long. -/
theorem initLoop_eq {buckets : List ℤ} (h : ∀ bucket ∈ buckets, 0 ≤ bucket) {i : ℕ} {area weightedArea : ℤ} (harea : 0 ≤ area)
    (hweighted : 0 ≤ weightedArea) (hfits : area + buckets.sum < 2 ^ 63) (hfits' : weightedArea + weigh i buckets < 2 ^ 63) :
    initLoop i buckets area weightedArea = (area + buckets.sum, weightedArea + weigh i buckets) := by
  induction buckets generalizing i area weightedArea with
  | nil => rw [initLoop, weigh, List.sum_nil, add_zero, add_zero]
  | cons bucket buckets ih =>
    obtain ⟨hbucket, hbuckets⟩ := List.forall_mem_cons.mp h
    have hsum : 0 ≤ buckets.sum := List.sum_nonneg hbuckets
    have hweigh : 0 ≤ weigh (i + 1) buckets := weigh_nonneg hbuckets (i + 1)
    have hproduct : 0 ≤ (i : ℤ) * bucket := mul_nonneg (Int.natCast_nonneg i) hbucket
    rw [List.sum_cons] at hfits
    rw [weigh] at hfits'
    rw [initLoop, asLong_of_fits (x := i * bucket) (by unfold FitsLong; omega), asLong_of_fits (by unfold FitsLong; omega),
      asLong_of_fits (by unfold FitsLong; omega), ih hbuckets (by omega) (by omega) (by omega) (by omega), weigh, List.sum_cons, add_assoc, add_assoc]

/-- **What `mean` gives**: a block less than the mean of the histogram. -/
theorem meanSize_eq {buckets : List ℤ} (h : ∀ bucket ∈ buckets, 0 ≤ bucket) (hpos : 0 < buckets.sum) (hfits : weigh 1 buckets < 2 ^ 63) (blockSize : Word) :
    (new buckets blockSize).mean = blockSize.1 * (weigh 1 buckets : ℚ) / (buckets.sum : ℚ) - blockSize.1 := by
  have hweigh : weigh 1 buckets = weigh 0 buckets + buckets.sum := weigh_succ 0 buckets
  have hnonneg := weigh_nonneg h 0
  have hsum : (buckets.sum : ℚ) ≠ 0 := Int.cast_ne_zero.mpr hpos.ne'
  rw [mean, new, initLoop_eq h (le_refl 0) (le_refl 0) (by omega) (by omega), hweigh, zero_add, zero_add]
  dsimp only
  rw [Int.cast_add, mul_add, add_div, mul_div_cancel_right₀ _ hsum, add_sub_cancel_right]

/-- If all of it is in the first bucket, `mean` gives zero. -/
theorem initLoop_zeros {buckets : List ℤ} (h : ∀ bucket ∈ buckets, bucket = 0) (i : ℕ) (area : ℤ) :
    (initLoop i buckets area 0).2 = 0 := by
  induction buckets generalizing i area with
  | nil => rfl
  | cons bucket buckets ih =>
    obtain ⟨hbucket, hbuckets⟩ := List.forall_mem_cons.mp h
    rw [initLoop, hbucket, mul_zero]
    exact ih hbuckets (i + 1) _

/-- **The generator never draws its histogram**: where the draws follow it, the mean is wrong. -/
theorem never_drawsHistogram (buckets : List ℤ) (blockSize : Word) (hpos : 0 < (new buckets blockSize).area)
    (hle : (new buckets blockSize).area ≤ 2 ^ 31 - 1) : ¬ (new buckets blockSize).DrawsHistogram := by
  rintro ⟨hfollows, hmean⟩
  generalize hg : new buckets blockSize = g at *
  have hfits : FitsInt g.blockSize := by
    rw [← hg]
    exact blockSize.2
  obtain ⟨hblock, next, rest, hbuckets, hzeros⟩ := (follows_iff hpos hle hfits).mp hfollows
  have hzero : g.mean = 0 := by
    have hbuckets' : buckets = g.area :: next :: rest := by rw [← hbuckets, ← hg]; rfl
    have hweighted : (initLoop 0 buckets 0 0).2 = 0 := by
      rw [hbuckets', initLoop, Nat.cast_zero, zero_mul]
      exact initLoop_zeros hzeros 1 _
    rw [mean, ← hg, new]
    simp [hweighted]
  have hdrawn : g.drawn = g.area * g.blockSize := by
    rw [drawn, Finset.sum_congr rfl fun draw hdraw => by rw [nextValue_first hle hfits hbuckets (Finset.mem_range.mp hdraw)]]
    simp only [Except.toOption, Option.getD_some, Finset.sum_const, Finset.card_range, nsmul_eq_mul]
    rw [Int.natCast_toNat_eq_self.mpr hpos.le]
  have harea : (g.area : ℚ) ≠ 0 := Int.cast_ne_zero.mpr hpos.ne'
  rw [hzero, hdrawn, Int.cast_mul, mul_div_cancel_left₀ _ harea] at hmean
  exact hblock (Int.cast_eq_zero.mp hmean.symm)

/-- All of it in the first of two buckets: ten is always drawn, and the mean is zero. -/
theorem never_drawsHistogram_first : ¬ (new [3, 0] ⟨10, by decide⟩).DrawsHistogram :=
  never_drawsHistogram [3, 0] ⟨10, by decide⟩ (by decide) (by decide)

/-- One value of ten and one of twenty: both draws give ten. -/
theorem not_drawsHistogram : (new [1, 1] ⟨10, by decide⟩).area = 2 ∧ ¬ (new [1, 1] ⟨10, by decide⟩).DrawsHistogram := by
  refine ⟨by decide, fun h => ?_⟩
  have hdraws := h.follows.draws 1 (by decide)
  exact absurd hdraws (by decide)

end HistogramGenerator

end YcsbIvs.Generator
