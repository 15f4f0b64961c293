import YcsbIvs.TimeSeries.Coverage
import Mathlib.Order.Interval.Set.Disjoint
import Mathlib.Order.CompletePartialOrder
import Mathlib.Data.Int.ConditionallyCompleteOrder

/-!
# The keys of the threads

The constructor of `ThreadState` shares the keys out: each thread gets as many as the others, one range after the other, and the last thread what is left over. If there
are no more threads than keys, **the ranges are a partition of the keys** (`keyRanges_partition`). The thread is not refused for its number, so
whether there is a state is up to its timestamp generator (`exists_newThreadState_iff`).
-/

namespace YcsbIvs.TimeSeries

open YcsbIvs.Foundations YcsbIvs.Generator

/-- Where the keys of thread `i` begin, of `total` threads; those of the last end with the keys. -/
def keyBound (n total i : ℤ) : ℤ := if total ≤ i then n else n / total * i

section

variable {n total : ℤ}

theorem one_le_share (hpos : 1 ≤ total) (hle : total ≤ n) : 1 ≤ n / total := Int.le_ediv_of_mul_le (by omega) (by omega)

theorem keyBound_of_lt {i : ℤ} (h : i < total) : keyBound n total i = n / total * i := if_neg (not_le.mpr h)

theorem keyBound_self (n total : ℤ) : keyBound n total total = n := if_pos (le_refl _)

theorem keyBound_zero (hpos : 1 ≤ total) : keyBound n total 0 = 0 := by
  rw [keyBound_of_lt (by omega), Int.mul_zero]

/-- Each thread has a key. -/
theorem keyBound_lt_succ (hpos : 1 ≤ total) (hle : total ≤ n) {i : ℤ} (hi : i < total) : keyBound n total i < keyBound n total (i + 1) := by
  have hshare := one_le_share hpos hle
  have hnext : n / total * (i + 1) = n / total * i + n / total := by rw [Int.mul_add, Int.mul_one]
  rw [keyBound, keyBound, if_neg (by omega)]
  split_ifs with hlast
  · have hall : n / total * (i + 1) ≤ n / total * total := Int.mul_le_mul_of_nonneg_left (by omega) (by omega)
    have hdiv := Int.ediv_mul_le n (show total ≠ 0 by omega)
    -- it is the last, so that its range ends no earlier than those of the others
    have heq : i + 1 = total := by omega
    rw [heq] at hnext
    omega
  · omega

theorem keyBound_mono (hpos : 1 ≤ total) (hle : total ≤ n) {i : ℤ} (k : ℕ) (hk : i + k ≤ total) :
    keyBound n total i ≤ keyBound n total (i + k) := by
  induction k with
  | zero => rw [Nat.cast_zero, Int.add_zero]
  | succ k ih =>
    have hrest := ih (by push_cast at hk; omega)
    have hstep := keyBound_lt_succ hpos hle (i := i + k) (by push_cast at hk; omega)
    rw [Nat.cast_succ, ← Int.add_assoc]
    exact hrest.trans hstep.le

/-- The ranges go through all keys. -/
theorem exists_keyBound (hpos : 1 ≤ total) (hle : total ≤ n) {x : ℤ} (hx : 0 ≤ x) (hlt : x < n) :
    ∃ i : ℕ, (i : ℤ) < total ∧ keyBound n total i ≤ x ∧ x < keyBound n total (i + 1) := by
  have hshare := one_le_share hpos hle
  by_cases hlast : n / total * (total - 1) ≤ x
  · refine ⟨(total - 1).toNat, by omega, ?_⟩
    rw [show (((total - 1).toNat : ℕ) : ℤ) = total - 1 by omega, keyBound, keyBound, if_neg (by omega), if_pos (by omega)]
    exact ⟨hlast, hlt⟩
  · have hmul := Int.mul_ediv_add_emod x (n / total)
    have hmod := Int.emod_nonneg x (show n / total ≠ 0 by omega)
    have hmod' := Int.emod_lt_of_pos x (show 0 < n / total by omega)
    have hnonneg : 0 ≤ x / (n / total) := Int.ediv_nonneg hx (by omega)
    have hbelow : x / (n / total) < total - 1 := Int.ediv_lt_of_lt_mul (by omega) (by rw [Int.mul_comm]; omega)
    refine ⟨(x / (n / total)).toNat, by omega, ?_⟩
    rw [show (((x / (n / total)).toNat : ℕ) : ℤ) = x / (n / total) by omega, keyBound, keyBound, if_neg (by omega), if_neg (by omega),
      Int.mul_add, Int.mul_one]
    omega

end

variable {w : TimeSeriesWorkload} {clock : Clock} {shuffle : List ℤ → List ℤ} {threadID threadCount : ℤ}

/-- The constructor, for a thread that is one of the threads, and has keys. -/
theorem newThreadState_eq (hfits : (w.keys.length : ℤ) < 2 ^ 31) (hid : 0 ≤ threadID) (hlt : threadID < threadCount) (hle : threadCount ≤ w.keys.length) :
    newThreadState w clock shuffle threadID threadCount =
      newTimestampGenerator w clock shuffle >>= fun g => rethrow g.nextValue >>= fun r =>
        .ok ⟨r.2, .new 0 (asInt (w.maxOffsets - 2)), keyBound w.keys.length threadCount threadID, keyBound w.keys.length threadCount threadID,
          keyBound w.keys.length threadCount (threadID + 1), List.replicate w.tagPairs 0, false, r.1⟩ := by
  have hshare := one_le_share (show 1 ≤ threadCount by omega) hle
  have hnext : (w.keys.length : ℤ) / threadCount * threadID + w.keys.length / threadCount ≤ w.keys.length := by
    have hmul : (w.keys.length : ℤ) / threadCount * (threadID + 1) ≤ w.keys.length / threadCount * threadCount :=
      Int.mul_le_mul_of_nonneg_left (by omega) (by omega)
    have hdiv := Int.ediv_mul_le w.keys.length (show threadCount ≠ 0 by omega)
    rw [Int.mul_add, Int.mul_one] at hmul
    omega
  have hnonneg : 0 ≤ (w.keys.length : ℤ) / threadCount * threadID := Int.mul_nonneg (by omega) hid
  have hstart : asInt ((w.keys.length : ℤ).tdiv threadCount * threadID) = keyBound w.keys.length threadCount threadID := by
    rw [Int.tdiv_eq_ediv_of_nonneg (by omega), keyBound_of_lt hlt]
    exact asInt_of_fits (by unfold FitsInt; omega)
  have hend : (if threadCount - 1 = threadID then (w.keys.length : ℤ)
      else asInt (keyBound w.keys.length threadCount threadID + (w.keys.length : ℤ).tdiv threadCount)) =
        keyBound w.keys.length threadCount (threadID + 1) := by
    rw [Int.tdiv_eq_ediv_of_nonneg (by omega), keyBound_of_lt hlt]
    by_cases hlast : threadCount - 1 = threadID
    · rw [if_pos hlast, ← hlast, Int.sub_add_cancel, keyBound_self]
    · rw [if_neg hlast, keyBound_of_lt (by omega), Int.mul_add, Int.mul_one]
      exact asInt_of_fits (by unfold FitsInt; omega)
  have htotal : (if 0 < threadCount then threadCount else 1) = threadCount := if_pos (by omega)
  rw [newThreadState, htotal]
  dsimp only
  rw [if_neg (by omega), if_neg (by omega), hstart, hend]

/-- There is a state just if there is a first timestamp. -/
theorem exists_newThreadState_iff (hfits : (w.keys.length : ℤ) < 2 ^ 31) (hid : 0 ≤ threadID) (hlt : threadID < threadCount)
    (hle : threadCount ≤ w.keys.length) :
    (∃ s, newThreadState w clock shuffle threadID threadCount = .ok s) ↔
      ∃ g r, newTimestampGenerator w clock shuffle = .ok g ∧ g.nextValue = .ok r := by
  rw [newThreadState_eq hfits hid hlt hle]
  constructor
  · rintro ⟨s, hs⟩
    obtain ⟨g, hg, hs⟩ := bind_inv hs
    obtain ⟨r, hr, -⟩ := bind_inv hs
    exact ⟨g, r, hg, rethrow_eq_ok hr⟩
  · rintro ⟨g, r, hg, hr⟩
    have hr' : rethrow g.nextValue = .ok r := by rw [hr]; rfl
    exact ⟨_, by rw [bind_ok hg, bind_ok hr']⟩

theorem keyRange_eq (hfits : (w.keys.length : ℤ) < 2 ^ 31) (hid : 0 ≤ threadID) (hlt : threadID < threadCount) (hle : threadCount ≤ w.keys.length)
    {s : ThreadState} (h : newThreadState w clock shuffle threadID threadCount = .ok s) :
    s.keyIdxStart = keyBound w.keys.length threadCount threadID ∧ s.keyIdxEnd = keyBound w.keys.length threadCount (threadID + 1) := by
  rw [newThreadState_eq hfits hid hlt hle] at h
  obtain ⟨g, -, h⟩ := bind_inv h
  obtain ⟨r, -, h⟩ := bind_inv h
  cases h
  exact ⟨rfl, rfl⟩

/-- **The ranges of the threads are a partition of the keys**: none is empty, no two have a key in common, and each key is in one. -/
theorem keyRanges_partition (hfits : (w.keys.length : ℤ) < 2 ^ 31) (hpos : 1 ≤ threadCount) (hle : threadCount ≤ w.keys.length) {clocks : ℕ → Clock}
    {shuffles : ℕ → List ℤ → List ℤ} {states : ℕ → ThreadState}
    (hstates : ∀ i : ℕ, i < threadCount → newThreadState w (clocks i) (shuffles i) i threadCount = .ok (states i)) :
    (∀ i : ℕ, i < threadCount → (Set.Ico (states i).keyIdxStart (states i).keyIdxEnd).Nonempty) ∧
      (∀ i j : ℕ, i < threadCount → j < threadCount → i ≠ j →
        Disjoint (Set.Ico (states i).keyIdxStart (states i).keyIdxEnd) (Set.Ico (states j).keyIdxStart (states j).keyIdxEnd)) ∧
      ∀ x : ℤ, x ∈ Set.Ico 0 (w.keys.length : ℤ) ↔ ∃ i : ℕ, i < threadCount ∧ x ∈ Set.Ico (states i).keyIdxStart (states i).keyIdxEnd := by
  have hrange : ∀ i : ℕ, i < threadCount →
      (states i).keyIdxStart = keyBound w.keys.length threadCount i ∧ (states i).keyIdxEnd = keyBound w.keys.length threadCount (i + 1) :=
    fun i hi => keyRange_eq hfits (Int.natCast_nonneg i) hi hle (hstates i hi)
  -- a range ends before the next begins
  have hbefore : ∀ i j : ℕ, i < j → (j : ℤ) < threadCount → keyBound w.keys.length threadCount (i + 1) ≤ keyBound w.keys.length threadCount j := by
    intro i j hij hj
    have hmono := keyBound_mono hpos hle (i := i + 1) (j - (i + 1)) (by omega)
    rwa [show (i : ℤ) + 1 + (j - (i + 1) : ℕ) = j by omega] at hmono
  refine ⟨fun i hi => ?_, fun i j hi hj hne => ?_, fun x => ⟨fun hx => ?_, ?_⟩⟩
  · rw [(hrange i hi).1, (hrange i hi).2]
    exact Set.nonempty_Ico.mpr (keyBound_lt_succ hpos hle hi)
  · rw [(hrange i hi).1, (hrange i hi).2, (hrange j hj).1, (hrange j hj).2, Set.Ico_disjoint_Ico]
    rcases Nat.lt_or_gt_of_ne hne with hij | hij
    · exact (min_le_left _ _).trans ((hbefore i j hij hj).trans (le_max_right _ _))
    · exact (min_le_right _ _).trans ((hbefore j i hij hi).trans (le_max_left _ _))
  · obtain ⟨i, hi, hin⟩ := exists_keyBound hpos hle hx.1 hx.2
    rw [← (hrange i hi).1, ← (hrange i hi).2] at hin
    exact ⟨i, hi, hin⟩
  · rintro ⟨i, hi, hstart, hend⟩
    rw [(hrange i hi).1] at hstart
    rw [(hrange i hi).2] at hend
    have hfirst := keyBound_mono hpos hle (i := 0) i (by omega)
    rw [keyBound_zero hpos, Int.zero_add] at hfirst
    have hlast := keyBound_mono hpos hle (i := i + 1) (threadCount - (i + 1)).toNat (by omega)
    rw [show (i : ℤ) + 1 + (threadCount - (i + 1)).toNat = threadCount by omega, keyBound_self] at hlast
    exact ⟨hfirst.trans hstart, hend.trans_le hlast⟩

/-- Properties for three keys with one series each. -/
def threeKeys : Properties :=
  { Properties.defaults with
    randomtimeseriesorder := false
    fieldcount := .of 3
    fieldlength := .of 1
    tagcount := .of 1
    tagkeylength := .of 1
    tagvaluelength := .of 1
    tagcardinality := [some (.of 1)] }

set_option maxRecDepth 4000 in
/-- Of three keys the first thread of two gets one, and the other the rest. -/
theorem keyRanges_partition_three :
    ∃ w s s', init threeKeys noShuffles = .ok w ∧ newThreadState w ⟨0, 0⟩ id 0 2 = .ok s ∧ newThreadState w ⟨0, 0⟩ id 1 2 = .ok s' ∧
      s.keyIdxEnd = 1 ∧ s'.keyIdxEnd = 3 ∧ Disjoint (Set.Ico s.keyIdxStart s.keyIdxEnd) (Set.Ico s'.keyIdxStart s'.keyIdxEnd) := by
  obtain ⟨w, hw, hlen, hstart, horder⟩ : ∃ w, init threeKeys noShuffles = .ok w ∧ (w.keys.length : ℤ) = 3 ∧ w.insertstart = .unset ∧
      w.randomizeTimestampOrder = false := ⟨_, rfl, rfl, rfl, rfl⟩
  have hgenerator : newTimestampGenerator w ⟨0, 0⟩ id = .ok (.ofClock ⟨0, 0⟩ w.timestampInterval w.timeUnits) := by
    rw [newTimestampGenerator, hstart, horder]
    rfl
  have hfits : (w.keys.length : ℤ) < 2 ^ 31 := by
    rw [hlen]
    decide
  obtain ⟨s, hs⟩ : ∃ s, newThreadState w ⟨0, 0⟩ id 0 2 = .ok s := (exists_newThreadState_iff hfits (by decide) (by decide) (by omega)).mpr
    ⟨_, _, hgenerator, rfl⟩
  obtain ⟨s', hs'⟩ : ∃ s, newThreadState w ⟨0, 0⟩ id 1 2 = .ok s := (exists_newThreadState_iff hfits (by decide) (by decide) (by omega)).mpr
    ⟨_, _, hgenerator, rfl⟩
  have hstates : ∀ i : ℕ, (i : ℤ) < 2 → newThreadState w ⟨0, 0⟩ id i 2 = .ok (if i = 0 then s else s') := by
    intro i hi
    have hcases : i = 0 ∨ i = 1 := by omega
    rcases hcases with rfl | rfl
    · exact hs
    · exact hs'
  have hall := keyRanges_partition hfits (by decide) (by omega) hstates
  refine ⟨w, s, s', hw, hs, hs', ?_, ?_, hall.2.1 0 1 (by decide) (by decide) (by decide)⟩
  · rw [(keyRange_eq hfits (by decide) (by decide) (by omega) hs).2, hlen]
    rfl
  · rw [(keyRange_eq hfits (by decide) (by decide) (by omega) hs').2, hlen]
    rfl

end YcsbIvs.TimeSeries
