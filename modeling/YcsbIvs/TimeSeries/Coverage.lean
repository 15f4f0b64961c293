import YcsbIvs.Foundations.Odometer
import YcsbIvs.TimeSeries.ThreadState
import Mathlib.Data.List.DropRight
import Mathlib.Data.List.GetD

/-!
# Which series are written for a timestamp

Between two advances of its timestamp generator a thread is to write a point of each of its series. What
it does depends on the *fast* tags: those after the last tag of a cardinality of at most 1. They are an odometer
(`rollLoop_fast`), and whenever it is through the key changes, since a tag of a cardinality of at most 1
lets it roll over at once. The tags before are *slow*: each round of the odometer counts them on by one.

So a thread makes as many points for a timestamp as its keys and fast tags have combinations, one for
each (`inv_step`). These are all its series if no slow tag has more than one value; else there are not
enough of them. **The thread writes each of its series once if and only if no tag of a cardinality of at most 1 comes after
one with a greater cardinality**, and no point is an update (`covers_iff`).
-/

namespace YcsbIvs.TimeSeries

open YcsbIvs.Foundations YcsbIvs.Generator

/-! ### Series -/

/-- A series: the number of its key, and those of the values of its tags. -/
abbrev Series := ℤ × List ℕ

/-- A series of the thread: its key is in the thread's range, and each tag has one of its values. -/
def IsSeries (w : TimeSeriesWorkload) (s : ThreadState) (p : Series) : Prop :=
  s.keyIdxStart ≤ p.1 ∧ p.1 < s.keyIdxEnd ∧ IsDigits (w.tagCardinality.map (max 1)) p.2

/-- Each series of the thread is there once, and nothing else. -/
def Covers (w : TimeSeriesWorkload) (s : ThreadState) (written : List Series) : Prop :=
  written.Nodup ∧ ∀ p, p ∈ written ↔ IsSeries w s p

/-- No tag with one value comes after one with more. -/
def OnesFirst (cards : List ℕ) : Prop := cards.Pairwise fun a b => 1 < a → 1 < b

/-- Each tag has its first value. -/
theorem isDigits_zeros_max (cards : List ℕ) : IsDigits (cards.map (max 1)) (zeros (cards.map (max 1))) :=
  isDigits_zeros fun r hr => by
    obtain ⟨c, -, rfl⟩ := List.mem_map.mp hr
    omega

/-! ### Fast and slow tags -/

/-- The cardinalities of the slow tags, and of the fast ones after them. -/
structure Split (cards slow fast : List ℕ) : Prop where
  /-- They are all there are. -/
  eq : cards = slow ++ fast
  /-- The fast ones are greater than 1. -/
  one_lt : ∀ c ∈ fast, 1 < c
  /-- The last of the slow ones is not. -/
  last_le : ∀ slow' c, slow = slow' ++ [c] → c ≤ 1

theorem exists_split (cards : List ℕ) : ∃ slow fast, Split cards slow fast := by
  refine ⟨cards.rdropWhile fun c => decide (1 < c), cards.rtakeWhile fun c => decide (1 < c), ?_, ?_, ?_⟩
  · exact List.rdropWhile_append_rtakeWhile.symm
  · intro c hc
    simpa using List.mem_rtakeWhile_imp hc
  · intro slow' c heq
    have hne : cards.rdropWhile (fun c => decide (1 < c)) ≠ [] := by
      rw [heq]
      exact List.concat_ne_nil c slow'
    have hlast := List.rdropWhile_last_not _ _ hne
    simp only [heq, List.getLast_append_singleton, decide_eq_true_eq] at hlast
    omega

section

variable {cards slow fast : List ℕ}

/-- The first tag with more than one value is not after the first fast one. -/
theorem Split.first_le (h : Split cards slow fast) : firstIncrementable cards ≤ slow.length := by
  rw [firstIncrementable, h.eq, List.findIdx?_append]
  cases hslow : slow.findIdx? fun card => decide (1 < card) with
  | some i => exact (List.findIdx?_eq_some_iff_getElem.mp hslow).1.le
  | none =>
    cases fast with
    | nil => exact Nat.zero_le _
    | cons c fast =>
      have hc : 1 < c := h.one_lt c List.mem_cons_self
      simp [List.findIdx?_cons, hc]

theorem Split.map_max (h : Split cards slow fast) : cards.map (max 1) = slow.map (max 1) ++ fast := by
  have hfast : fast.map (max 1) = fast := (List.map_congr_left fun c hc => max_eq_right (h.one_lt c hc).le).trans (List.map_id fast)
  rw [h.eq, List.map_append, hfast]

theorem Split.onesFirst_iff (h : Split cards slow fast) : OnesFirst cards ↔ ∀ c ∈ slow, c ≤ 1 := by
  rw [OnesFirst, h.eq, List.pairwise_append]
  constructor
  · rintro ⟨hslow, -, -⟩ c hc
    obtain ⟨slow', last, rfl⟩ := (List.eq_nil_or_concat slow).resolve_left (List.ne_nil_of_mem hc)
    have hlast := h.last_le slow' last List.concat_eq_append
    rw [List.concat_eq_append] at hslow hc
    rcases List.mem_append.mp hc with hmem | hmem
    · by_contra hgt
      have hafter := (List.pairwise_append.mp hslow).2.2 c hmem last List.mem_cons_self (by omega)
      omega
    · rw [List.mem_singleton.mp hmem]
      exact hlast
  · intro hslow
    refine ⟨List.pairwise_of_forall_mem_list fun a ha b _ hgt => absurd (hslow a ha) (by omega), ?_, fun a _ b hb _ => h.one_lt b hb⟩
    exact List.pairwise_of_forall_mem_list fun a _ b hb _ => h.one_lt b hb

end

/-! ### The odometer -/

section Roll

variable {first : ℕ}

theorem getD_middle {α : Type} (l l' : List α) (a d : α) : (l ++ a :: l').getD l.length d = a := by
  simp [List.getD]

theorem set_middle {α : Type} (l l' : List α) (a b : α) : (l ++ a :: l').set l.length b = l ++ b :: l' := by
  simp

/-- The loop counts the fast tags on, and goes on with the slow ones when it is through with them. -/
theorem rollLoop_fast (slow fast rest : List ℕ) (slowIdxs fastIdxs restIdxs : List ℕ) (tagRollover : Bool)
    (hlen : slow.length = slowIdxs.length) (hfast : ∀ c ∈ fast, 1 < c) (hdigits : IsDigits fast fastIdxs) (hfirst : first ≤ slow.length) :
    rollLoop (slow ++ fast ++ rest) first (slow.length + fast.length) (slowIdxs ++ fastIdxs ++ restIdxs) tagRollover =
      match bump fast fastIdxs with
      | some fastIdxs' => (slowIdxs ++ fastIdxs' ++ restIdxs, tagRollover)
      | none => rollLoop (slow ++ fast ++ rest) first slow.length (slowIdxs ++ zeros fast ++ restIdxs)
          (tagRollover || (!fast.isEmpty && decide (first = slow.length))) := by
  induction fast using List.reverseRecOn generalizing fastIdxs rest restIdxs tagRollover with
  | nil =>
    obtain rfl : fastIdxs = [] := List.length_eq_zero_iff.mp hdigits.length_eq.symm
    simp [bump]
  | append_singleton fast c ih =>
    obtain ⟨fastIdxs, back, rfl, hfront, hback⟩ := IsDigits.split hdigits
    obtain ⟨d, hd, rfl⟩ : ∃ d, d < c ∧ back = [d] := by
      obtain ⟨d, tail, hd, htail, rfl⟩ := List.forall₂_cons_left_iff.mp hback
      cases htail
      exact ⟨d, hd, rfl⟩
    have hc : 1 < c := hfast c (by simp)
    have hidx : slow.length + fast.length = (slow ++ fast).length := List.length_append.symm
    have hidx' : slow.length + fast.length = (slowIdxs ++ fastIdxs).length := by
      rw [List.length_append, hlen, hfront.length_eq]
    have hcard : (slow ++ fast ++ c :: rest).getD (slow.length + fast.length) 0 = c := by rw [hidx, getD_middle]
    have hdigit : (slowIdxs ++ fastIdxs ++ d :: restIdxs).getD (slow.length + fast.length) 0 = d := by rw [hidx', getD_middle]
    have hset : ∀ e, (slowIdxs ++ fastIdxs ++ d :: restIdxs).set (slow.length + fast.length) e = slowIdxs ++ fastIdxs ++ e :: restIdxs := by
      intro e
      rw [hidx', set_middle]
    have hcards : slow ++ (fast ++ [c]) ++ rest = slow ++ fast ++ c :: rest := by simp
    have hidxs : ∀ (idxs : List ℕ) e, slowIdxs ++ (idxs ++ [e]) ++ restIdxs = slowIdxs ++ idxs ++ e :: restIdxs := by simp
    rw [hcards, hidxs, List.length_append, List.length_singleton, ← Nat.add_assoc, rollLoop, hcard, hdigit, hset, hset,
      if_neg (by omega), bump_concat hfront.length_eq]
    by_cases hwrap : d + 1 < c
    · rw [if_neg (by omega), if_pos hwrap]
      dsimp only
      rw [hidxs]
    · -- The last of the fast tags starts again, and the ones before it count on.
      rw [if_pos (by omega), if_neg hwrap, ih (c :: rest) fastIdxs (0 :: restIdxs) _ (fun c' hc' => hfast c' (by simp [hc'])) hfront]
      cases fast with
      | nil =>
        obtain rfl : fastIdxs = [] := List.length_eq_zero_iff.mp hfront.length_eq.symm
        by_cases heq : first = slow.length
        · simp [bump, heq]
        · simp [bump, heq, Ne.symm heq]
      | cons c' fast =>
        rw [if_neg (by rw [List.length_cons]; omega)]
        cases bump (c' :: fast) fastIdxs with
        | some fastIdxs' =>
          dsimp only [Option.map_some]
          rw [hidxs]
        | none => simp

/-- The loop leaves the tags from number `i` on as they are. -/
theorem drop_rollLoop (cards : List ℕ) (i : ℕ) (idxs : List ℕ) (tagRollover : Bool) :
    (rollLoop cards first i idxs tagRollover).1.drop i = idxs.drop i := by
  induction i generalizing idxs tagRollover with
  | zero => rfl
  | succ i ih =>
    have hdrop : ∀ l l' : List ℕ, l.drop i = l'.drop i → l.drop (i + 1) = l'.drop (i + 1) := by
      intro l l' h
      rw [← List.drop_drop, ← List.drop_drop, h]
    have hset : ∀ x, (idxs.set i x).drop (i + 1) = idxs.drop (i + 1) := fun x => List.drop_set_of_lt (Nat.lt_succ_self i)
    rw [rollLoop]
    split_ifs
    · exact hdrop _ _ (ih idxs true)
    · exact (hdrop _ _ (ih (idxs.set i 0) _)).trans (hset 0)
    · exact (hdrop _ _ (ih (idxs.set i 0) _)).trans (hset 0)
    · exact hset _

/-- The numbers stay in range. -/
theorem isDigits_rollLoop (cards : List ℕ) (i : ℕ) {idxs : List ℕ} (tagRollover : Bool) (h : IsDigits (cards.map (max 1)) idxs) :
    IsDigits (cards.map (max 1)) (rollLoop cards first i idxs tagRollover).1 := by
  have hradix : ∀ i, (cards.map (max 1)).getD i 1 = max 1 (cards.getD i 0) := fun i => List.getD_map cards 0 (max 1)
  induction i generalizing idxs tagRollover with
  | zero => exact h
  | succ i ih =>
    have hzero : IsDigits (cards.map (max 1)) (idxs.set i 0) := h.set (by rw [hradix]; omega)
    rw [rollLoop]
    split_ifs
    · exact ih true h
    · exact ih _ hzero
    · exact ih _ hzero
    · exact h.set (by rw [hradix]; omega)

/-- Once the key is to roll over it does. -/
theorem rollLoop_true (cards : List ℕ) (i : ℕ) (idxs : List ℕ) : (rollLoop cards first i idxs true).2 = true := by
  induction i generalizing idxs with
  | zero => rfl
  | succ i ih =>
    rw [rollLoop, ite_self]
    split_ifs
    · exact ih idxs
    · exact ih _
    · rfl

/-- A slow tag lets the key roll over: the last one of them has one value. -/
theorem rollLoop_slow {slow rest : List ℕ} (idxs : List ℕ) (tagRollover : Bool) (hlast : ∀ slow' c, slow = slow' ++ [c] → c ≤ 1)
    (hne : slow ≠ []) : (rollLoop (slow ++ rest) first slow.length idxs tagRollover).2 = true := by
  obtain ⟨slow', c, rfl⟩ := (List.eq_nil_or_concat slow).resolve_left hne
  rw [List.concat_eq_append] at hlast ⊢
  have hcard : (slow' ++ [c] ++ rest).getD slow'.length 0 = c := by
    rw [List.append_assoc, List.singleton_append, getD_middle]
  rw [List.length_append, List.length_singleton, rollLoop, hcard, if_pos (hlast slow' c rfl)]
  exact rollLoop_true _ _ _

/-- **The fast tags count on, and the key rolls over when they are through.** -/
theorem rollLoop_spec {cards slow fast idxs : List ℕ} (h : Split cards slow fast) (hne : cards ≠ []) (hidxs : IsDigits (cards.map (max 1)) idxs) :
    match bump fast (idxs.drop slow.length) with
    | some fastIdxs => (rollLoop cards (firstIncrementable cards) cards.length idxs false).1.drop slow.length = fastIdxs ∧
        (rollLoop cards (firstIncrementable cards) cards.length idxs false).2 = false
    | none => (rollLoop cards (firstIncrementable cards) cards.length idxs false).1.drop slow.length = zeros fast ∧
        (rollLoop cards (firstIncrementable cards) cards.length idxs false).2 = true := by
  rw [h.map_max] at hidxs
  obtain ⟨slowIdxs, fastIdxs, rfl, hslow, hfast⟩ := hidxs.split
  have hlen : slow.length = slowIdxs.length := by simpa using hslow.length_eq
  have hroll := rollLoop_fast slow fast [] slowIdxs fastIdxs [] false hlen h.one_lt hfast h.first_le
  simp only [List.append_nil] at hroll
  rw [← h.eq, ← List.length_append, ← h.eq] at hroll
  rw [hroll, hlen, List.drop_left]
  cases bump fast fastIdxs with
  | some fastIdxs' => exact ⟨List.drop_left, rfl⟩
  | none =>
    dsimp only
    constructor
    · rw [← hlen, drop_rollLoop, hlen, List.drop_left]
    · by_cases hempty : slow = []
      · subst hempty
        obtain rfl : slowIdxs = [] := List.length_eq_zero_iff.mp hlen.symm
        have hfirst : firstIncrementable cards = 0 := Nat.le_zero.mp h.first_le
        have hfast : fast ≠ [] := fun hnil => hne (h.eq.trans hnil)
        simp [rollLoop, hfirst, hfast]
      · rw [← hlen, h.eq]
        exact rollLoop_slow _ _ h.last_le hempty

end Roll

/-! ### The next series -/

/-- The series whose turn it is. -/
def ThreadState.turn (s : ThreadState) : Series := (s.keyIdx, s.tagValueIdxs)

/-- The number of keys of a thread, and the cardinalities of the fast tags: the radices of what is counted. -/
def radices (s : ThreadState) (fast : List ℕ) : List ℕ := (s.keyIdxEnd - s.keyIdxStart).toNat :: fast

/-- The digits of a series: its key, and the values of its fast tags. -/
def digits (s : ThreadState) (slow : List ℕ) (p : Series) : List ℕ := (p.1 - s.keyIdxStart).toNat :: p.2.drop slow.length

/-- The place of a series in the order they are written in. Series that differ in slow tags only share it. -/
def place (s : ThreadState) (slow fast : List ℕ) (p : Series) : ℕ := number (radices s fast) (digits s slow p)

section

variable {w : TimeSeriesWorkload} {s : ThreadState} {slow fast : List ℕ} {p : Series}

theorem IsSeries.isDigits (h : Split w.tagCardinality slow fast) (hp : IsSeries w s p) : IsDigits (radices s fast) (digits s slow p) := by
  obtain ⟨hstart, hend, htags⟩ := hp
  rw [h.map_max] at htags
  obtain ⟨slowIdxs, fastIdxs, heq, hslow, hfast⟩ := htags.split
  have hlen : slow.length = slowIdxs.length := by simpa using hslow.length_eq
  rw [digits, heq, hlen, List.drop_left]
  exact .cons (by omega) hfast

@[simp] theorem keyIdxStart_countOn : (countOn w s).keyIdxStart = s.keyIdxStart := by
  rw [countOn]
  dsimp only
  split_ifs <;> rfl

@[simp] theorem keyIdxEnd_countOn : (countOn w s).keyIdxEnd = s.keyIdxEnd := by
  rw [countOn]
  dsimp only
  split_ifs <;> rfl

/-- Two states of one thread. -/
structure SameKeys (s s' : ThreadState) : Prop where
  /-- The first key. -/
  start_eq : s'.keyIdxStart = s.keyIdxStart
  /-- The end of the keys. -/
  end_eq : s'.keyIdxEnd = s.keyIdxEnd

section

variable {s' : ThreadState} (h : SameKeys s s')

include h

theorem SameKeys.isSeries_iff : IsSeries w s' p ↔ IsSeries w s p := by
  rw [IsSeries, IsSeries, h.start_eq, h.end_eq]

theorem SameKeys.radices_eq : radices s' fast = radices s fast := by
  rw [radices, radices, h.start_eq, h.end_eq]

theorem SameKeys.place_eq : place s' slow fast p = place s slow fast p := by
  rw [place, place, h.radices_eq, digits, digits, h.start_eq]

end

/-- The next series is one of the thread. -/
theorem isSeries_countOn (hturn : IsSeries w s s.turn) : IsSeries w s (countOn w s).turn := by
  obtain ⟨hstart, hend, htags⟩ := hturn
  have hrange : IsDigits (w.tagCardinality.map (max 1))
      (rollLoop w.tagCardinality w.firstIncrementableCardinality w.tagCardinality.length s.tagValueIdxs false).1 :=
    isDigits_rollLoop _ _ _ htags
  dsimp only [ThreadState.turn] at hstart hend
  rw [countOn]
  dsimp only
  split_ifs with hroll hlast
  · exact ⟨le_refl _, hstart.trans_lt hend, hrange⟩
  · have hkeys : s.keyIdxStart ≤ s.keyIdx + 1 ∧ s.keyIdx + 1 < s.keyIdxEnd := by omega
    exact ⟨hkeys.1, hkeys.2, hrange⟩
  · exact ⟨hstart, hend, hrange⟩

/-- **The next series is the one that comes next**; after the last one comes the first, and the thread rolls over. -/
theorem countOn_spec (h : Split w.tagCardinality slow fast) (hne : w.tagCardinality ≠ [])
    (hfirst : w.firstIncrementableCardinality = firstIncrementable w.tagCardinality) (hturn : IsSeries w s s.turn) :
    (place s slow fast (countOn w s).turn = place s slow fast s.turn + 1 ∧ (countOn w s).rollover = s.rollover) ∨
      (place s slow fast (countOn w s).turn = 0 ∧ (countOn w s).rollover = true ∧
        place s slow fast s.turn + 1 = (radices s fast).prod) := by
  have hdigits := hturn.isDigits h
  obtain ⟨hstart, hend, htags⟩ := hturn
  have hspec := rollLoop_spec h hne htags
  rcases hroll : rollLoop w.tagCardinality (firstIncrementable w.tagCardinality) w.tagCardinality.length s.tagValueIdxs false with ⟨idxs, tagRollover⟩
  dsimp only [ThreadState.turn] at hspec hstart hend
  rw [hroll] at hspec
  rw [countOn, hfirst, hroll]
  dsimp only
  cases hbump : bump fast (s.tagValueIdxs.drop slow.length) with
  | some fastIdxs =>
    rw [hbump] at hspec
    obtain ⟨hdrop, rfl⟩ := hspec
    have hnext : bump (radices s fast) (digits s slow s.turn) = some (digits s slow (s.keyIdx, idxs)) := by
      rw [radices, digits, bump, ThreadState.turn, hbump, digits, hdrop]
    exact .inl ⟨(bump_some hdigits hnext).2, rfl⟩
  | none =>
    rw [hbump] at hspec
    obtain ⟨hdrop, rfl⟩ := hspec
    by_cases hlast : s.keyIdxEnd ≤ s.keyIdx + 1
    · have hnext : bump (radices s fast) (digits s slow s.turn) = none := by
        rw [radices, digits, bump, ThreadState.turn, hbump]
        exact if_neg (by omega)
      have hzero : place s slow fast (s.keyIdxStart, idxs) = 0 := by
        rw [place, digits, hdrop, sub_self]
        exact number_zeros (radices s fast)
      rw [if_pos hlast]
      exact .inr ⟨hzero, rfl, bump_none hdigits hnext⟩
    · have hnext : bump (radices s fast) (digits s slow s.turn) = some (digits s slow (s.keyIdx + 1, idxs)) := by
        have hkey : (s.keyIdx + 1 - s.keyIdxStart).toNat = (s.keyIdx - s.keyIdxStart).toNat + 1 := by omega
        rw [radices, digits, bump, ThreadState.turn, hbump, digits, hdrop, hkey]
        exact if_pos (by omega)
      rw [if_neg hlast]
      exact .inl ⟨(bump_some hdigits hnext).2, rfl⟩

/-- The value of a tag that has only one. -/
theorem eq_zeros {cards idxs : List ℕ} (hones : ∀ c ∈ cards, c ≤ 1) (h : IsDigits (cards.map (max 1)) idxs) : idxs = zeros cards := by
  induction cards generalizing idxs with
  | nil =>
    cases h
    rfl
  | cons c cards ih =>
    obtain ⟨hc, hcards⟩ := List.forall_mem_cons.mp hones
    obtain ⟨d, tail, hd, htail, rfl⟩ := List.forall₂_cons_left_iff.mp h
    rw [zeros_cons, ih hcards htail]
    congr
    omega

/-- Places tell the series of a thread apart just if no slow tag has more than one value. -/
theorem onesFirst_iff_place (h : Split w.tagCardinality slow fast) (hkeys : s.keyIdxStart < s.keyIdxEnd) :
    OnesFirst w.tagCardinality ↔ ∀ p q, IsSeries w s p → IsSeries w s q → place s slow fast p = place s slow fast q → p = q := by
  rw [h.onesFirst_iff]
  constructor
  · intro hslow p q hp hq hplace
    have heq := number_inj (hp.isDigits h) (hq.isDigits h) hplace
    rw [digits, digits, List.cons.injEq] at heq
    have hzeros : ∀ p, IsSeries w s p → p.2 = zeros slow ++ p.2.drop slow.length := by
      rintro p ⟨-, -, htags⟩
      rw [h.map_max] at htags
      obtain ⟨slowIdxs, fastIdxs, hidxs, hslowIdxs, -⟩ := htags.split
      have hfirst := eq_zeros hslow hslowIdxs
      rw [hidxs, hfirst, ← length_zeros slow, List.drop_left]
    refine Prod.ext ?_ ?_
    · have hp := hp.1
      have hq := hq.1
      omega
    · rw [hzeros p hp, hzeros q hq, heq.2]
  · intro hinj c hc
    by_contra hgt
    -- two series that differ in the value of this tag
    obtain ⟨i, hi, rfl⟩ := List.getElem_of_mem hc
    have hlen : i < w.tagCardinality.length := by
      rw [h.eq, List.length_append]
      omega
    have hcard : (w.tagCardinality.map (max 1)).getD i 1 = slow[i] := by
      rw [h.map_max]
      simp only [List.getD_eq_getElem?_getD]
      rw [List.getElem?_append_left (by simpa using hi)]
      simp [hi]
      omega
    have hzeros := isDigits_zeros_max w.tagCardinality
    have hone := hinj (s.keyIdxStart, (zeros (w.tagCardinality.map (max 1))).set i 1) (s.keyIdxStart, zeros (w.tagCardinality.map (max 1)))
      ⟨le_refl _, hkeys, hzeros.set (by rw [hcard]; omega)⟩ ⟨le_refl _, hkeys, hzeros⟩ (by rw [place, place, digits, digits, List.drop_set_of_lt hi])
    have hvalue := congrArg (fun l => l[i]?) (Prod.mk.inj hone).2
    simp [zeros, hlen] at hvalue

end

/-! ### Runs of a thread -/

/-- A thread, and the series it has made points of, in order, with whether they are inserted. -/
structure Session where
  /-- Its state. -/
  state : ThreadState
  /-- Those since the timestamp generator has last been advanced. -/
  made : List (Series × Bool)
  /-- Those before it, from one time it has been advanced to the next. -/
  finished : List (List (Series × Bool))

/-- A call of `nextDataPoint` that does not throw; the draws are given with it. `sparsity` is not positive, so that no series is passed over. -/
def step (w : TimeSeriesWorkload) (s : Session) (call : Bool × Draws) : Option Session :=
  match nextDataPoint w s.state call.1 call.2 with
  | .error _ => none
  | .ok (_, state) =>
    if s.state.rollover then some ⟨state, [(s.state.turn, call.1)], s.finished ++ [s.made]⟩
    else some ⟨state, s.made ++ [(s.state.turn, call.1)], s.finished⟩

/-- The series of which a point has been inserted. -/
def inserted (made : List (Series × Bool)) : List Series := (made.filter Prod.snd).map Prod.fst

section

variable {w : TimeSeriesWorkload} {slow fast : List ℕ}

/-- The points are of the series that come first. -/
structure InOrder (w : TimeSeriesWorkload) (s : ThreadState) (slow fast : List ℕ) (n : ℕ) (made : List (Series × Bool)) : Prop where
  /-- They are of series of the thread. -/
  series : ∀ p ∈ made, IsSeries w s p.1
  /-- Their places are the first ones. -/
  places : made.map (fun p => place s slow fast p.1) = List.range n

theorem mem_inserted {made : List (Series × Bool)} {p : Series} : p ∈ inserted made ↔ (p, true) ∈ made := by
  simp [inserted]

/-- **A round writes each series of the thread once, just if the tags with one value are the first ones, and all its points are inserted.** -/
theorem InOrder.covers_inserted_iff {s : ThreadState} {made : List (Series × Bool)} (h : Split w.tagCardinality slow fast)
    (hkeys : s.keyIdxStart < s.keyIdxEnd) (hmade : InOrder w s slow fast (radices s fast).prod made) :
    Covers w s (inserted made) ↔ OnesFirst w.tagCardinality ∧ ∀ p ∈ made, p.2 = true := by
  have hnodup : (made.map fun p => place s slow fast p.1).Nodup := hmade.places ▸ List.nodup_range
  have hinj := List.inj_on_of_nodup_map hnodup
  rw [onesFirst_iff_place h hkeys]
  constructor
  · rintro ⟨-, hmem⟩
    have hthere : ∀ p, IsSeries w s p → (p, true) ∈ made := fun p hp => mem_inserted.mp ((hmem p).mpr hp)
    refine ⟨fun p q hp hq hplace => congrArg Prod.fst (hinj (hthere p hp) (hthere q hq) hplace), fun p hp => ?_⟩
    rw [hinj hp (hthere p.1 (hmade.series p hp)) rfl]
  · rintro ⟨hsame, hall⟩
    refine ⟨?_, fun p => ⟨fun hp => hmade.series _ (mem_inserted.mp hp), fun hp => mem_inserted.mpr ?_⟩⟩
    · refine List.Nodup.of_map (place s slow fast) ?_
      rw [inserted, List.map_map]
      exact hnodup.sublist (List.filter_sublist.map _)
    · -- its place is one of those that have been written
      have hplace : place s slow fast p ∈ made.map fun p => place s slow fast p.1 := by
        rw [hmade.places, List.mem_range]
        exact number_lt (hp.isDigits h)
      obtain ⟨p', hp', heq⟩ := List.mem_map.mp hplace
      obtain rfl := hsame p'.1 p (hmade.series p' hp') hp heq
      rw [← hall p' hp']
      exact hp'

/-- The next point. -/
theorem InOrder.concat {s : ThreadState} {made : List (Series × Bool)} {p : Series} (h : InOrder w s slow fast (place s slow fast p) made)
    (hp : IsSeries w s p) (isInsert : Bool) : InOrder w s slow fast (place s slow fast p + 1) (made ++ [(p, isInsert)]) := by
  refine ⟨fun q hq => ?_, ?_⟩
  · rcases List.mem_append.mp hq with hq | hq
    · exact h.series q hq
    · rw [List.mem_singleton.mp hq]
      exact hp
  · rw [List.map_append, h.places, List.range_succ]
    rfl

theorem advance_inv {s s' : ThreadState} (h : advance s = .ok s') : SameKeys s s' ∧ s'.turn = s.turn ∧ s'.rollover = false := by
  rw [advance] at h
  split_ifs at h with hroll
  · obtain ⟨o, -, h⟩ := bind_inv h
    cases h
    exact ⟨⟨rfl, rfl⟩, rfl, rfl⟩
  · cases h
    exact ⟨⟨rfl, rfl⟩, rfl, Bool.eq_false_iff.mpr hroll⟩

/-- Where no series is passed over a point is made of the one whose turn it is. -/
theorem nextDataPoint_inv (hsparsity : w.sparsity.nonPositive = true) {s s' : ThreadState} {isInsert : Bool} {draws : Draws} {point : DataPoint}
    (h : nextDataPoint w s isInsert draws = .ok (point, s')) : ∃ s₁, advance s = .ok s₁ ∧ s' = countOn w s₁ := by
  rw [nextDataPoint, if_pos hsparsity] at h
  change (advance s >>= fun s₁ => makePoint w s₁ isInsert draws >>= fun point => .ok (point, countOn w s₁)) = _ at h
  obtain ⟨s₁, hadvance, h⟩ := bind_inv h
  obtain ⟨o, -, h⟩ := bind_inv h
  cases h
  exact ⟨s₁, hadvance, rfl⟩

/-- **What a thread has made**, where `s` is its first state. -/
structure Inv (w : TimeSeriesWorkload) (s : ThreadState) (slow fast : List ℕ) (t : Session) : Prop where
  /-- It keeps its keys. -/
  keys : SameKeys s t.state
  /-- It is the turn of one of its series. -/
  turn : IsSeries w s t.state.turn
  /-- After the last one comes the first. -/
  first : t.state.rollover = true → place s slow fast t.state.turn = 0
  /-- The points since the last advance are of the series before this one, or of all. -/
  made : InOrder w s slow fast (if t.state.rollover then (radices s fast).prod else place s slow fast t.state.turn) t.made
  /-- Those before are of all. -/
  finished : ∀ made ∈ t.finished, InOrder w s slow fast (radices s fast).prod made

theorem inv_step (h : Split w.tagCardinality slow fast) (hne : w.tagCardinality ≠ []) (haccepted : Accepted w)
    (hsparsity : w.sparsity.nonPositive = true) {s : ThreadState} {t t' : Session} {call : Bool × Draws} (hinv : Inv w s slow fast t)
    (hstep : step w t call = some t') : Inv w s slow fast t' := by
  rw [step] at hstep
  split at hstep
  · cases hstep
  · next point state hnext =>
    obtain ⟨s₁, hadvance, rfl⟩ := nextDataPoint_inv hsparsity hnext
    obtain ⟨hsame, hturn, hroll⟩ := advance_inv hadvance
    have hkeys : SameKeys s s₁ := ⟨hsame.start_eq.trans hinv.keys.start_eq, hsame.end_eq.trans hinv.keys.end_eq⟩
    have hseries : IsSeries w s₁ s₁.turn := hturn ▸ hkeys.isSeries_iff.mpr hinv.turn
    have hspec := countOn_spec h hne haccepted.firstIncrementable_eq hseries
    rw [hkeys.place_eq, hkeys.place_eq, hkeys.radices_eq, hturn, hroll] at hspec
    -- the points of this round so far, and those of the rounds that are over
    obtain ⟨made, finished, rfl, hmade, hfinished⟩ : ∃ made finished, t' = ⟨countOn w s₁, made ++ [(t.state.turn, call.1)], finished⟩ ∧
        InOrder w s slow fast (place s slow fast t.state.turn) made ∧ ∀ made ∈ finished, InOrder w s slow fast (radices s fast).prod made := by
      have hnow := hinv.made
      split_ifs at hstep with hover
      · cases hstep
        rw [if_pos hover] at hnow
        refine ⟨[], _, rfl, ?_, fun made hmem => ?_⟩
        · rw [hinv.first hover]
          exact ⟨fun p hp => absurd hp List.not_mem_nil, rfl⟩
        · rcases List.mem_append.mp hmem with hmem | hmem
          · exact hinv.finished made hmem
          · exact List.mem_singleton.mp hmem ▸ hnow
      · cases hstep
        rw [if_neg hover] at hnow
        exact ⟨_, _, rfl, hnow, hinv.finished⟩
    have hmade' := hmade.concat hinv.turn call.1
    refine ⟨⟨keyIdxStart_countOn.trans hkeys.start_eq, keyIdxEnd_countOn.trans hkeys.end_eq⟩, hkeys.isSeries_iff.mp (isSeries_countOn hseries),
      fun hover => ?_, ?_, hfinished⟩
    · rcases hspec with ⟨-, hnot⟩ | ⟨hzero, -, -⟩
      · exact absurd (hover.symm.trans hnot) (by decide)
      · exact hzero
    · rcases hspec with ⟨hplace, hnot⟩ | ⟨-, hover, hlast⟩
      · dsimp only
        rw [hnot, if_neg (by decide), hplace]
        exact hmade'
      · dsimp only
        rw [hover, if_pos rfl, ← hlast]
        exact hmade'

/-- Without tags a thread does not get on. -/
theorem finished_eq_nil (hnil : w.tagCardinality = []) (hsparsity : w.sparsity.nonPositive = true) {t t' : Session} {call : Bool × Draws}
    (hinv : t.state.rollover = false ∧ t.finished = []) (hstep : step w t call = some t') :
    t'.state.rollover = false ∧ t'.finished = [] := by
  rw [step] at hstep
  split at hstep
  · cases hstep
  · next point state hnext =>
    obtain ⟨s₁, hadvance, rfl⟩ := nextDataPoint_inv hsparsity hnext
    obtain ⟨-, -, hroll⟩ := advance_inv hadvance
    rw [hinv.1, if_neg (by decide)] at hstep
    cases hstep
    refine ⟨?_, hinv.2⟩
    rw [countOn, hnil]
    exact hroll

/-- The keys of a thread: there is one, and they are keys of the workload. -/
theorem keyRange {n total threadID : ℤ} (hfits : n < 2 ^ 31) (htotal : 1 ≤ total) (hle : total ≤ n) (hid : 0 ≤ threadID) (hlt : threadID < total) :
    0 ≤ asInt (n.tdiv total * threadID) ∧
      asInt (n.tdiv total * threadID) < (if total - 1 = threadID then n else asInt (asInt (n.tdiv total * threadID) + n.tdiv total)) ∧
      (if total - 1 = threadID then n else asInt (asInt (n.tdiv total * threadID) + n.tdiv total)) ≤ n := by
  obtain ⟨k, hk⟩ : ∃ k, k = n.tdiv total := ⟨_, rfl⟩
  have hdiv : k = n / total := hk.trans (Int.tdiv_eq_ediv_of_nonneg (by omega))
  have hpos : 1 ≤ k := by
    rw [hdiv]
    exact Int.le_ediv_of_mul_le (by omega) (by omega)
  have hall : k * total ≤ n := by
    rw [hdiv]
    exact Int.ediv_mul_le n (by omega)
  have hnonneg : 0 ≤ k * threadID := Int.mul_nonneg (by omega) hid
  have hnext : k * threadID + k ≤ n := by
    have hmul : k * (threadID + 1) ≤ k * total := Int.mul_le_mul_of_nonneg_left (by omega) (by omega)
    rw [Int.mul_add, Int.mul_one] at hmul
    omega
  rw [← hk, asInt_of_fits (x := k * threadID) ⟨by omega, by omega⟩]
  split_ifs
  · omega
  · rw [asInt_of_fits (x := k * threadID + k) ⟨by omega, by omega⟩]
    omega

/-- The state of a new thread. -/
structure IsNew (w : TimeSeriesWorkload) (s : ThreadState) : Prop where
  /-- Its first key is one of the workload. -/
  start_nonneg : 0 ≤ s.keyIdxStart
  /-- It has a key. -/
  start_lt : s.keyIdxStart < s.keyIdxEnd
  /-- Its last key is one of the workload. -/
  end_le : s.keyIdxEnd ≤ w.keys.length
  /-- It begins with the first. -/
  keyIdx_eq : s.keyIdx = s.keyIdxStart
  /-- It begins with the first value of each tag. -/
  tagValueIdxs_eq : s.tagValueIdxs = List.replicate w.tagPairs 0
  /-- No series have had their turn. -/
  rollover_eq : s.rollover = false
  /-- Offsets are below the number of intervals. -/
  queryOffsetGenerator_eq : s.queryOffsetGenerator = .new 0 (asInt (w.maxOffsets - 2))
  /-- The timestamp generator is at the first timestamp. -/
  startTimestamp_eq : s.startTimestamp = s.timestampGenerator.currentTimestamp

/-- A generator is at the timestamp it has given. -/
theorem currentTimestamp_nextValue {g : TimestampGenerator} {r : ℤ × TimestampGenerator} (h : g.nextValue = .ok r) :
    r.1 = r.2.currentTimestamp := by
  rw [TimestampGenerator.nextValue] at h
  split at h
  · cases h
    rfl
  · split at h
    · cases h
    · cases h
      rfl

/-- A new thread begins with its first series. -/
theorem newThreadState_inv {clock : Clock} {shuffle : List ℤ → List ℤ} {threadID threadCount : ℤ} {s : ThreadState} (haccepted : Accepted w)
    (hid : 0 ≤ threadID) (h : newThreadState w clock shuffle threadID threadCount = .ok s) : IsNew w s := by
  have hkeys := haccepted.keys_pos
  obtain ⟨total, htotal⟩ : ∃ total : ℤ, total = if 0 < threadCount then threadCount else 1 := ⟨_, rfl⟩
  rw [newThreadState, ← htotal] at h
  dsimp only at h
  by_cases hthread : total ≤ threadID
  · rw [if_pos hthread] at h
    cases h
  by_cases hlen : (w.keys.length : ℤ) < threadCount
  · rw [if_neg hthread, if_pos hlen] at h
    cases h
  rw [if_neg hthread, if_neg hlen] at h
  have hrange : 1 ≤ total ∧ total ≤ w.keys.length := by
    split_ifs at htotal <;> omega
  obtain ⟨g, -, h⟩ := bind_inv h
  obtain ⟨first, hfirst, h⟩ := bind_inv h
  cases h
  obtain ⟨hstart, hlt, hend⟩ := keyRange haccepted.length_keys hrange.1 hrange.2 hid (by omega)
  exact ⟨hstart, hlt, hend, rfl, rfl, rfl, rfl, currentTimestamp_nextValue (rethrow_eq_ok hfirst)⟩

/-- It is the turn of one of its series. -/
theorem IsNew.isSeries {s : ThreadState} (h : IsNew w s) (haccepted : Accepted w) : IsSeries w s s.turn := by
  refine ⟨h.keyIdx_eq.ge, h.keyIdx_eq.trans_lt h.start_lt, ?_⟩
  have hzeros : s.tagValueIdxs = zeros (w.tagCardinality.map (max 1)) := by
    rw [h.tagValueIdxs_eq, zeros_eq_replicate, List.length_map, haccepted.length_tagCardinality]
  rw [ThreadState.turn, hzeros]
  exact isDigits_zeros_max w.tagCardinality

end

/-- **Each round of a thread writes each of its series once, just if no tag with one value comes after one with more, and all
its points are inserted.** A round is over when the timestamp generator is advanced again. -/
theorem covers_iff {p : Properties} {shuffles : Shuffles} {w : TimeSeriesWorkload} (hinit : init p shuffles = .ok w)
    (hsparsity : w.sparsity.nonPositive = true) {clock : Clock} {shuffle : List ℤ → List ℤ} {threadID threadCount : ℤ} {s : ThreadState}
    (hid : 0 ≤ threadID) (hthread : newThreadState w clock shuffle threadID threadCount = .ok s) {calls : List (Bool × Draws)} {t : Session}
    (hrun : exec (step w) ⟨s, [], []⟩ calls = some t) :
    ∀ made ∈ t.finished, Covers w s (inserted made) ↔ OnesFirst w.tagCardinality ∧ ∀ p ∈ made, p.2 = true := by
  have haccepted := init_accepted hinit
  have hnew := newThreadState_inv haccepted hid hthread
  have hroll := hnew.rollover_eq
  by_cases hnil : w.tagCardinality = []
  · have hfinished := exec_invariant (I := fun t : Session => t.state.rollover = false ∧ t.finished = [])
      (fun t call t' => finished_eq_nil hnil hsparsity) ⟨hroll, rfl⟩ hrun
    rw [hfinished.2]
    exact fun made hmem => absurd hmem List.not_mem_nil
  · obtain ⟨slow, fast, h⟩ := exists_split w.tagCardinality
    have hplace : place s slow fast s.turn = 0 := by
      rw [place, digits, ThreadState.turn, hnew.keyIdx_eq, hnew.tagValueIdxs_eq, sub_self, List.drop_replicate]
      exact number_replicate (radices s fast) (w.tagPairs - slow.length + 1)
    have hnone : InOrder w s slow fast (if s.rollover then (radices s fast).prod else place s slow fast s.turn) [] := by
      rw [hroll, if_neg (by decide), hplace]
      exact ⟨fun p hp => absurd hp List.not_mem_nil, rfl⟩
    have hinv : Inv w s slow fast t := exec_invariant (I := Inv w s slow fast) (fun t call t' => inv_step h hnil haccepted hsparsity)
      ⟨⟨rfl, rfl⟩, hnew.isSeries haccepted, fun hover => absurd (hover.symm.trans hroll) (by decide), hnone, fun made hmem => absurd hmem List.not_mem_nil⟩ hrun
    exact fun made hmem => (hinv.finished made hmem).covers_inserted_iff h hnew.start_lt

/-- Properties for one key and two tags, the arrays left as they are made. -/
def twoTags (cards : List (Option Word)) : Properties :=
  { Properties.defaults with
    randomtimeseriesorder := false
    fieldcount := .of 1
    fieldlength := .of 1
    tagcount := .of 2
    tagkeylength := .of 1
    tagvaluelength := .of 1
    tagcardinality := cards }

set_option maxRecDepth 4000 in
/-- Of two values of the last tag, with one of the first, both are written. -/
theorem covers_iff_last :
    ∃ w s t, newThreadState w ⟨0, 0⟩ id 0 1 = .ok s ∧ exec (step w) ⟨s, [], []⟩ (List.replicate 3 (true, ⟨0, 0, 0, 0, false⟩)) = some t ∧
      t.finished = [[((0, [0, 0]), true), ((0, [0, 1]), true)]] ∧ ∀ made ∈ t.finished, Covers w s (inserted made) := by
  obtain ⟨w, s, t, hw, hsparsity, hs, ht, hfinished, hcards⟩ : ∃ w s t, init (twoTags [some (.of 1), some (.of 2)]) noShuffles = .ok w ∧
      w.sparsity.nonPositive = true ∧ newThreadState w ⟨0, 0⟩ id 0 1 = .ok s ∧
      exec (step w) ⟨s, [], []⟩ (List.replicate 3 (true, ⟨0, 0, 0, 0, false⟩)) = some t ∧
      t.finished = [[((0, [0, 0]), true), ((0, [0, 1]), true)]] ∧ w.tagCardinality = [1, 2] := ⟨_, _, _, rfl, rfl, rfl, rfl, rfl, rfl⟩
  refine ⟨w, s, t, hs, ht, hfinished, fun made hmade => (covers_iff hw hsparsity (le_refl 0) hs ht made hmade).mpr ⟨?_, ?_⟩⟩
  · rw [hcards]
    simp [OnesFirst]
  · rw [hfinished, List.mem_singleton] at hmade
    rw [hmade]
    decide

set_option maxRecDepth 4000 in
/-- Of two values of the first tag, with one of the last, only one is written for a timestamp. -/
theorem not_covers :
    ¬ ∀ (p : Properties) (shuffles : Shuffles) (w : TimeSeriesWorkload), init p shuffles = .ok w → w.sparsity.nonPositive = true →
      ∀ (clock : Clock) (shuffle : List ℤ → List ℤ) (threadID threadCount : ℤ) (s : ThreadState), 0 ≤ threadID →
        newThreadState w clock shuffle threadID threadCount = .ok s → ∀ (calls : List (Bool × Draws)) (t : Session),
          exec (step w) ⟨s, [], []⟩ calls = some t → ∀ made ∈ t.finished, Covers w s (inserted made) := by
  intro h
  obtain ⟨w, s, t, hw, hsparsity, hs, ht, hfinished, hcards, hstart, hend⟩ :
      ∃ w s t, init (twoTags [some (.of 2), some (.of 1)]) noShuffles = .ok w ∧ w.sparsity.nonPositive = true ∧
        newThreadState w ⟨0, 0⟩ id 0 1 = .ok s ∧ exec (step w) ⟨s, [], []⟩ (List.replicate 2 (true, ⟨0, 0, 0, 0, false⟩)) = some t ∧
        t.finished = [[((0, [0, 0]), true)]] ∧ w.tagCardinality = [2, 1] ∧ s.keyIdxStart = 0 ∧ s.keyIdxEnd = 1 :=
    ⟨_, _, _, rfl, rfl, rfl, rfl, rfl, rfl, rfl, rfl⟩
  obtain ⟨-, hmem⟩ := h _ _ w hw hsparsity _ _ _ _ s (le_refl 0) hs _ t ht _ (hfinished ▸ List.mem_singleton_self _)
  have hseries : IsSeries w s (0, [1, 0]) := by
    rw [IsSeries, hstart, hend, hcards]
    exact ⟨by decide, by decide, .cons (by decide) (.cons (by decide) .nil)⟩
  exact absurd ((hmem (0, [1, 0])).mpr hseries) (by decide)

end YcsbIvs.TimeSeries
