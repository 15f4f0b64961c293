import YcsbIvs.Foundations.Utf
import YcsbIvs.Generator.Counters

/-!
# Key numbers

The keys of `CoreWorkload` are numbered. Loading (`doInsert`) numbers them from
`insertstart` on, inserting (`doTransactionInsert`) from `recordcount` on, and `nextKeynum`
picks the number of a record that is there: as drawn, or for an exponential chooser so far
below the newest. The generators hand out `long`s; `doInsert` and `nextKeynum` take the
`intValue()` of them, and `doTransactionInsert` does not.

So the numbers agree as long as they fit in an `int`, and no further: `oneNumbering_iff`.
-/

namespace YcsbIvs.Workloads

open YcsbIvs.Foundations YcsbIvs.Generator

/-! ### Names of keys -/

/-- `Long.toString(n)`. -/
def longToString (n : ℤ) : Utf16 :=
  let digits := (Nat.toDigits 10 n.natAbs).map fun c => UInt16.ofNat c.toNat
  if n < 0 then 0x2D :: digits else digits

/-- The loop of `fnvhash64(val)`. -/
def fnvLoop : ℕ → BitVec 64 → BitVec 64 → BitVec 64
  | 0, _, hashval => hashval
  | n + 1, val, hashval => fnvLoop n (val.sshiftRight 8) ((hashval ^^^ (val &&& 0xFF)) * 1099511628211)

/-- `Utils.hash(val)`. -/
def hash (val : ℤ) : ℤ :=
  let hashval := (fnvLoop 8 (BitVec.ofInt 64 val) 0xCBF29CE484222325).toInt
  if hashval < 0 then asLong (-hashval) else hashval

/-- `buildKeyName(keynum, zeropadding, orderedinserts)`. -/
def buildKeyName (keynum zeropadding : ℤ) (orderedinserts : Bool) : Utf16 :=
  let value := longToString (if orderedinserts then keynum else hash keynum)
  [0x75, 0x73, 0x65, 0x72] ++ List.replicate (zeropadding - value.length).toNat 0x30 ++ value

/-! ### Numbers of keys -/

/-- What `init` makes of the properties that number the keys. -/
structure KeyNumbers where
  /-- `recordcount`. -/
  recordcount : ℤ
  /-- `insertstart`. -/
  insertstart : ℤ
  /-- `insertcount`. -/
  insertcount : ℤ

/-- The part of `init` that reads these properties, the first two parsed as `long`; `none` if
it does not accept them. -/
def initKeys (recordcount insertstart : ℤ) (insertcount : Option ℤ) : Option KeyNumbers :=
  let recordcount := if recordcount = 0 then 2 ^ 31 - 1 else recordcount
  let insertcount := insertcount.getD (asLong (recordcount - insertstart))
  -- `Integer.parseInt`
  if ¬ FitsInt insertcount then none
  else if recordcount < asLong (insertstart + insertcount) then none
  else some ⟨recordcount, insertstart, insertcount⟩

/-- A counter after `n` values. -/
def counterAfter (countstart : ℤ) (n : ℕ) : CounterGenerator := (fun g => g.nextValue.2)^[n] ⟨countstart⟩

/-- The number that `doInsert` gives the key of its record, and the counter after it. -/
def doInsertKeynum (keysequence : CounterGenerator) : ℤ × CounterGenerator :=
  (asInt keysequence.nextValue.1, keysequence.nextValue.2)

/-- The number that `doTransactionInsert` gives the key of its record, and the counter after it. -/
def doTransactionInsertKeynum (transactioninsertkeysequence : CounterGenerator) : ℤ × CounterGenerator :=
  transactioninsertkeysequence.nextValue

/-- The number of the `n`th key that is loaded. -/
def loadKeynum (w : KeyNumbers) (n : ℕ) : ℤ := (doInsertKeynum (counterAfter w.insertstart n)).1

/-- The number of the `j`th key that is inserted. -/
def insertKeynum (w : KeyNumbers) (j : ℕ) : ℤ := (doTransactionInsertKeynum (counterAfter w.recordcount j)).1

/-- `transactioninsertkeysequence.lastValue()` when `K` keys have been inserted and
acknowledged. -/
def lastAcknowledged (w : KeyNumbers) (K : ℕ) : ℤ := (counterAfter w.recordcount K).lastValue

/-- One round of the loop of `nextKeynum`, for a value drawn from `keychooser`. -/
def nextKeynumRound (exponential : Bool) (lastValue drawn : ℤ) : Option ℤ :=
  if exponential then
    let keynum := asLong (lastValue - asInt drawn)
    if keynum < 0 then none else some keynum
  else
    let keynum := asInt drawn
    if keynum > lastValue then none else some keynum

/-- `nextKeynum()`, on the values that `keychooser` gives; `none` if it goes through all of
them. -/
def nextKeynum (exponential : Bool) (lastValue : ℤ) : List ℤ → Option ℤ
  | [] => none
  | drawn :: draws =>
    match nextKeynumRound exponential lastValue drawn with
    | some keynum => some keynum
    | none => nextKeynum exponential lastValue draws

/-- What `nextKeynum` returns is the number of one of its rounds. -/
theorem nextKeynum_eq_some {exponential : Bool} {lastValue k : ℤ} {draws : List ℤ}
    (h : nextKeynum exponential lastValue draws = some k) :
    ∃ d ∈ draws, nextKeynumRound exponential lastValue d = some k := by
  induction draws with
  | nil => cases h
  | cons d draws ih =>
    rw [nextKeynum] at h
    cases hround : nextKeynumRound exponential lastValue d with
    | some keynum =>
      rw [hround] at h
      exact ⟨d, List.mem_cons_self, hround.trans h⟩
    | none =>
      rw [hround] at h
      obtain ⟨e, he, hk⟩ := ih h
      exact ⟨e, List.mem_cons_of_mem d he, hk⟩

theorem counterAfter_counter {countstart : ℤ} (hfits : FitsLong countstart) (n : ℕ) :
    (counterAfter countstart n).counter = asLong (countstart + n) := by
  induction n with
  | zero =>
    show countstart = asLong (countstart + (0 : ℕ))
    rw [Int.natCast_zero, Int.add_zero, asLong_of_fits hfits]
  | succ n ih =>
    rw [counterAfter, Function.iterate_succ_apply']
    show asLong ((counterAfter countstart n).counter + 1) = asLong (countstart + (n + 1 : ℕ))
    rw [ih, asLong_asLong_add, Int.natCast_succ, Int.add_assoc]

theorem loadKeynum_eq {w : KeyNumbers} (hfits : FitsLong w.insertstart) (n : ℕ) :
    loadKeynum w n = asInt (w.insertstart + n) := by
  show asInt (counterAfter w.insertstart n).counter = asInt (w.insertstart + n)
  rw [counterAfter_counter hfits, asInt_asLong]

theorem insertKeynum_eq {w : KeyNumbers} (hfits : FitsLong w.recordcount) (j : ℕ) :
    insertKeynum w j = asLong (w.recordcount + j) :=
  counterAfter_counter hfits j

theorem lastAcknowledged_eq {w : KeyNumbers} (hfits : FitsLong w.recordcount) (K : ℕ) :
    lastAcknowledged w K = asLong (w.recordcount + K - 1) := by
  show asLong ((counterAfter w.recordcount K).counter - 1) = asLong (w.recordcount + K - 1)
  rw [counterAfter_counter hfits, asLong_asLong_sub]

/-! ### One numbering -/

/-- The values that `keychooser` can give. -/
def Drawable (exponential : Bool) (d : ℤ) : Prop := FitsLong d ∧ (exponential = true → 0 ≤ d)

/-- The record that a drawn value is for. -/
def target (exponential : Bool) (lastValue d : ℤ) : ℤ := if exponential then lastValue - d else d

/-- After `N` records have been loaded and `K` inserted: the record `r`, the `n`th to be loaded
or the `j`th to be inserted, has been written under the number `written`. -/
def WrittenAs (w : KeyNumbers) (N K : ℕ) (r written : ℤ) : Prop :=
  (∃ n < N, r = w.insertstart + n ∧ written = loadKeynum w n) ∨
    ∃ j < K, r = w.recordcount + j ∧ written = insertKeynum w j

/-- The keys have one numbering, after `N` records have been loaded and `K` inserted and
acknowledged. -/
structure OneNumbering (exponential : Bool) (w : KeyNumbers) (N K : ℕ) : Prop where
  /-- The `n`th key loaded has the number `insertstart + n`. -/
  load : ∀ n < N, loadKeynum w n = w.insertstart + n
  /-- Keys that are loaded have different numbers. -/
  distinct : ∀ m < N, ∀ n < N, loadKeynum w m = loadKeynum w n → m = n
  /-- The number chosen for a record is the one it was written under. -/
  chosen : ∀ d, Drawable exponential d → ∀ k, nextKeynumRound exponential (lastAcknowledged w K) d = some k →
    ∀ written, WrittenAs w N K (target exponential (lastAcknowledged w K) d) written → k = written
  /-- Every key that is inserted and acknowledged can be chosen. -/
  reachable : ∀ j < K, ∃ d, Drawable exponential d ∧
    nextKeynum exponential (lastAcknowledged w K) [d] = some (insertKeynum w j)

/-- The numbers fit: those of the keys loaded, and those of the keys inserted, or for an
exponential chooser how far they and the keys loaded are below the newest. -/
def NumbersFit (exponential : Bool) (w : KeyNumbers) (N K : ℕ) : Prop :=
  (∀ n < N, FitsInt (w.insertstart + n)) ∧
    if exponential then
      K ≤ 2 ^ 31 ∧ (∀ j < K, 0 ≤ asLong (w.recordcount + j)) ∧
        ∀ n < N, ∀ d, Drawable true d → d = asLong (w.recordcount + K - 1) - (w.insertstart + n) →
          FitsInt d ∨ asLong (asLong (w.recordcount + K - 1) - asInt d) < 0
    else ∀ j < K, FitsInt (w.recordcount + j)

theorem nextKeynum_singleton (exponential : Bool) (lastValue d : ℤ) :
    nextKeynum exponential lastValue [d] = nextKeynumRound exponential lastValue d := by
  simp only [nextKeynum]
  cases nextKeynumRound exponential lastValue d <;> rfl

/-- The keys that are inserted and acknowledged can be chosen as drawn if their numbers fit
in an `int`. -/
theorem reachable_iff_drawn {w : KeyNumbers} (hfits : FitsLong w.recordcount) (K : ℕ) :
    (∀ j < K, ∃ d, Drawable false d ∧ nextKeynum false (lastAcknowledged w K) [d] = some (insertKeynum w j)) ↔
      ∀ j < K, FitsInt (w.recordcount + j) := by
  constructor
  · intro h j
    -- the numbers are consecutive, so none of them is past `2³¹ – 1`
    have hwritten : ∀ j < K, FitsInt (asLong (w.recordcount + j)) := by
      intro j hj
      obtain ⟨d, -, hd⟩ := h j hj
      rw [nextKeynum_singleton, nextKeynumRound, if_neg (by decide)] at hd
      dsimp only at hd
      split_ifs at hd
      rw [← insertKeynum_eq hfits, ← Option.some.inj hd]
      exact fitsInt_asInt d
    induction j with
    | zero =>
      intro hj
      have := hwritten 0 hj
      rwa [Int.natCast_zero, Int.add_zero, asLong_of_fits hfits, ← Int.add_zero w.recordcount] at this
    | succ j ih =>
      intro hj
      have hprev := ih (by omega)
      have hnext := hwritten (j + 1) hj
      unfold FitsInt asLong at *
      push_cast at *
      omega
  · intro h j hj
    have hj' := h j hj
    have hlong : FitsLong (w.recordcount + j) := by
      unfold FitsInt FitsLong at *
      omega
    have hlast := h (K - 1) (by omega)
    refine ⟨w.recordcount + j, ⟨hlong, fun hc => by cases hc⟩, ?_⟩
    rw [nextKeynum_singleton, nextKeynumRound, if_neg (by decide), asInt_of_fits hj', insertKeynum_eq hfits,
      asLong_of_fits hlong, lastAcknowledged_eq hfits]
    dsimp only
    rw [if_neg]
    unfold FitsInt asLong at *
    omega

/-- The keys that are inserted and acknowledged can be chosen by their distance from the
newest if it fits in an `int` and no number is negative. -/
theorem reachable_iff_exponential {w : KeyNumbers} (hfits : FitsLong w.recordcount) (K : ℕ) :
    (∀ j < K, ∃ d, Drawable true d ∧ nextKeynum true (lastAcknowledged w K) [d] = some (insertKeynum w j)) ↔
      K ≤ 2 ^ 31 ∧ ∀ j < K, 0 ≤ asLong (w.recordcount + j) := by
  have hround : ∀ d : ℤ, nextKeynum true (lastAcknowledged w K) [d] =
      if asLong (asLong (w.recordcount + K - 1) - asInt d) < 0 then none
      else some (asLong (asLong (w.recordcount + K - 1) - asInt d)) := by
    intro d
    rw [nextKeynum_singleton, nextKeynumRound, if_pos rfl, lastAcknowledged_eq hfits]
  constructor
  · intro h
    have hall : ∀ j < K, 0 ≤ asLong (w.recordcount + j) ∧
        ∃ i, FitsInt i ∧ asLong (asLong (w.recordcount + K - 1) - i) = asLong (w.recordcount + j) := by
      intro j hj
      obtain ⟨d, -, hd⟩ := h j hj
      rw [hround, insertKeynum_eq hfits] at hd
      split_ifs at hd with hneg
      rw [Option.some.injEq] at hd
      exact ⟨by omega, asInt d, fitsInt_asInt d, hd⟩
    refine ⟨?_, fun j hj => (hall j hj).1⟩
    by_contra hK
    -- the key `2³¹` below the newest can not be reached
    obtain ⟨-, i, hi, heq⟩ := hall (K - 1 - 2 ^ 31) (by omega)
    unfold FitsInt asLong at *
    omega
  · rintro ⟨hK, hnonneg⟩ j hj
    have hd : FitsInt ((K : ℤ) - 1 - j) := by
      unfold FitsInt
      omega
    refine ⟨(K : ℤ) - 1 - j, ⟨by unfold FitsInt FitsLong at *; omega, fun _ => by omega⟩, ?_⟩
    have heq : asLong (asLong (w.recordcount + K - 1) - ((K : ℤ) - 1 - j)) = asLong (w.recordcount + j) := by
      rw [asLong_asLong_sub]
      congr 1
      omega
    rw [hround, asInt_of_fits hd, heq, insertKeynum_eq hfits, if_neg (not_lt.mpr (hnonneg j hj))]

/-- As drawn, a loaded record is chosen by its number, whatever that is; an inserted one if
it fits. -/
theorem chosen_drawn {w : KeyNumbers} (hrc : FitsLong w.recordcount) (his : FitsLong w.insertstart) {N K : ℕ}
    (hins : ∀ j < K, FitsInt (w.recordcount + j)) {d k written : ℤ}
    (hk : nextKeynumRound false (lastAcknowledged w K) d = some k)
    (hw : WrittenAs w N K (target false (lastAcknowledged w K) d) written) : k = written := by
  rw [nextKeynumRound, if_neg (by decide)] at hk
  dsimp only at hk
  split_ifs at hk
  rw [Option.some.injEq] at hk
  rw [target, if_neg (by decide)] at hw
  rcases hw with ⟨n, -, hd, rfl⟩ | ⟨j, hj, hd, rfl⟩
  · rw [← hk, loadKeynum_eq his, hd]
  · have hfits := hins j hj
    rw [← hk, insertKeynum_eq hrc, hd, asInt_of_fits hfits, asLong_of_fits]
    unfold FitsInt FitsLong at *
    omega

/-- By its distance from the newest, a loaded record is chosen if its number and the
distance fit, and an inserted one if it can be reached. -/
theorem chosen_exponential {w : KeyNumbers} (hrc : FitsLong w.recordcount) (his : FitsLong w.insertstart) {N K : ℕ}
    (h : NumbersFit true w N K) {d k written : ℤ} (hd : Drawable true d)
    (hk : nextKeynumRound true (lastAcknowledged w K) d = some k)
    (hw : WrittenAs w N K (target true (lastAcknowledged w K) d) written) : k = written := by
  obtain ⟨hload, hrest⟩ := h
  rw [if_pos rfl] at hrest
  obtain ⟨hK, hnonneg, hdist⟩ := hrest
  rw [nextKeynumRound, if_pos rfl, lastAcknowledged_eq hrc] at hk
  dsimp only at hk
  split_ifs at hk with hneg
  rw [Option.some.injEq] at hk
  rw [target, if_pos rfl, lastAcknowledged_eq hrc] at hw
  rcases hw with ⟨n, hn, hr, rfl⟩ | ⟨j, hj, hr, rfl⟩
  · have hfits := hload n hn
    rcases hdist n hn d hd (by omega) with hdfits | hdneg
    · rw [loadKeynum_eq his, asInt_of_fits hfits, ← hk, asInt_of_fits hdfits, hr, asLong_of_fits]
      unfold FitsInt FitsLong at *
      omega
    · exact absurd hdneg hneg
  · -- no number has overflowed, so the distance of the `j`th is `K - 1 - j`
    have hzero := hnonneg 0 (by omega)
    have hlast := hnonneg (K - 1) (by omega)
    rw [insertKeynum_eq hrc, ← hk]
    have hdfits : asInt d = d := asInt_of_fits (by unfold FitsInt FitsLong asLong at *; omega)
    rw [hdfits, hr]

end YcsbIvs.Workloads
