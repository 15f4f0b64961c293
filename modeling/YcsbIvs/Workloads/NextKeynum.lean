import YcsbIvs.Generator.Hotspot
import YcsbIvs.Workloads.KeyNumbers

/-!
# The keys that are chosen

`nextKeynum` draws numbers from `keychooser` until there is one that is not above the newest key; that one is the number of the key. It does not ask
whether it is below the oldest. Here `keychooser` is what `init` makes it for the request distributions `uniform`, `sequential` and `hotspot`: each of
them takes a remainder by the number of keys it chooses from. The remainder is negative for the least `long`, `Math.abs` of which is negative too, and
for a counter that has wrapped around; and there may be no keys to choose from.

`init` also accepts a negative `insertstart`, and an `insertcount` that is not positive. Without such, each draw is the last one.

**The key that is chosen has been loaded just if there are keys to choose from, and the remainder does not lead below the first of them**
(`nextKeynum_iff`).
-/

namespace YcsbIvs.Workloads

open YcsbIvs.Foundations YcsbIvs.Generator

/-! ### Numbers in turn -/

/-- `SequentialGenerator`. -/
structure SequentialGenerator where
  /-- How many numbers have been taken. -/
  counter : ℤ
  /-- How many there are. -/
  interval : ℤ
  /-- The first. -/
  countstart : ℤ

namespace SequentialGenerator

/-- `new SequentialGenerator(countstart, countend)`. -/
def new (countstart countend : ℤ) : SequentialGenerator := ⟨0, asLong (countend - countstart + 1), countstart⟩

/-- `nextValue()`, and the generator after it. -/
def nextValue (g : SequentialGenerator) : Except Thrown ℤ × SequentialGenerator :=
  (do
    let r ← modulo g.counter g.interval
    .ok (asLong (g.countstart + r)),
   { g with counter := asLong (g.counter + 1) })

end SequentialGenerator

/-! ### Choosers -/

/-- What is drawn for one value. -/
structure KeyDraw where
  /-- `nextDouble()`. -/
  operation : ℚ
  /-- `nextLong()`. -/
  number : ℤ

/-- `keychooser`. -/
inductive KeyChooser where
  | uniform (g : UniformLongGenerator)
  | sequential (g : SequentialGenerator)
  | hotspot (g : HotspotIntegerGenerator)

/-- `requestdistribution`. -/
inductive RequestDistribution where
  | uniform
  | sequential
  | hotspot (hotsetfraction hotopnfraction : ℚ)

/-- The `keychooser` that `init` makes. -/
def keychooser (w : KeyNumbers) : RequestDistribution → KeyChooser
  | .uniform => .uniform (.new w.insertstart (asLong (w.insertstart + w.insertcount - 1)))
  | .sequential => .sequential (.new w.insertstart (asLong (w.insertstart + w.insertcount - 1)))
  | .hotspot hotsetfraction hotopnfraction =>
    .hotspot (.new w.insertstart (asLong (w.insertstart + w.insertcount - 1)) hotsetfraction hotopnfraction)

namespace KeyChooser

/-- `keychooser.nextValue()`, and the chooser after it. -/
def nextValue (c : KeyChooser) (d : KeyDraw) : Except Thrown ℤ × KeyChooser :=
  match c with
  | .uniform g => (g.nextValue d.number, .uniform g)
  | .sequential g => (g.nextValue.1, .sequential g.nextValue.2)
  | .hotspot g => (g.nextValue d.operation d.number, .hotspot g)

/-- The chooser after these draws. -/
def after (c : KeyChooser) (draws : List KeyDraw) : KeyChooser := draws.foldl (fun c d => (c.nextValue d).2) c

/-- `nextKeynum()`, on these draws; `none` if it goes through all of them. -/
def nextKeynum (lastValue : ℤ) : KeyChooser → List KeyDraw → Option (Except Thrown ℤ)
  | _, [] => none
  | c, d :: draws =>
    match (c.nextValue d).1 with
    | .error e => some (.error e)
    | .ok value =>
      match nextKeynumRound false lastValue value with
      | some keynum => some (.ok keynum)
      | none => nextKeynum lastValue (c.nextValue d).2 draws

/-- `nextKeynum()` returns the number of a key that has been loaded, or inserted and acknowledged. -/
def ReturnsKey (w : KeyNumbers) (lastValue : ℤ) (c : KeyChooser) (draws : List KeyDraw) : Prop :=
  ∃ k, c.nextKeynum lastValue draws = some (.ok k) ∧ w.insertstart ≤ k ∧ k ≤ lastValue

/-! ### One remainder -/

/-- The number of keys that are chosen from. -/
def size (c : KeyChooser) (d : KeyDraw) : ℤ :=
  match c with
  | .uniform g => g.interval
  | .sequential g => g.interval
  | .hotspot g => if d.operation < g.hotOpnFraction then g.hotInterval else g.coldInterval

/-- The first of them. -/
def start (c : KeyChooser) (d : KeyDraw) : ℤ :=
  match c with
  | .uniform g => g.lb
  | .sequential g => g.countstart
  | .hotspot g => if d.operation < g.hotOpnFraction then g.lowerBound else g.lowerBound + g.hotInterval

/-- The number the remainder is taken of. -/
def dividend (c : KeyChooser) (d : KeyDraw) : ℤ :=
  match c with
  | .uniform _ => asLong d.number.natAbs
  | .sequential g => g.counter
  | .hotspot _ => asLong d.number.natAbs

/-- The key that is drawn. -/
def drawn (c : KeyChooser) (d : KeyDraw) : ℤ := c.start d + (c.dividend d).tmod (c.size d)

theorem nextValue_eq (c : KeyChooser) (d : KeyDraw) :
    (c.nextValue d).1 = if c.size d = 0 then .error .arithmetic else .ok (asLong (c.drawn d)) := by
  cases c with
  | uniform g =>
    show (modulo (asLong d.number.natAbs) g.interval).bind (fun r => .ok (asLong (r + g.lb))) = _
    rw [modulo, drawn, size]
    split_ifs
    · rfl
    · exact congrArg (fun n => Except.ok (asLong n)) (Int.add_comm _ _)
  | sequential g =>
    show (modulo g.counter g.interval).bind (fun r => .ok (asLong (g.countstart + r))) = _
    rw [modulo, drawn, size]
    split_ifs <;> rfl
  | hotspot g =>
    show g.nextValue d.operation d.number = _
    rw [HotspotIntegerGenerator.nextValue, drawn, size, start]
    by_cases hop : d.operation < g.hotOpnFraction
    · simp only [if_pos hop, modulo]
      split_ifs <;> rfl
    · simp only [if_neg hop, modulo]
      split_ifs <;> rfl

/-- One round of the loop. -/
theorem nextKeynum_cons (lastValue : ℤ) (c : KeyChooser) (d : KeyDraw) (draws : List KeyDraw) :
    c.nextKeynum lastValue (d :: draws) =
      if c.size d = 0 then some (.error .arithmetic)
      else if lastValue < asInt (c.drawn d) then (c.nextValue d).2.nextKeynum lastValue draws
      else some (.ok (asInt (c.drawn d))) := by
  rw [nextKeynum, nextValue_eq]
  by_cases hzero : c.size d = 0
  · rw [if_pos hzero, if_pos hzero]
  · rw [if_neg hzero, if_neg hzero]
    dsimp only
    rw [nextKeynumRound, if_neg (by decide), asInt_asLong]
    dsimp only
    split_ifs <;> rfl

/-! ### When the key has been loaded -/

/-- The remainder does not lead below the first key. -/
def NotBelow (c : KeyChooser) (d : KeyDraw) : Prop :=
  match c with
  | .uniform g => d.number ≠ -2 ^ 63 ∨ g.interval ∣ 2 ^ 63
  | .sequential g => 0 ≤ g.counter ∨ g.interval ∣ g.counter
  | .hotspot g =>
    d.number ≠ -2 ^ 63 ∨ if d.operation < g.hotOpnFraction then g.hotInterval ∣ 2 ^ 63 else 2 ^ 63 % g.coldInterval ≤ g.hotInterval

/-- The draw is for a key that has been loaded. With a negative `insertstart`, or an `insertcount` that is not positive, the numbers may be anywhere. -/
def Lands (w : KeyNumbers) (lastValue : ℤ) (c : KeyChooser) (d : KeyDraw) : Prop :=
  c.size d ≠ 0 ∧
    if 0 ≤ w.insertstart ∧ 0 < w.insertcount then c.NotBelow d
    else w.insertstart ≤ asInt (c.drawn d) ∧ asInt (c.drawn d) ≤ lastValue

/-- The draw is above the newest key, and there is another one. -/
def PassedOver (w : KeyNumbers) (lastValue : ℤ) (c : KeyChooser) (d : KeyDraw) : Prop :=
  ¬ (0 ≤ w.insertstart ∧ 0 < w.insertcount) ∧ c.size d ≠ 0 ∧ lastValue < asInt (c.drawn d)

/-- The first draw that is not passed over is for a key that has been loaded. -/
def LandsFirst (w : KeyNumbers) (lastValue : ℤ) : KeyChooser → List KeyDraw → Prop
  | _, [] => False
  | c, d :: draws => Lands w lastValue c d ∨ PassedOver w lastValue c d ∧ LandsFirst w lastValue (c.nextValue d).2 draws

/-- The chooser chooses from the keys. -/
def Of (w : KeyNumbers) : KeyChooser → Prop
  | .uniform g => g.lb = w.insertstart ∧ g.interval = w.insertcount
  | .sequential g => g.countstart = w.insertstart ∧ g.interval = w.insertcount
  | .hotspot g => g.lowerBound = w.insertstart ∧ g.hotInterval + g.coldInterval = w.insertcount ∧ 0 ≤ g.hotInterval ∧ 0 ≤ g.coldInterval

theorem Of.nextValue {w : KeyNumbers} {c : KeyChooser} (h : c.Of w) (d : KeyDraw) : (c.nextValue d).2.Of w := by
  cases c with
  | uniform g => exact h
  | sequential g => exact h
  | hotspot g => exact h

theorem Of.after {w : KeyNumbers} {c : KeyChooser} (h : c.Of w) (draws : List KeyDraw) : (c.after draws).Of w := by
  induction draws generalizing c with
  | nil => exact h
  | cons d draws ih => exact ih (h.nextValue d)

theorem of_keychooser {w : KeyNumbers} (hstart : 0 ≤ w.insertstart) (hcount : 0 < w.insertcount) (hload : w.insertstart + w.insertcount ≤ 2 ^ 31)
    (distribution : RequestDistribution) : (keychooser w distribution).Of w := by
  have hlast : asLong (w.insertstart + w.insertcount - 1) = w.insertstart + w.insertcount - 1 :=
    asLong_of_fits (by unfold FitsLong; omega)
  have hsize : asLong (w.insertstart + w.insertcount - 1 - w.insertstart + 1) = w.insertcount := by
    unfold asLong
    omega
  cases distribution with
  | uniform =>
    refine ⟨rfl, ?_⟩
    show asLong (asLong (w.insertstart + w.insertcount - 1) - w.insertstart + 1) = w.insertcount
    rw [hlast, hsize]
  | sequential =>
    refine ⟨rfl, ?_⟩
    show asLong (asLong (w.insertstart + w.insertcount - 1) - w.insertstart + 1) = w.insertcount
    rw [hlast, hsize]
  | hotspot hotsetfraction hotopnfraction =>
    have hlower : FitsLong w.insertstart := by
      unfold FitsLong
      omega
    have hupper : FitsLong (w.insertstart + w.insertcount - 1) := by
      unfold FitsLong
      omega
    have hmade := HotspotIntegerGenerator.made_new hlower hupper hotsetfraction hotopnfraction
    obtain ⟨hlb, hub⟩ := HotspotIntegerGenerator.new_bounds (show w.insertstart ≤ w.insertstart + w.insertcount - 1 by omega)
      hotsetfraction hotopnfraction
    have hadd := hmade.add
    have hnonneg := hmade.nonneg
    rw [keychooser, hlast]
    rw [hlb, hub, hsize] at hadd hnonneg
    exact ⟨hlb, hadd, hnonneg hcount.le⟩

/-- A remainder is negative just if what it is of is, unless it is zero. -/
theorem tmod_nonneg_iff (n m : ℤ) : 0 ≤ n.tmod m ↔ 0 ≤ n ∨ m ∣ n := by
  constructor
  · intro h
    by_cases hn : 0 ≤ n
    · exact .inl hn
    · have hneg : 0 ≤ (-n).tmod m := Int.tmod_nonneg m (by omega)
      rw [Int.neg_tmod] at hneg
      exact .inr (Int.dvd_of_tmod_eq_zero (by omega))
  · rintro (h | h)
    · exact Int.tmod_nonneg m h
    · exact (Int.tmod_eq_zero_of_dvd h).ge

/-- The keys that are chosen from are among those loaded. -/
theorem Of.within {w : KeyNumbers} {c : KeyChooser} (h : c.Of w) (hcount : 0 < w.insertcount) (d : KeyDraw) :
    w.insertstart ≤ c.start d ∧ 0 ≤ c.size d ∧ c.start d + c.size d ≤ w.insertstart + w.insertcount := by
  cases c with
  | uniform g =>
    obtain ⟨hlb, hinterval⟩ := h
    simp only [start, size]
    omega
  | sequential g =>
    obtain ⟨hstart, hinterval⟩ := h
    simp only [start, size]
    omega
  | hotspot g =>
    obtain ⟨hlb, hadd, hhot, hcold⟩ := h
    simp only [start, size]
    split_ifs <;> omega

theorem Of.notBelow_iff {w : KeyNumbers} {c : KeyChooser} (h : c.Of w) {d : KeyDraw} (hd : FitsLong d.number) (hsize : c.size d ≠ 0) :
    c.NotBelow d ↔ w.insertstart ≤ c.drawn d := by
  cases c with
  | uniform g =>
    obtain ⟨-, -, hsign⟩ := tmod_abs_bounds hd hsize
    rw [NotBelow, drawn, start, ← h.1, le_add_iff_nonneg_right]
    exact hsign.symm
  | sequential g =>
    rw [NotBelow, drawn, start, ← h.1, le_add_iff_nonneg_right]
    exact (tmod_nonneg_iff g.counter g.interval).symm
  | hotspot g =>
    obtain ⟨hlb, -, hhot, hcold⟩ := h
    obtain ⟨-, -, hsign⟩ := tmod_abs_bounds hd hsize
    rw [NotBelow, drawn, start, ← hlb]
    simp only [size] at hsign ⊢
    by_cases hop : d.operation < g.hotOpnFraction
    · simp only [if_pos hop] at hsign ⊢
      rw [le_add_iff_nonneg_right]
      exact hsign.symm
    · simp only [if_neg hop] at hsign ⊢
      show _ ↔ g.lowerBound ≤ g.lowerBound + g.hotInterval + (asLong d.number.natAbs).tmod g.coldInterval
      by_cases hleast : d.number = -2 ^ 63
      · have habs : asLong d.number.natAbs = -2 ^ 63 := by
          rw [hleast]
          decide
        rw [habs, Int.neg_tmod, Int.tmod_eq_emod_of_nonneg (by decide)]
        exact ⟨fun h => by have := h.resolve_left (not_not.mpr hleast); omega, fun h => .inr (by omega)⟩
      · have hnonneg := hsign.mpr (.inl hleast)
        exact ⟨fun _ => by omega, fun _ => .inl hleast⟩

/-- What is drawn is no key after the last, and fits an `int`. -/
theorem Of.drawn_bounds {w : KeyNumbers} {c : KeyChooser} (h : c.Of w) (hstart : 0 ≤ w.insertstart) (hcount : 0 < w.insertcount)
    (hload : w.insertstart + w.insertcount ≤ 2 ^ 31) {d : KeyDraw} (hsize : c.size d ≠ 0) :
    asInt (c.drawn d) = c.drawn d ∧ c.drawn d < w.insertstart + w.insertcount := by
  obtain ⟨hge, hpos, hle⟩ := h.within hcount d
  have hrem : ((c.dividend d).tmod (c.size d)).natAbs < (c.size d).natAbs := by
    rw [Int.natAbs_tmod]
    exact Nat.mod_lt _ (Int.natAbs_pos.mpr hsize)
  have hdrawn : c.drawn d = c.start d + (c.dividend d).tmod (c.size d) := rfl
  exact ⟨asInt_of_fits (by unfold FitsInt; omega), by omega⟩

/-- Of keys that are in order, the first draw decides. -/
theorem Of.returnsKey_cons {w : KeyNumbers} {lastValue : ℤ} {c : KeyChooser} (h : c.Of w) (hstart : 0 ≤ w.insertstart) (hcount : 0 < w.insertcount)
    (hload : w.insertstart + w.insertcount ≤ 2 ^ 31) (hlast : w.insertstart + w.insertcount ≤ lastValue + 1) {d : KeyDraw}
    (hd : FitsLong d.number) (draws : List KeyDraw) : ReturnsKey w lastValue c (d :: draws) ↔ c.size d ≠ 0 ∧ c.NotBelow d := by
  rw [ReturnsKey, nextKeynum_cons]
  by_cases hsize : c.size d = 0
  · rw [if_pos hsize]
    exact ⟨fun ⟨k, hk, _⟩ => (nomatch hk), fun hc => absurd hsize hc.1⟩
  · obtain ⟨hfits, hlt⟩ := h.drawn_bounds hstart hcount hload hsize
    rw [if_neg hsize, hfits, if_neg (by omega), h.notBelow_iff hd hsize]
    constructor
    · rintro ⟨k, hk, hk', -⟩
      cases hk
      exact ⟨hsize, hk'⟩
    · rintro ⟨-, hk⟩
      exact ⟨_, rfl, hk, by omega⟩

/-- Of other keys, it does unless it is passed over. -/
theorem returnsKey_cons_of_not {w : KeyNumbers} {lastValue : ℤ} (hnot : ¬ (0 ≤ w.insertstart ∧ 0 < w.insertcount)) (c : KeyChooser) (d : KeyDraw)
    (draws : List KeyDraw) : ReturnsKey w lastValue c (d :: draws) ↔
      Lands w lastValue c d ∨ PassedOver w lastValue c d ∧ ReturnsKey w lastValue (c.nextValue d).2 draws := by
  rw [ReturnsKey, nextKeynum_cons, Lands, PassedOver, if_neg hnot]
  by_cases hsize : c.size d = 0
  · rw [if_pos hsize]
    constructor
    · rintro ⟨k, hk, -⟩
      cases hk
    · rintro (hc | hc)
      · exact absurd hsize hc.1
      · exact absurd hsize hc.1.2.1
  · rw [if_neg hsize]
    split_ifs with hover
    · constructor
      · exact fun hk => .inr ⟨⟨hnot, hsize, hover⟩, hk⟩
      · rintro (hc | hc)
        · omega
        · exact hc.2
    · constructor
      · rintro ⟨k, hk, hge, hle⟩
        cases hk
        exact .inl ⟨hsize, hge, hle⟩
      · rintro (hc | hc)
        · exact ⟨_, rfl, hc.2⟩
        · omega

theorem returnsKey_iff {w : KeyNumbers} {lastValue : ℤ} (hload : w.insertstart + w.insertcount ≤ 2 ^ 31)
    (hlast : 0 ≤ w.insertstart ∧ 0 < w.insertcount → w.insertstart + w.insertcount ≤ lastValue + 1) {draws : List KeyDraw}
    (hdraws : ∀ d ∈ draws, FitsLong d.number) {c : KeyChooser} (h : 0 ≤ w.insertstart ∧ 0 < w.insertcount → c.Of w) :
    ReturnsKey w lastValue c draws ↔ LandsFirst w lastValue c draws := by
  induction draws generalizing c with
  | nil => exact ⟨fun ⟨k, hk, _⟩ => (nomatch hk), False.elim⟩
  | cons d draws ih =>
    rw [LandsFirst]
    by_cases hord : 0 ≤ w.insertstart ∧ 0 < w.insertcount
    · rw [(h hord).returnsKey_cons hord.1 hord.2 hload (hlast hord) (hdraws d List.mem_cons_self), Lands, if_pos hord]
      exact ⟨.inl, fun hc => hc.resolve_right fun hover => hover.1.1 hord⟩
    · rw [returnsKey_cons_of_not hord, ih (fun e he => hdraws e (List.mem_cons_of_mem d he)) fun hc => absurd hc hord]

end KeyChooser

open KeyChooser

end YcsbIvs.Workloads
