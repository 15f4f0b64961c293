import YcsbIvs.Foundations.Runs
import YcsbIvs.Foundations.Words
import Mathlib.Logic.Function.Basic
import Mathlib.Order.Bounds.Basic

/-!
# The counter generators

`CounterGenerator` hands out consecutive numbers from one `AtomicLong`.
`AcknowledgedCounterGenerator` also takes them back: `lastValue()` is to be the number up to
which all have been acknowledged. What has been acknowledged beyond it is kept in a circular
window of `2²⁰` flags; whoever has just set a flag tries to take a lock and, if it gets it,
moves `limit` over the flags that are set and clears them.

`acknowledge` is cut up into its steps, which the threads interleave: `mark` tests and sets
the flag, `tryLock` takes the lock or gives up, `scan` is one round of the loop, `publish`
writes `limit` and `unlock` releases the lock. What has been handed out and acknowledged is
kept beside the program, and so is whether anybody has marked since the lock was last taken
and how often the loop has gone round since (`issued`, `acked`, `quiet`, `rounds`).

The values handed out while the counter does not overflow are consecutive (`Sound`). A flag
that is set stands for one value as long as nobody marks a value while an older one of the
same slot is still out: that is all `lastValue()` needs to be right (`Sound.step`). The
window test does not see to it: it looks at the flag, not at the value the flag is for.
-/

namespace YcsbIvs.Generator

open YcsbIvs.Foundations

/-- A counter. -/
structure CounterGenerator where
  /-- The `AtomicLong`. -/
  counter : ℤ

namespace CounterGenerator

/-- `nextValue()`: the value, and the counter after it. -/
def nextValue (g : CounterGenerator) : ℤ × CounterGenerator := (g.counter, ⟨asLong (g.counter + 1)⟩)

/-- `lastValue()`. -/
def lastValue (g : CounterGenerator) : ℤ := asLong (g.counter - 1)

end CounterGenerator

/-! ### Counters that take back -/

/-- `WINDOW_SIZE`. -/
def windowSize : ℤ := 2 ^ 20

/-- `value & WINDOW_MASK`. -/
def slotOf (value : ℤ) : ℤ := value % windowSize

/-- The thread that has the lock. -/
inductive Holder where
  /-- There is none. -/
  | free
  /-- It is in its loop. -/
  | scanning (index beforeFirstSlot : ℤ)
  /-- It has left its loop. -/
  | leaving (index : ℤ)
  /-- It has written `limit`. -/
  | published
  deriving DecidableEq

/-- The generator, its threads, and its history. -/
structure AcknowledgedCounterGenerator extends CounterGenerator where
  /-- The flags. -/
  window : ℤ → Bool
  /-- The value up to which all have been acknowledged. -/
  limit : ℤ
  /-- Who has the lock. -/
  holder : Holder
  /-- How many threads have set a flag and not yet tried the lock. -/
  marked : ℕ
  /-- How many threads have thrown. -/
  thrown : ℕ
  /-- The values handed out. -/
  issued : List ℤ
  /-- The values whose flag has been set. -/
  acked : List ℤ
  /-- Nobody has set a flag since the lock was last taken. -/
  quiet : Bool
  /-- How many times the loop has gone round since the lock was last taken. -/
  rounds : ℕ

namespace AcknowledgedCounterGenerator

/-- `lastValue()`. -/
def lastValue (g : AcknowledgedCounterGenerator) : ℤ := g.limit

/-- `new AcknowledgedCounterGenerator(countstart)`. -/
def initial (countstart : ℤ) : AcknowledgedCounterGenerator where
  counter := countstart
  window _ := false
  limit := asLong (countstart - 1)
  holder := .free
  marked := 0
  thrown := 0
  issued := []
  acked := []
  quiet := false
  rounds := 0

/-- A step of some thread. -/
inductive Label where
  /-- `nextValue()`. -/
  | nextValue
  /-- `acknowledge(value)` tests the flag, and sets it or throws. -/
  | mark (value : ℤ)
  /-- A thread that has set a flag tries the lock. -/
  | tryLock
  /-- One round of the loop. -/
  | scan
  /-- `limit = index - 1`. -/
  | publish
  /-- `lock.unlock()`. -/
  | unlock
  deriving DecidableEq

/-- One step of some thread. -/
def step (g : AcknowledgedCounterGenerator) : Label → Option AcknowledgedCounterGenerator
  | .nextValue => some
    { g with toCounterGenerator := g.toCounterGenerator.nextValue.2
             issued := g.toCounterGenerator.nextValue.1 :: g.issued }
  | .mark value =>
    if g.window (slotOf value) then some { g with thrown := g.thrown + 1 }
    else some
      { g with window := Function.update g.window (slotOf value) true
               marked := g.marked + 1, acked := value :: g.acked, quiet := false }
  | .tryLock =>
    if g.marked = 0 then none
    else match g.holder with
      | .free => some
        { g with marked := g.marked - 1, holder := .scanning (asLong (g.limit + 1)) (slotOf g.limit)
                 quiet := true, rounds := 0 }
      | _ => some { g with marked := g.marked - 1 }
  | .scan =>
    match g.holder with
    | .scanning index beforeFirstSlot =>
      if index ≠ beforeFirstSlot ∧ g.window (slotOf index) then some
        { g with window := Function.update g.window (slotOf index) false
                 holder := .scanning (asLong (index + 1)) beforeFirstSlot, rounds := g.rounds + 1 }
      else some { g with holder := .leaving index }
    | _ => none
  | .publish =>
    match g.holder with
    | .leaving index => some { g with limit := asLong (index - 1), holder := .published }
    | _ => none
  | .unlock =>
    match g.holder with
    | .published => some { g with holder := .free }
    | _ => none

/-- What a step can do. -/
inductive Moves (g : AcknowledgedCounterGenerator) : Label → AcknowledgedCounterGenerator → Prop where
  /-- A value is handed out. -/
  | nextValue : Moves g .nextValue { g with counter := asLong (g.counter + 1), issued := g.counter :: g.issued }
  /-- The flag is set already. -/
  | throws {value} (hset : g.window (slotOf value) = true) : Moves g (.mark value) { g with thrown := g.thrown + 1 }
  /-- The flag is set now. -/
  | mark {value} (hunset : g.window (slotOf value) = false) :
      Moves g (.mark value)
        { g with window := Function.update g.window (slotOf value) true
                 marked := g.marked + 1, acked := value :: g.acked, quiet := false }
  /-- The lock is taken. -/
  | lock (hfree : g.holder = .free) :
      Moves g .tryLock
        { g with marked := g.marked - 1, holder := .scanning (asLong (g.limit + 1)) (slotOf g.limit)
                 quiet := true, rounds := 0 }
  /-- The lock is busy. -/
  | skip : Moves g .tryLock { g with marked := g.marked - 1 }
  /-- The loop goes round. -/
  | scan {index beforeFirstSlot} (hholder : g.holder = .scanning index beforeFirstSlot)
      (hset : g.window (slotOf index) = true) :
      Moves g .scan
        { g with window := Function.update g.window (slotOf index) false
                 holder := .scanning (asLong (index + 1)) beforeFirstSlot, rounds := g.rounds + 1 }
  /-- The loop is left. -/
  | leave {index beforeFirstSlot} (hholder : g.holder = .scanning index beforeFirstSlot)
      (hend : index = beforeFirstSlot ∨ g.window (slotOf index) = false) :
      Moves g .scan { g with holder := .leaving index }
  /-- The limit is written. -/
  | publish {index} (hholder : g.holder = .leaving index) :
      Moves g .publish { g with limit := asLong (index - 1), holder := .published }
  /-- The lock is released. -/
  | unlock (hholder : g.holder = .published) : Moves g .unlock { g with holder := .free }

theorem step_moves {g g' : AcknowledgedCounterGenerator} {l : Label} (h : step g l = some g') : Moves g l g' := by
  cases l with
  | nextValue =>
    cases h
    exact .nextValue
  | mark value =>
    rw [step] at h
    split_ifs at h with hset
    · cases h
      exact .throws hset
    · cases h
      exact .mark (Bool.not_eq_true _ ▸ hset)
  | tryLock =>
    rw [step] at h
    split_ifs at h
    split at h
    · next hfree =>
      cases h
      exact .lock hfree
    · cases h
      exact .skip
  | scan =>
    rw [step] at h
    split at h
    · next index before hholder =>
      split_ifs at h with hgo
      · cases h
        exact .scan hholder hgo.2
      · cases h
        refine .leave hholder ?_
        rw [not_and_or, not_not, Bool.not_eq_true] at hgo
        exact hgo
    · cases h
  | publish =>
    rw [step] at h
    split at h
    · next index hholder =>
      cases h
      exact .publish hholder
    · cases h
  | unlock =>
    rw [step] at h
    split at h
    · next hholder =>
      cases h
      exact .unlock hholder
    · cases h

/-- The value up to which the window has been cleared: `limit`, but while a drain is under
way, the value before the one its loop is at. -/
def frontier (g : AcknowledgedCounterGenerator) : ℤ :=
  match g.holder with
  | .scanning index _ => index - 1
  | .leaving index => index - 1
  | _ => g.limit

/-- What holds of a generator started at `countstart`. -/
structure Sound (countstart : ℤ) (g : AcknowledgedCounterGenerator) : Prop where
  /-- The counter has not overflowed. -/
  fits : FitsLong (countstart - 1) ∧ countstart ≤ g.counter ∧ FitsLong g.counter
  /-- The values handed out are those from `countstart` to the counter. -/
  issued_iff : ∀ v, v ∈ g.issued ↔ countstart ≤ v ∧ v < g.counter
  /-- What is acknowledged has been handed out. -/
  acked_issued : ∀ v ∈ g.acked, v ∈ g.issued
  /-- The limit and the frontier are in that range, the limit not above the frontier. -/
  limit_le : countstart - 1 ≤ g.limit ∧ g.limit ≤ g.frontier ∧ g.frontier < g.counter
  /-- All values up to the frontier are acknowledged. -/
  upto : ∀ v, countstart ≤ v → v ≤ g.frontier → v ∈ g.acked
  /-- A flag is set when an acknowledged value of its slot is above the frontier. -/
  window_iff : ∀ j, g.window j = true ↔ ∃ v ∈ g.acked, g.frontier < v ∧ slotOf v = j
  /-- There is only one such value. -/
  distinct : ∀ u ∈ g.acked, ∀ v ∈ g.acked, g.frontier < u → g.frontier < v → slotOf u = slotOf v → u = v
  /-- The older values of a slot are acknowledged with a newer one. -/
  closed : ∀ v ∈ g.acked, ∀ u ∈ g.issued, u < v → slotOf u = slotOf v → u ∈ g.acked

/-- The counter is not about to overflow. -/
def NoOverflow (g : AcknowledgedCounterGenerator) : Label → Prop
  | .nextValue => g.counter < 2 ^ 63 - 1
  | _ => True

/-- A value is acknowledged after it has been handed out, and once. -/
def AckedOnce (g : AcknowledgedCounterGenerator) : Label → Prop
  | .mark value => value ∈ g.issued ∧ value ∉ g.acked
  | _ => True

/-- A flag is set for a value when the older values of its slot have been acknowledged. -/
def OldestFirst (g : AcknowledgedCounterGenerator) : Label → Prop
  | .mark value =>
    g.window (slotOf value) = false → ∀ u ∈ g.issued, u < value → slotOf u = slotOf value → u ∈ g.acked
  | _ => True

instance (g : AcknowledgedCounterGenerator) : (l : Label) → Decidable (NoOverflow g l)
  | .nextValue => inferInstanceAs (Decidable (_ < _))
  | .mark _ | .tryLock | .scan | .publish | .unlock => .isTrue trivial

instance (g : AcknowledgedCounterGenerator) : (l : Label) → Decidable (AckedOnce g l)
  | .mark _ => inferInstanceAs (Decidable (_ ∧ _))
  | .nextValue | .tryLock | .scan | .publish | .unlock => .isTrue trivial

instance (g : AcknowledgedCounterGenerator) : (l : Label) → Decidable (OldestFirst g l)
  | .mark _ => inferInstanceAs (Decidable (_ = _ → _))
  | .nextValue | .tryLock | .scan | .publish | .unlock => .isTrue trivial

/-- The value of the frontier's own slot, when its flag is set, is the next one. -/
theorem Sound.next_acked {countstart : ℤ} {g : AcknowledgedCounterGenerator} (h : Sound countstart g)
    (hset : g.window (slotOf (g.frontier + 1)) = true) : g.frontier + 1 ∈ g.acked := by
  obtain ⟨v, hv, hlt, hslot⟩ := (h.window_iff _).mp hset
  by_cases heq : v = g.frontier + 1
  · exact heq ▸ hv
  · have hissued := (h.issued_iff v).mp (h.acked_issued v hv)
    have hlim := h.limit_le
    exact h.closed v hv _ ((h.issued_iff _).mpr (by omega)) (by omega) hslot.symm

/-- A step that changes neither the history, the window nor the frontier. -/
theorem Sound.of_frontier {countstart : ℤ} {g g' : AcknowledgedCounterGenerator} (h : Sound countstart g)
    (hcounter : g'.counter = g.counter) (hwindow : g'.window = g.window) (hissued : g'.issued = g.issued)
    (hacked : g'.acked = g.acked) (hfrontier : g'.frontier = g.frontier)
    (hlimit : g.limit ≤ g'.limit ∧ g'.limit ≤ g.frontier) : Sound countstart g' := by
  obtain ⟨hfits, hiss, haiss, hlim, hupto, hwin, hdist, hclosed⟩ := h
  constructor
  · rwa [hcounter]
  · rwa [hissued, hcounter]
  · rwa [hacked, hissued]
  · rw [hfrontier, hcounter]
    omega
  · rwa [hfrontier, hacked]
  · rwa [hwindow, hacked, hfrontier]
  · rwa [hacked, hfrontier]
  · rwa [hacked, hissued]

/-- A value is handed out. -/
theorem Sound.nextValue {countstart : ℤ} {g : AcknowledgedCounterGenerator} (h : Sound countstart g)
    (hlt : g.counter < 2 ^ 63 - 1) :
    Sound countstart { g with counter := asLong (g.counter + 1), issued := g.counter :: g.issued } := by
  obtain ⟨⟨hstart, hle, hfits⟩, hiss, haiss, hlim, hupto, hwin, hdist, hclosed⟩ := h
  have hnext : asLong (g.counter + 1) = g.counter + 1 := asLong_of_fits (by unfold FitsLong at *; omega)
  have hnew : ∀ v ∈ g.acked, v < g.counter := fun v hv => ((hiss v).mp (haiss v hv)).2
  refine ⟨⟨hstart, ?_, fitsLong_asLong _⟩, fun v => ?_, fun v hv => List.mem_cons_of_mem _ (haiss v hv), ?_, hupto, hwin,
    hdist, fun v hv u hu hlt' hslot => ?_⟩
  · show countstart ≤ asLong (g.counter + 1)
    omega
  · show v ∈ g.counter :: g.issued ↔ countstart ≤ v ∧ v < asLong (g.counter + 1)
    rw [List.mem_cons, hiss, hnext]
    omega
  · show countstart - 1 ≤ g.limit ∧ g.limit ≤ g.frontier ∧ g.frontier < asLong (g.counter + 1)
    omega
  · rcases List.mem_cons.mp hu with rfl | hu
    · exact absurd hlt' (not_lt_of_ge (hnew v hv).le)
    · exact hclosed v hv u hu hlt' hslot

/-- A flag is set. -/
theorem Sound.mark {countstart : ℤ} {g : AcknowledgedCounterGenerator} {value : ℤ} (h : Sound countstart g)
    (hunset : g.window (slotOf value) = false) (hissued : value ∈ g.issued) (hnew : value ∉ g.acked)
    (holdest : ∀ u ∈ g.issued, u < value → slotOf u = slotOf value → u ∈ g.acked) :
    Sound countstart
      { g with window := Function.update g.window (slotOf value) true
               marked := g.marked + 1, acked := value :: g.acked, quiet := false } := by
  obtain ⟨hfits, hiss, haiss, hlim, hupto, hwin, hdist, hclosed⟩ := h
  -- the value is above the frontier, and no acknowledged value above it has its slot
  have habove : g.frontier < value := by
    by_contra hle
    exact hnew (hupto value ((hiss value).mp hissued).1 (not_lt.mp hle))
  have halone : ∀ v ∈ g.acked, g.frontier < v → slotOf v ≠ slotOf value := by
    intro v hv hlt hslot
    have hset := (hwin (slotOf value)).mpr ⟨v, hv, hlt, hslot⟩
    rw [hunset] at hset
    cases hset
  refine ⟨hfits, hiss, fun v hv => ?_, hlim, fun v hv hle => List.mem_cons_of_mem _ (hupto v hv hle), fun j => ?_,
    fun u hu v hv hfu hfv hslot => ?_, fun v hv u hu hlt hslot => ?_⟩
  · rcases List.mem_cons.mp hv with rfl | hv
    · exact hissued
    · exact haiss v hv
  · show Function.update g.window (slotOf value) true j = true ↔
      ∃ v ∈ value :: g.acked, g.frontier < v ∧ slotOf v = j
    by_cases hj : j = slotOf value
    · subst hj
      rw [Function.update_self]
      exact iff_of_true rfl ⟨value, List.mem_cons_self, habove, rfl⟩
    · rw [Function.update_of_ne hj, hwin]
      constructor
      · rintro ⟨v, hv, hlt, hslot⟩
        exact ⟨v, List.mem_cons_of_mem _ hv, hlt, hslot⟩
      · rintro ⟨v, hv, hlt, hslot⟩
        rcases List.mem_cons.mp hv with rfl | hv
        · exact absurd hslot.symm hj
        · exact ⟨v, hv, hlt, hslot⟩
  · rcases List.mem_cons.mp hu with hu' | hu' <;> rcases List.mem_cons.mp hv with hv' | hv'
    · rw [hu', hv']
    · exact absurd (hu' ▸ hslot.symm) (halone v hv' hfv)
    · exact absurd (hv' ▸ hslot) (halone u hu' hfu)
    · exact hdist u hu' v hv' hfu hfv hslot
  · rcases List.mem_cons.mp hv with rfl | hv
    · exact List.mem_cons_of_mem _ (holdest u hu hlt hslot)
    · exact List.mem_cons_of_mem _ (hclosed v hv u hu hlt hslot)

/-- The loop goes round: its value is acknowledged, and its flag is cleared. -/
theorem Sound.scan {countstart : ℤ} {g : AcknowledgedCounterGenerator} {index before : ℤ} (h : Sound countstart g)
    (hholder : g.holder = .scanning index before) (hset : g.window (slotOf index) = true) :
    index ∈ g.acked ∧ asLong (index + 1) = index + 1 ∧
      Sound countstart
        { g with window := Function.update g.window (slotOf index) false
                 holder := .scanning (asLong (index + 1)) before, rounds := g.rounds + 1 } := by
  have hfront : g.frontier = index - 1 := by simp only [frontier, hholder]
  have hindex : index ∈ g.acked := by
    have := h.next_acked (by rw [hfront, Int.sub_add_cancel]; exact hset)
    rwa [hfront, Int.sub_add_cancel] at this
  obtain ⟨hfits, hiss, haiss, hlim, hupto, hwin, hdist, hclosed⟩ := h
  have hrange := (hiss index).mp (haiss index hindex)
  have hnext : asLong (index + 1) = index + 1 := asLong_of_fits (by unfold FitsLong at *; omega)
  refine ⟨hindex, hnext, hfits, hiss, haiss, ?_, fun v hv hle => ?_, fun j => ?_, fun u hu v hv hfu hfv hslot => ?_,
    hclosed⟩
  · show countstart - 1 ≤ g.limit ∧ g.limit ≤ asLong (index + 1) - 1 ∧ asLong (index + 1) - 1 < g.counter
    omega
  · replace hle : v ≤ asLong (index + 1) - 1 := hle
    by_cases heq : v = index
    · exact heq ▸ hindex
    · exact hupto v hv (by omega)
  · show Function.update g.window (slotOf index) false j = true ↔
      ∃ v ∈ g.acked, asLong (index + 1) - 1 < v ∧ slotOf v = j
    by_cases hj : j = slotOf index
    · subst hj
      rw [Function.update_self]
      refine iff_of_false (by decide) ?_
      rintro ⟨v, hv, hlt, hslot⟩
      have := hdist v hv index hindex (by omega) (by omega) hslot
      omega
    · rw [Function.update_of_ne hj, hwin]
      constructor
      · rintro ⟨v, hv, hlt, hslot⟩
        refine ⟨v, hv, ?_, hslot⟩
        have hne : v ≠ index := fun heq => hj (heq ▸ hslot.symm)
        omega
      · rintro ⟨v, hv, hlt, hslot⟩
        exact ⟨v, hv, by omega, hslot⟩
  · replace hfu : asLong (index + 1) - 1 < u := hfu
    replace hfv : asLong (index + 1) - 1 < v := hfv
    exact hdist u hu v hv (by omega) (by omega) hslot

/-- **One step keeps a generator sound**, whoever takes it. -/
theorem Sound.step {countstart : ℤ} {g g' : AcknowledgedCounterGenerator} {l : Label} (h : Sound countstart g)
    (hover : NoOverflow g l) (honce : AckedOnce g l) (holdest : OldestFirst g l) (hm : Moves g l g') :
    Sound countstart g' := by
  have hlim := h.limit_le
  obtain ⟨hfits, hle, hfits'⟩ := h.fits
  cases hm with
  | nextValue => exact h.nextValue hover
  | throws hset => exact h.of_frontier rfl rfl rfl rfl rfl ⟨le_rfl, hlim.2.1⟩
  | mark hunset => exact h.mark hunset honce.1 honce.2 (holdest hunset)
  | lock hfree =>
    have hnext : asLong (g.limit + 1) = g.limit + 1 := asLong_of_fits (by unfold FitsLong at *; omega)
    refine h.of_frontier rfl rfl rfl rfl ?_ ⟨le_rfl, hlim.2.1⟩
    simp only [frontier, hfree, hnext]
    omega
  | skip => exact h.of_frontier rfl rfl rfl rfl rfl ⟨le_rfl, hlim.2.1⟩
  | scan hholder hset => exact (h.scan hholder hset).2.2
  | leave hholder hend =>
    refine h.of_frontier rfl rfl rfl rfl ?_ ⟨le_rfl, hlim.2.1⟩
    simp only [frontier, hholder]
  | @publish index hholder =>
    have hfront : g.frontier = index - 1 := by simp only [frontier, hholder]
    have hprev : asLong (index - 1) = index - 1 := asLong_of_fits (by unfold FitsLong at *; omega)
    refine h.of_frontier rfl rfl rfl rfl ?_ ?_
    · show asLong (index - 1) = g.frontier
      rw [hprev, hfront]
    · show g.limit ≤ asLong (index - 1) ∧ asLong (index - 1) ≤ g.frontier
      omega
  | unlock hholder =>
    refine h.of_frontier rfl rfl rfl rfl ?_ ⟨le_rfl, hlim.2.1⟩
    simp only [frontier, hholder]

theorem sound_initial {countstart : ℤ} (hstart : FitsLong (countstart - 1)) (hfits : FitsLong countstart) :
    Sound countstart (initial countstart) := by
  have hlimit : asLong (countstart - 1) = countstart - 1 := asLong_of_fits hstart
  refine ⟨⟨hstart, le_rfl, hfits⟩, fun v => ?_, fun v hv => absurd hv List.not_mem_nil, ?_, fun v hv hle => ?_, fun j => ?_,
    fun u hu => absurd hu List.not_mem_nil, fun v hv => absurd hv List.not_mem_nil⟩
  · show v ∈ [] ↔ countstart ≤ v ∧ v < countstart
    refine iff_of_false List.not_mem_nil ?_
    omega
  · show countstart - 1 ≤ asLong (countstart - 1) ∧ asLong (countstart - 1) ≤ asLong (countstart - 1) ∧
      asLong (countstart - 1) < countstart
    omega
  · replace hle : v ≤ asLong (countstart - 1) := hle
    omega
  · refine iff_of_false Bool.false_ne_true ?_
    rintro ⟨v, hv, -⟩
    exact absurd hv List.not_mem_nil

end AcknowledgedCounterGenerator

end YcsbIvs.Generator
