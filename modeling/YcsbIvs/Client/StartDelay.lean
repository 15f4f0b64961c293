import YcsbIvs.Client.Lifecycle
import Mathlib.Data.Rat.Floor
import Mathlib.Tactic.FieldSimp

/-!
# The wait before the first operation

The threads are spread out: one with a target of at most one operation in a millisecond waits for a part of its tick, which is drawn. `nextInt` takes an `int`, and the tick is a
`long` that is cast to one: from `2 ^ 31` nanoseconds on it may be negative, or zero. `nextInt` then throws, and the thread dies before its loop.

**A thread waits for less than a tick and comes to its loop just if the tick, cut to 32 bits, is positive as an `int`** (`startsWell_iff`). The tick is the quotient of a billion
times the number of threads and the target.
-/

namespace YcsbIvs.Client.Lifecycle

open YcsbIvs.Foundations YcsbIvs.Generator

/-- A time that the clock can give next. -/
structure World.CanBe (w : World) (time : ℤ) : Prop where
  exited : w.exited = false
  now : w.now ≤ time
  fits : FitsLong time

namespace ClientThread

/-- From its sleep until `deadline` before the start a thread gets to the start, when it looks at the clock after the deadline; until then it stays in its sleep. -/
structure Awakes (t : ClientThread) (deadline : ℤ) : Prop where
  asleep : t.phase = .sleeping deadline false
  before : ∀ w time, w.CanBe time → time < deadline →
    ∃ t', t.run w ⟨time, .wake⟩ = some ({ w with now := time }, t') ∧
      (t' = t ∨ ∀ w' time', w'.CanBe time' → t'.run w' ⟨time', .park⟩ = some ({ w' with now := time' }, t))
  after : ∀ w time, w.CanBe time → deadline ≤ time → t.run w ⟨time, .wake⟩ = some ({ w with now := time }, { t with phase := .starting })

/-- What is to be of a thread before its wait. -/
structure StartsWell (t : ClientThread) : Prop where
  /-- The bound of `nextInt` is positive. -/
  bound : 0 < asInt t.targetOpsTickNs
  /-- The wait is shorter than a tick. -/
  short : ∀ draw randomMinorDelay, nextInt (asInt t.targetOpsTickNs) draw = .ok randomMinorDelay → 0 ≤ randomMinorDelay ∧ randomMinorDelay < t.targetOpsTickNs
  /-- The thread gets to the start of its loop, whatever is drawn. -/
  reaches : ∀ w time draw, w.CanBe time →
    ∃ deadline t', t.run w ⟨time, .delay draw⟩ = some ({ w with now := time }, t') ∧ t'.Awakes deadline

theorem run_of_canBe {w : World} {time : ℤ} (h : w.CanBe time) (t : ClientThread) (act : Act) :
    t.run w ⟨time, act⟩ = t.next { w with now := time } time act :=
  if_pos ⟨h.exited, h.now, h.fits⟩

/-- A thread in its sleep. -/
theorem awakes_of_sleeping {t : ClientThread} {deadline : ℤ} (h : t.phase = .sleeping deadline false) : t.Awakes deadline := by
  have hwake : ∀ (w : World) (time : ℤ), t.next w time .wake = some (w, t.slept w.spinSleep time deadline false) := by
    intro w time
    rw [next, h]
  refine ⟨h, fun w time htime hlt => ⟨_, (run_of_canBe htime t .wake).trans (hwake _ _), ?_⟩, fun w time htime hle => ?_⟩
  · rw [slept, if_pos hlt]
    dsimp only
    split_ifs with hspin
    · exact .inl rfl
    · refine .inr fun w' time' htime' => (run_of_canBe htime' _ .park).trans ?_
      have hback : { t with phase := .sleeping deadline false } = t := by rw [← h]
      show some (_, { t with phase := .sleeping deadline false }) = _
      rw [hback]
  · rw [run_of_canBe htime, hwake, slept, if_neg (not_lt.mpr hle)]
    rfl

/-- **The start is right just if the bound is positive.** -/
theorem startsWell_iff_bound {t : ClientThread} (hphase : t.phase = .delaying) (hslow : t.StartsDelayed) (htick : 0 ≤ t.targetOpsTickNs) :
    t.StartsWell ↔ 0 < asInt t.targetOpsTickNs := by
  refine ⟨fun h => h.bound, fun hbound => ⟨hbound, fun draw randomMinorDelay hnext => ?_, fun w time draw htime => ?_⟩⟩
  · have hle : asInt t.targetOpsTickNs ≤ t.targetOpsTickNs := by
      simp only [asInt] at hbound ⊢
      omega
    rw [nextInt, if_neg (by omega)] at hnext
    cases hnext
    exact ⟨Int.emod_nonneg _ (by omega), (Int.emod_lt_of_pos _ hbound).trans_le hle⟩
  · have hdraw : nextInt (asInt t.targetOpsTickNs) draw = .ok (draw % asInt t.targetOpsTickNs) := by
      rw [nextInt, if_neg (by omega)]
    refine ⟨asLong (time + draw % asInt t.targetOpsTickNs), { t with phase := .sleeping (asLong (time + draw % asInt t.targetOpsTickNs)) false }, ?_,
      awakes_of_sleeping rfl⟩
    rw [run_of_canBe htime, next, if_pos hphase, delayed, if_pos hslow, hdraw]

end ClientThread

/-! ### The tick -/

/-- A billion nanoseconds for each thread, to the target. -/
def tickOf (target threadcount : ℤ) : ℤ := 10 ^ 9 * threadcount / target

/-- A thread that is ready to wait. -/
def ready (opcount target threadcount : ℤ) : ClientThread :=
  ((ClientThread.new opcount (targetperthreadperms target threadcount)).initialized .returns).prepared .returns

section

variable {target threadcount : ℤ}

theorem targetperthreadperms_pos (htarget : 1 ≤ target) (hthreads : 1 ≤ threadcount) : 0 < targetperthreadperms target threadcount := by
  have htarget' : (0 : ℚ) < target := by exact_mod_cast htarget
  have hthreads' : (0 : ℚ) < threadcount := by exact_mod_cast hthreads
  rw [targetperthreadperms, if_pos (by omega)]
  positivity

/-- The constructor makes this tick. -/
theorem targetOpsTickNs_new (htarget : 1 ≤ target) (hthreads : 1 ≤ threadcount) (hfits : FitsInt threadcount) (opcount : ℤ) :
    (ClientThread.new opcount (targetperthreadperms target threadcount)).targetOpsTickNs = tickOf target threadcount := by
  have htarget' : (0 : ℚ) < target := by exact_mod_cast htarget
  have hthreads' : (0 : ℚ) < threadcount := by exact_mod_cast hthreads
  have hquotient : (1000000 / targetperthreadperms target threadcount : ℚ) = ((10 ^ 9 * threadcount : ℤ) : ℚ) / ((target.toNat : ℕ) : ℚ) := by
    have hnat : ((target.toNat : ℕ) : ℚ) = target := by
      rw [← Int.cast_natCast, Int.toNat_of_nonneg (by omega)]
    rw [targetperthreadperms, if_pos (by omega), hnat]
    push_cast
    field_simp
    ring
  have hfloor : ⌊(1000000 / targetperthreadperms target threadcount : ℚ)⌋ = tickOf target threadcount := by
    rw [hquotient, Rat.floor_intCast_div_natCast, Int.toNat_of_nonneg (by omega), tickOf]
  have hle : tickOf target threadcount ≤ 10 ^ 9 * threadcount := Int.ediv_le_self _ (by omega)
  have hnonneg : 0 ≤ tickOf target threadcount := Int.ediv_nonneg (by omega) (by omega)
  have hpos := targetperthreadperms_pos htarget hthreads
  rw [ClientThread.new]
  dsimp only
  rw [if_pos hpos, castLong, if_pos (by positivity), hfloor]
  unfold FitsInt at hfits
  omega

/-- **A thread starts well just if its tick is positive as an `int`.** -/
theorem startsWell_iff (htarget : 1 ≤ target) (hthreads : 1 ≤ threadcount) (hfits : FitsInt threadcount) (opcount : ℤ)
    (hslow : (ready opcount target threadcount).StartsDelayed) :
    (ready opcount target threadcount).StartsWell ↔
      1 ≤ tickOf target threadcount % 2 ^ 32 ∧ tickOf target threadcount % 2 ^ 32 < 2 ^ 31 := by
  have htick := targetOpsTickNs_new htarget hthreads hfits opcount
  have hnonneg : 0 ≤ tickOf target threadcount := Int.ediv_nonneg (by omega) (by omega)
  have hready : (ready opcount target threadcount).targetOpsTickNs = tickOf target threadcount := htick
  rw [ClientThread.startsWell_iff_bound rfl hslow (hready.symm ▸ hnonneg), hready, asInt]
  omega

end

/-- One operation a second for each of two threads. -/
theorem startsWell_iff_two : (ready 0 2 2).StartsWell :=
  (startsWell_iff (by decide) (by decide) (by decide) 0 (by decide +kernel)).mpr (by decide)

/-- One operation a second for three threads: a tick of three seconds is negative as an `int`. -/
theorem not_startsWell :
    ¬ ∀ target threadcount opcount : ℤ, 1 ≤ target → FitsInt target → 1 ≤ threadcount → FitsInt threadcount →
      (ready opcount target threadcount).StartsDelayed → (ready opcount target threadcount).StartsWell := by
  intro h
  have hbound := (h 1 3 0 (by decide) (by decide) (by decide) (by decide) (by decide +kernel)).bound
  revert hbound
  decide +kernel

end YcsbIvs.Client.Lifecycle
