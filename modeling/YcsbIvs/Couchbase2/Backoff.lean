import YcsbIvs.Foundations.Words
import Mathlib.Data.List.Induction
import Mathlib.Tactic.SplitIfs

/-!
# The back-off of the Couchbase 2 binding

With the boost setting, an event loop asks a `BackoffSelectStrategy` what to do next. It counts the calls that find nothing to
do. By the thresholds it is written with, such calls first spin, above 2000 they park for a nanosecond, above 3000 they yield,
above 4000 they park for longer, and above 5000 they let the loop block in a select and count from zero.

The tests are made in that order, so the first of them holds whenever a later one does. From the call 2001 on every call without work
parks for a nanosecond (`calculateStrategy_idle`): none yields, parks for longer or selects, and nothing but work resets the counter. So
**the strategy backs off as its thresholds say just when no stretch without work has more than 5000 such calls** (`backsOff_iff`).
-/

namespace YcsbIvs.Couchbase2.BackoffSelectStrategy

open YcsbIvs.Foundations

/-! ### The strategy -/

/-- `SelectStrategy.SELECT`. -/
def SELECT : ℤ := -1

/-- `SelectStrategy.CONTINUE`. -/
def CONTINUE : ℤ := -2

/-- What a call does before it returns. -/
inductive Pause where
  /-- `LockSupport.parkNanos(nanos)`. -/
  | parkNanos (nanos : ℕ)
  /-- `Thread.yield()`. -/
  | yield
  deriving DecidableEq, Repr

/-- What a call does and returns. -/
structure Outcome where
  /-- What it returns. -/
  returns : ℤ
  /-- Its pause, if it makes one. -/
  pause : Option Pause
  deriving DecidableEq, Repr

/-- A call of `calculateStrategy`. -/
structure Call where
  /-- What `supplier.get()` gives, if it does not throw. -/
  supplier : Option ℤ
  /-- `hasTasks`. -/
  hasTasks : Bool
  deriving DecidableEq, Repr

/-- `calculateStrategy(supplier, hasTasks)`: its outcome, if the supplier does not throw, and the counter after it. -/
def calculateStrategy (counter : ℤ) (call : Call) : Option Outcome × ℤ :=
  match call.supplier with
  | none => (none, counter)
  | some selectNowResult =>
    if call.hasTasks ∨ selectNowResult ≠ 0 then (some ⟨selectNowResult, none⟩, 0)
    else
      let counter := asInt (counter + 1)
      if counter > 2000 then (some ⟨CONTINUE, some (.parkNanos 1)⟩, counter)
      else if counter > 3000 then (some ⟨CONTINUE, some .yield⟩, counter)
      else if counter > 4000 then (some ⟨CONTINUE, some (.parkNanos 1000)⟩, counter)
      else if counter > 5000 then (some ⟨SELECT, none⟩, 0)
      else (some ⟨CONTINUE, none⟩, counter)

/-- The counter after the calls. -/
def counterAfter (counter : ℤ) (calls : List Call) : ℤ := calls.foldl (fun counter call => (calculateStrategy counter call).2) counter

/-- What the calls do and return, those that throw left out. -/
def outcomes : ℤ → List Call → List Outcome
  | _, [] => []
  | counter, call :: calls =>
    (calculateStrategy counter call).1.toList ++ outcomes (calculateStrategy counter call).2 calls

/-! ### Stretches without work -/

namespace Call

/-- The call finds work. -/
def FindsWork (call : Call) : Prop := ∃ n, call.supplier = some n ∧ (call.hasTasks = true ∨ n ≠ 0)

/-- The call is idle: it finds that there is nothing to do. -/
def Idle (call : Call) : Bool := call.supplier = some 0 && !call.hasTasks

/-- A call finds work, is idle, or throws. -/
theorem kinds (call : Call) : (call.FindsWork ∧ call.Idle = false) ∨ (¬ call.FindsWork ∧ call = ⟨some 0, false⟩) ∨
    (¬ call.FindsWork ∧ call.supplier = none ∧ call.Idle = false) := by
  obtain ⟨supplier, hasTasks⟩ := call
  cases supplier with
  | none => simp [FindsWork, Idle]
  | some n =>
    cases hasTasks
    · by_cases hn : n = 0 <;> simp [FindsWork, Idle, hn]
    · simp [FindsWork, Idle]

end Call

/-- How many calls are idle. -/
def idles (calls : List Call) : ℕ := calls.countP Call.Idle

/-- `stretch` is a stretch of the run after `before`: no call of it finds work, and it begins with the run or after a call that does. -/
structure IsStretch (calls before stretch : List Call) : Prop where
  /-- It is part of the run. -/
  prefixes : before ++ stretch <+: calls
  /-- Where it begins. -/
  begins : ∀ call ∈ before.getLast?, call.FindsWork
  /-- No call finds work. -/
  idle : ∀ call ∈ stretch, ¬ call.FindsWork

/-- What the thresholds define, in their order. -/
def phases : List Outcome :=
  [⟨CONTINUE, none⟩, ⟨CONTINUE, some (.parkNanos 1)⟩, ⟨CONTINUE, some .yield⟩, ⟨CONTINUE, some (.parkNanos 1000)⟩, ⟨SELECT, none⟩]

/-- The strategy backs off as its thresholds say: a stretch with more than 5000 idle calls goes through the phases, the last of
which is `SELECT`, and the counter is never above 5001. -/
structure BacksOff (calls : List Call) : Prop where
  /-- The phases. -/
  goesThrough : ∀ before stretch, IsStretch calls before stretch → 5000 < idles stretch →
    phases.Sublist (outcomes (counterAfter 0 before) stretch)
  /-- The counter. -/
  counter : ∀ before, before <+: calls → counterAfter 0 before ≤ 5001

/-! ### What a call does -/

/-- A call that finds work resets the counter. -/
theorem calculateStrategy_work {call : Call} (h : call.FindsWork) (counter : ℤ) : (calculateStrategy counter call).2 = 0 := by
  obtain ⟨n, hn, hwork⟩ := h
  simp only [calculateStrategy, hn]
  rw [if_pos hwork]

/-- **An idle call spins, or parks for a nanosecond** when the counter is above 2000. -/
theorem calculateStrategy_idle (counter : ℤ) :
    calculateStrategy counter ⟨some 0, false⟩ =
      (some ⟨CONTINUE, if asInt (counter + 1) > 2000 then some (.parkNanos 1) else none⟩, asInt (counter + 1)) := by
  simp only [calculateStrategy]
  rw [if_neg (by simp)]
  split_ifs
  · rfl
  · omega
  · omega
  · omega
  · rfl

/-- A call that throws leaves the counter. -/
theorem calculateStrategy_throws {call : Call} (h : call.supplier = none) (counter : ℤ) : calculateStrategy counter call = (none, counter) := by
  simp only [calculateStrategy, h]

/-- A call that finds no work does not return `SELECT`. -/
theorem ne_select {call : Call} (h : ¬ call.FindsWork) {counter : ℤ} {o : Outcome} (ho : (calculateStrategy counter call).1 = some o) :
    o.returns = CONTINUE := by
  rcases call.kinds with ⟨hwork, -⟩ | ⟨-, rfl⟩ | ⟨-, hthrows, -⟩
  · exact absurd hwork h
  · rw [calculateStrategy_idle] at ho
    cases ho
    rfl
  · rw [calculateStrategy_throws hthrows] at ho
    cases ho

/-- A stretch without work only continues. -/
theorem outcomes_continue {stretch : List Call} (h : ∀ call ∈ stretch, ¬ call.FindsWork) (counter : ℤ) :
    ∀ o ∈ outcomes counter stretch, o.returns = CONTINUE := by
  induction stretch generalizing counter with
  | nil => simp [outcomes]
  | cons call stretch ih =>
    obtain ⟨hcall, hrest⟩ := List.forall_mem_cons.mp h
    intro o ho
    rw [outcomes, List.mem_append] at ho
    rcases ho with ho | ho
    · exact ne_select hcall (Option.mem_toList.mp ho)
    · exact ih hrest _ o ho

/-- So it does not go through the phases. -/
theorem not_phases {stretch : List Call} (h : ∀ call ∈ stretch, ¬ call.FindsWork) (counter : ℤ) : ¬ phases.Sublist (outcomes counter stretch) := by
  intro hsub
  have hmem : (⟨SELECT, none⟩ : Outcome) ∈ outcomes counter stretch := hsub.subset (by simp [phases])
  exact absurd (outcomes_continue h counter _ hmem) (by decide)

/-! ### What the counter counts -/

theorem counterAfter_concat (counter : ℤ) (calls : List Call) (call : Call) :
    counterAfter counter (calls ++ [call]) = (calculateStrategy (counterAfter counter calls) call).2 := by
  rw [counterAfter, List.foldl_append]
  rfl

/-- **The counter counts the idle calls since the last call that found work.** -/
theorem counterAfter_eq (calls : List Call) : ∃ before stretch, before ++ stretch = calls ∧ IsStretch calls before stretch ∧
    counterAfter 0 calls = asInt (idles stretch) := by
  induction calls using List.reverseRecOn with
  | nil => exact ⟨[], [], rfl, ⟨by simp, by simp, by simp⟩, by decide⟩
  | append_singleton calls call ih =>
    obtain ⟨before, stretch, rfl, ⟨-, hbegins, hidle⟩, hcounter⟩ := ih
    rw [counterAfter_concat]
    have hmore : ¬ call.FindsWork → ∀ c ∈ stretch ++ [call], ¬ c.FindsWork := by
      intro hcall c hc
      rcases List.mem_append.mp hc with hc | hc
      · exact hidle c hc
      · rw [List.mem_singleton.mp hc]
        exact hcall
    rcases call.kinds with ⟨hwork, -⟩ | ⟨hnot, heq⟩ | ⟨hnot, hthrows, hno⟩
    · -- Work: a new stretch begins.
      refine ⟨before ++ stretch ++ [call], [], by simp, ⟨by simp, ?_, by simp⟩, ?_⟩
      · simpa using hwork
      · rw [calculateStrategy_work hwork]
        decide
    · -- One more idle call.
      refine ⟨before, stretch ++ [call], by simp, ⟨by simp, hbegins, hmore hnot⟩, ?_⟩
      have hcount : idles (stretch ++ [call]) = idles stretch + 1 := by simp [idles, heq, Call.Idle]
      rw [heq] at hcount ⊢
      rw [calculateStrategy_idle, hcount, hcounter]
      dsimp only
      rw [asInt_asInt_add, Nat.cast_add, Nat.cast_one]
    · refine ⟨before, stretch ++ [call], by simp, ⟨by simp, hbegins, hmore hnot⟩, ?_⟩
      have hcount : idles (stretch ++ [call]) = idles stretch := by simp [idles, hno]
      rw [calculateStrategy_throws hthrows, hcount, hcounter]

theorem outcomes_append (counter : ℤ) (calls calls' : List Call) :
    outcomes counter (calls ++ calls') = outcomes counter calls ++ outcomes (counterAfter counter calls) calls' := by
  induction calls generalizing counter with
  | nil => rfl
  | cons call calls ih =>
    rw [List.cons_append, outcomes, outcomes, ih, List.append_assoc]
    rfl

/-- **What idle calls do from the start**: 2000 of them spin, and the others park for a nanosecond. -/
theorem outcomes_idle {n : ℕ} (h : n < 2 ^ 31) :
    counterAfter 0 (List.replicate n ⟨some 0, false⟩) = n ∧ outcomes 0 (List.replicate n ⟨some 0, false⟩) =
      List.replicate (min n 2000) ⟨CONTINUE, none⟩ ++ List.replicate (n - 2000) ⟨CONTINUE, some (.parkNanos 1)⟩ := by
  induction n with
  | zero => exact ⟨rfl, rfl⟩
  | succ n ih =>
    obtain ⟨hcounter, houtcomes⟩ := ih (by omega)
    have hfits : asInt ((n : ℤ) + 1) = n + 1 := asInt_of_fits (by unfold FitsInt; omega)
    rw [List.replicate_succ', counterAfter_concat, outcomes_append, hcounter, houtcomes]
    simp only [outcomes, calculateStrategy_idle, hfits, Option.toList_some, List.append_nil]
    refine ⟨by omega, ?_⟩
    by_cases hmore : 2000 ≤ n
    · rw [if_pos (by omega), min_eq_right (by omega), min_eq_right (by omega), Nat.sub_add_comm hmore, List.append_assoc,
        ← List.replicate_succ']
    · rw [if_neg (by omega), min_eq_left (by omega), min_eq_left (by omega), Nat.sub_eq_zero_of_le (by omega),
        Nat.sub_eq_zero_of_le (by omega), List.replicate_succ']
      simp

theorem IsStretch.of_prefix {calls calls' before stretch : List Call} (h : IsStretch calls before stretch) (hpart : calls <+: calls') :
    IsStretch calls' before stretch :=
  ⟨h.prefixes.trans hpart, h.begins, h.idle⟩

/-! ### When it backs off -/

/-- **When the strategy backs off as its thresholds say**: no stretch without work has more than 5000 idle calls. -/
theorem backsOff_iff (calls : List Call) : BacksOff calls ↔ ∀ before stretch, IsStretch calls before stretch → idles stretch ≤ 5000 := by
  constructor
  · intro h before stretch hstretch
    by_contra hmany
    exact not_phases hstretch.idle _ (h.goesThrough before stretch hstretch (not_le.mp hmany))
  · intro h
    refine ⟨fun before stretch hstretch hmany => absurd (h before stretch hstretch) (not_le.mpr hmany), fun part hpart => ?_⟩
    obtain ⟨before, stretch, -, hstretch, hcounter⟩ := counterAfter_eq part
    have hle := h before stretch (hstretch.of_prefix hpart)
    rw [hcounter, asInt_of_fits (by unfold FitsInt; omega)]
    omega

/-- **5001 idle calls do not select.** -/
theorem not_backsOff : ¬ BacksOff (List.replicate 5001 ⟨some 0, false⟩) := by
  intro h
  have hidle : ∀ call ∈ List.replicate 5001 (⟨some 0, false⟩ : Call), ¬ call.FindsWork := by
    intro call hcall
    rw [List.eq_of_mem_replicate hcall]
    simp [Call.FindsWork]
  have hcount : idles (List.replicate 5001 ⟨some 0, false⟩) = 5001 := by
    rw [idles, List.countP_replicate, if_pos (by decide)]
  exact not_phases hidle 0 (h.goesThrough [] _ ⟨List.prefix_refl _, by simp, hidle⟩ (by rw [hcount]; decide))

end YcsbIvs.Couchbase2.BackoffSelectStrategy
