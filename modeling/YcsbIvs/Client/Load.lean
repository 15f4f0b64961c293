import YcsbIvs.Foundations.Pool
import YcsbIvs.Workloads.KeyNumbers
import Mathlib.Algebra.Order.BigOperators.Group.List
import Mathlib.Algebra.Order.Group.Int

/-!
# Loading with many threads

`Client.initDb` shares the records to be loaded out among the threads: each gets as many
operations as the others or one more. A thread that is given none would never stop, as a
budget of `0` stands for no limit; so there are never more threads than operations.

A thread inserts records until it has done its budget, and the numbers of their keys all come
from one counter. In whatever order the threads move, as long as no insert fails and nobody
asks them to stop, the counter hands out the numbers of the load one after the other, and all
of them by the time the threads have stopped (`load_partition`).
-/

namespace YcsbIvs.Client

open YcsbIvs.Foundations YcsbIvs.Generator YcsbIvs.Workloads

/-! ### Budgets -/

/-- The properties that say how many operations there are, parsed as `int`s. -/
structure OperationCounts where
  /-- `dotransactions`. -/
  dotransactions : Bool
  /-- `operationcount`. -/
  operationcount : Option Word
  /-- `insertcount`. -/
  insertcount : Option Word
  /-- `recordcount`. -/
  recordcount : Option Word

/-- `opcount` of `initDb`. -/
def OperationCounts.opcount (p : OperationCounts) : Word :=
  if p.dotransactions then p.operationcount.getD ⟨0, by decide⟩
  else
    match p.insertcount with
    | some insertcount => insertcount
    | none => p.recordcount.getD ⟨0, by decide⟩

/-- `threadcount` of `initDb`, after it has been reduced. -/
def reducedThreadcount (opcount threadcount : ℤ) : ℤ :=
  if threadcount > opcount ∧ opcount > 0 then opcount else threadcount

/-- `threadopcount` of the thread with the number `threadid`. -/
def threadopcount (opcount threadcount : ℤ) (threadid : ℕ) : ℤ :=
  if threadid < opcount.tmod threadcount then opcount.tdiv threadcount + 1 else opcount.tdiv threadcount

/-- The budgets that `initDb` gives the threads it makes. -/
def initDb (p : OperationCounts) (threadcount : ℤ) : List ℤ :=
  let opcount := p.opcount.1
  let threadcount := reducedThreadcount opcount threadcount
  (List.range threadcount.toNat).map (threadopcount opcount threadcount)

/-- `n` summands `q`, the first `r` of them one more. -/
theorem sum_range_quotient (q r : ℤ) (hr : 0 ≤ r) (n : ℕ) :
    ((List.range n).map fun i : ℕ => if (i : ℤ) < r then q + 1 else q).sum = n * q + min (n : ℤ) r := by
  induction n with
  | zero => simp [hr]
  | succ n ih =>
    rw [List.range_succ, List.map_append, List.sum_append, ih, List.map_singleton, List.sum_singleton]
    have hmul : ((n + 1 : ℕ) : ℤ) * q = n * q + q := by
      rw [Int.natCast_succ, Int.add_mul, Int.one_mul]
    rw [hmul]
    split_ifs with h <;> omega

section Budgets

variable {p : OperationCounts} {threadcount : ℤ}

/-- There are threads, and not more of them than operations. -/
theorem reducedThreadcount_bounds {opcount : ℤ} (hop : 0 < opcount) (hthreads : 1 ≤ threadcount) :
    1 ≤ reducedThreadcount opcount threadcount ∧ reducedThreadcount opcount threadcount ≤ opcount := by
  rw [reducedThreadcount]
  split_ifs <;> omega

/-- The budgets add up to the operations. -/
theorem initDb_sum (hop : 0 < p.opcount.1) (hthreads : 1 ≤ threadcount) : (initDb p threadcount).sum = p.opcount.1 := by
  obtain ⟨hpos, -⟩ := reducedThreadcount_bounds hop hthreads
  rw [initDb]
  generalize reducedThreadcount p.opcount.1 threadcount = n at hpos ⊢
  have hmod := Int.emod_nonneg p.opcount.1 (show n ≠ 0 by omega)
  have hlt := Int.emod_lt_of_pos p.opcount.1 (show 0 < n by omega)
  have hdiv := Int.mul_ediv_add_emod p.opcount.1 n
  have hfun : threadopcount p.opcount.1 n =
      fun i : ℕ => if (i : ℤ) < p.opcount.1 % n then p.opcount.1 / n + 1 else p.opcount.1 / n := by
    funext i
    rw [threadopcount, Int.tdiv_eq_ediv_of_nonneg (by omega), Int.tmod_eq_emod_of_nonneg (by omega)]
  rw [hfun, sum_range_quotient _ _ hmod, show ((n.toNat : ℕ) : ℤ) = n by omega, min_eq_right (by omega), hdiv]

/-- A budget is the quotient, or one more. -/
theorem mem_initDb {b : ℤ} (hb : b ∈ initDb p threadcount) :
    ∃ q, q = p.opcount.1.tdiv (reducedThreadcount p.opcount.1 threadcount) ∧ (b = q ∨ b = q + 1) := by
  obtain ⟨i, -, rfl⟩ := List.mem_map.mp hb
  refine ⟨_, rfl, ?_⟩
  rw [threadopcount]
  split_ifs
  · exact .inr rfl
  · exact .inl rfl

/-- No thread is given nothing to do. -/
theorem one_le_of_mem_initDb (hop : 0 < p.opcount.1) (hthreads : 1 ≤ threadcount) {b : ℤ}
    (hb : b ∈ initDb p threadcount) : 1 ≤ b := by
  obtain ⟨hpos, hle⟩ := reducedThreadcount_bounds hop hthreads
  obtain ⟨q, hq, hb⟩ := mem_initDb hb
  have hone : 1 ≤ q := by
    rw [hq, Int.tdiv_eq_ediv_of_nonneg (by omega)]
    exact (Int.le_ediv_iff_mul_le (by omega)).mpr (by omega)
  omega

end Budgets

/-! ### Threads -/

/-- Where a thread is in the loop of `run`. -/
inductive Phase where
  /-- At the condition of the loop. -/
  | testing
  /-- In `doInsert`, before it has the number of its key. -/
  | drawing
  /-- In `doInsert`, with the number of its key. -/
  | inserting (keynum : ℤ)
  /-- After the loop. -/
  | stopped
  deriving DecidableEq

/-- A thread. -/
structure ClientThread where
  /-- `opcount`; `0` for no limit. -/
  opcount : ℤ
  /-- `opsdone`. -/
  opsdone : ℤ
  /-- Where it is. -/
  phase : Phase
  deriving DecidableEq

/-- What the threads share. -/
structure Keys where
  /-- `keysequence`. -/
  keysequence : CounterGenerator
  /-- What it has handed out. -/
  issued : List ℤ

/-- What a thread does. -/
inductive Act where
  /-- It tests the condition of the loop; whether a stop has been requested. -/
  | test (isStopRequested : Bool)
  /-- It takes a number from `keysequence`. -/
  | nextValue
  /-- `doInsert` returns. -/
  | finish (inserted : Bool)
  deriving DecidableEq

/-- A thread that has been made with a budget. -/
def ClientThread.initial (opcount : ℤ) : ClientThread := ⟨opcount, 0, .testing⟩

/-- One step of `run`, for a thread that loads. -/
def ClientThread.run (keys : Keys) (t : ClientThread) : Act → Option (Keys × ClientThread)
  | .test isStopRequested =>
    match t.phase with
    | .testing =>
      if (t.opcount = 0 ∨ t.opsdone < t.opcount) ∧ isStopRequested = false then some (keys, { t with phase := .drawing })
      else some (keys, { t with phase := .stopped })
    | _ => none
  | .nextValue =>
    match t.phase with
    | .drawing =>
      let (keynum, keysequence) := doInsertKeynum keys.keysequence
      some (⟨keysequence, keys.issued ++ [keys.keysequence.nextValue.1]⟩, { t with phase := .inserting keynum })
    | _ => none
  | .finish inserted =>
    match t.phase with
    | .inserting _ =>
      if inserted then some (keys, { t with opsdone := asInt (t.opsdone + 1), phase := .testing })
      else some (keys, { t with phase := .stopped })
    | _ => none

/-- The threads before they start. -/
def loading (insertstart : ℤ) (budgets : List ℤ) : Pool Keys ClientThread :=
  ⟨⟨⟨insertstart⟩, []⟩, budgets.map ClientThread.initial⟩

/-- No stop is requested, and the insert does not fail. -/
def Undisturbed : Act → Prop
  | .test isStopRequested => isStopRequested = false
  | .nextValue => True
  | .finish inserted => inserted = true

/-- The first `n` numbers from `start` on. -/
def consecutive (start : ℤ) (n : ℕ) : List ℤ := (List.range n).map fun i : ℕ => start + i

theorem consecutive_succ (start : ℤ) (n : ℕ) : consecutive start (n + 1) = consecutive start n ++ [start + n] := by
  rw [consecutive, List.range_succ, List.map_append]
  rfl

/-- What holds of a thread with a budget, in a run in which nothing goes wrong. -/
structure ClientThread.InBudget (t : ClientThread) : Prop where
  /-- The budget is not `0`, and an `int`. -/
  budget : 1 ≤ t.opcount ∧ t.opcount < 2 ^ 31
  /-- It has not done more than it is to do. -/
  opsdone : 0 ≤ t.opsdone ∧ t.opsdone ≤ t.opcount
  /-- It is in `doInsert` only if there is something left. -/
  working : t.opsdone = t.opcount → t.phase = .testing ∨ t.phase = .stopped
  /-- It stops only if there is nothing left. -/
  stopped : t.phase = .stopped → t.opsdone = t.opcount

/-- How many numbers a thread has taken. -/
def ClientThread.drawn (t : ClientThread) : ℤ :=
  match t.phase with
  | .inserting _ => t.opsdone + 1
  | _ => t.opsdone

/-- How many steps a thread has left to take. -/
def ClientThread.stepsLeft (t : ClientThread) : ℤ :=
  match t.phase with
  | .testing => 3 * (t.opcount - t.opsdone) + 1
  | .drawing => 3 * (t.opcount - t.opsdone)
  | .inserting _ => 3 * (t.opcount - t.opsdone) - 1
  | .stopped => 0

/-- What a step leaves of a thread: its budget, one step less to take, and one number more if
it has taken one from the counter. -/
structure Advances (keys : Keys) (t : ClientThread) (keys' : Keys) (t' : ClientThread) : Prop where
  /-- It stays in its budget. -/
  inBudget : t'.InBudget
  /-- The budget stays. -/
  opcount : t'.opcount = t.opcount
  /-- It gets on. -/
  stepsLeft : t'.stepsLeft + 1 = t.stepsLeft
  /-- The numbers. -/
  drawn : (keys' = keys ∧ t'.drawn = t.drawn) ∨
    (t.drawn < t.opcount ∧ t'.drawn = t.drawn + 1 ∧
      keys' = ⟨keys.keysequence.nextValue.2, keys.issued ++ [keys.keysequence.nextValue.1]⟩)

/-- One step of a thread in which nothing goes wrong. -/
theorem run_advances {keys keys' : Keys} {t t' : ClientThread} {act : Act} (ht : t.InBudget) (hact : Undisturbed act)
    (h : t.run keys act = some (keys', t')) : Advances keys t keys' t' := by
  obtain ⟨opcount, opsdone, phase⟩ := t
  obtain ⟨⟨hpos, hfits⟩, ⟨hnonneg, hle⟩, hworking, hstopped⟩ := ht
  dsimp only at hpos hfits hnonneg hle hworking hstopped
  cases act with
  | test isStopRequested =>
    obtain rfl : isStopRequested = false := hact
    cases phase with
    | testing =>
      simp only [ClientThread.run, and_true] at h
      split_ifs at h with hlt
      · cases h
        refine ⟨⟨⟨hpos, hfits⟩, ⟨hnonneg, hle⟩, fun heq => ?_, fun hs => by cases hs⟩, rfl, ?_, .inl ⟨rfl, rfl⟩⟩
        · dsimp only at heq
          omega
        · simp only [ClientThread.stepsLeft]
      · cases h
        refine ⟨⟨⟨hpos, hfits⟩, ⟨hnonneg, hle⟩, fun _ => .inr rfl, fun _ => ?_⟩, rfl, ?_, .inl ⟨rfl, rfl⟩⟩
        · dsimp only
          omega
        · simp only [ClientThread.stepsLeft]
          omega
    | drawing => cases h
    | inserting keynum => cases h
    | stopped => cases h
  | nextValue =>
    cases phase with
    | drawing =>
      cases h
      have hlt : opsdone ≠ opcount := fun heq => by simpa using hworking heq
      refine ⟨⟨⟨hpos, hfits⟩, ⟨hnonneg, hle⟩, fun heq => absurd heq hlt, fun hs => by cases hs⟩, rfl, ?_,
        .inr ⟨?_, rfl, rfl⟩⟩
      · simp only [ClientThread.stepsLeft]
        omega
      · simp only [ClientThread.drawn]
        omega
    | testing => cases h
    | inserting keynum => cases h
    | stopped => cases h
  | finish inserted =>
    obtain rfl : inserted = true := hact
    cases phase with
    | inserting keynum =>
      cases h
      have hlt : opsdone ≠ opcount := fun heq => by simpa using hworking heq
      have hnext : asInt (opsdone + 1) = opsdone + 1 := asInt_of_fits (by unfold FitsInt; omega)
      rw [hnext]
      refine ⟨⟨⟨hpos, hfits⟩, ⟨?_, ?_⟩, fun _ => .inl rfl, fun hs => by cases hs⟩, rfl, ?_, .inl ⟨rfl, rfl⟩⟩
      · dsimp only
        omega
      · dsimp only
        omega
      · simp only [ClientThread.stepsLeft]
        omega
    | testing => cases h
    | drawing => cases h
    | stopped => cases h

/-- A thread that has not stopped can move. -/
theorem exists_run {t : ClientThread} (h : t.phase ≠ .stopped) (keys : Keys) :
    ∃ act r, Undisturbed act ∧ t.run keys act = some r := by
  cases hphase : t.phase with
  | testing =>
    by_cases hlt : t.opcount = 0 ∨ t.opsdone < t.opcount
    · exact ⟨.test false, _, rfl, by rw [ClientThread.run, hphase]; exact if_pos ⟨hlt, rfl⟩⟩
    · exact ⟨.test false, _, rfl, by rw [ClientThread.run, hphase]; exact if_neg fun hc => hlt hc.1⟩
  | drawing => exact ⟨.nextValue, _, trivial, by rw [ClientThread.run, hphase]⟩
  | inserting keynum => exact ⟨.finish true, _, rfl, by rw [ClientThread.run, hphase]; rfl⟩
  | stopped => exact absurd hphase h

/-! ### All threads together -/

/-- What holds of the threads, in a run in which nothing goes wrong: they keep to their
budgets, and what they have taken are the first numbers of the load. -/
structure Loads (insertstart : ℤ) (budgets : List ℤ) (p : Pool Keys ClientThread) : Prop where
  /-- Each thread keeps to its budget. -/
  inBudget : ∀ t ∈ p.threads, t.InBudget
  /-- The budgets are those there were. -/
  budgets_eq : p.threads.map ClientThread.opcount = budgets
  /-- The numbers handed out. -/
  issued_eq : p.shared.issued = consecutive insertstart p.shared.issued.length
  /-- The counter. -/
  counter_eq : p.shared.keysequence.counter = insertstart + p.shared.issued.length
  /-- Each number has been taken by one thread. -/
  drawn_eq : (p.threads.map ClientThread.drawn).sum = p.shared.issued.length

/-- A thread has never taken more numbers than its budget. -/
theorem ClientThread.InBudget.drawn_le {t : ClientThread} (h : t.InBudget) : t.drawn ≤ t.opcount := by
  obtain ⟨-, ⟨-, hle⟩, hworking, -⟩ := h
  rw [ClientThread.drawn]
  split
  · next keynum hphase =>
    have hlt : t.opsdone ≠ t.opcount := fun heq => by simp [hphase] at *; omega
    omega
  · exact hle

theorem ClientThread.InBudget.stepsLeft_nonneg {t : ClientThread} (h : t.InBudget) : 0 ≤ t.stepsLeft := by
  obtain ⟨-, ⟨-, hle⟩, hworking, -⟩ := h
  rw [ClientThread.stepsLeft]
  split
  · omega
  · omega
  · next keynum hphase =>
    have hlt : t.opsdone ≠ t.opcount := fun heq => by simp [hphase] at *; omega
    omega
  · exact Int.le_refl 0

/-- All the threads together have taken no more numbers than there are operations. -/
theorem Loads.issued_le {insertstart : ℤ} {budgets : List ℤ} {p : Pool Keys ClientThread}
    (h : Loads insertstart budgets p) : (p.shared.issued.length : ℤ) ≤ budgets.sum := by
  rw [← h.drawn_eq, ← h.budgets_eq]
  exact List.sum_le_sum fun t ht => (h.inBudget t ht).drawn_le

/-- One step of a thread in which nothing goes wrong. -/
theorem Loads.step {insertstart : ℤ} {budgets : List ℤ} {p p' : Pool Keys ClientThread} {l : ℕ × Act}
    (hstart : -2 ^ 63 ≤ insertstart) (hfits : insertstart + budgets.sum < 2 ^ 63) (h : Loads insertstart budgets p)
    (hact : Undisturbed l.2) (hs : p.step ClientThread.run l = some p') :
    Loads insertstart budgets p' ∧
      (p'.threads.map ClientThread.stepsLeft).sum + 1 = (p.threads.map ClientThread.stepsLeft).sum := by
  obtain ⟨t, keys, t', ht, hrun, rfl⟩ := Pool.step_eq_some hs
  obtain ⟨hbudget, hopcount, hleft, hdrawn⟩ := run_advances (h.inBudget t (List.mem_of_getElem? ht)) hact hrun
  have hsteps := sum_map_set ClientThread.stepsLeft ht t'
  have hsum := sum_map_set ClientThread.drawn ht t'
  have hthreads := forall_threads_set h.inBudget hbudget l.1
  have hbudgets : (p.threads.set l.1 t').map ClientThread.opcount = budgets :=
    (map_set_eq ClientThread.opcount ht hopcount).trans h.budgets_eq
  refine ⟨?_, by dsimp only; omega⟩
  rcases hdrawn with ⟨rfl, hsame⟩ | ⟨hlt, hone, rfl⟩
  · exact ⟨hthreads, hbudgets, h.issued_eq, h.counter_eq, by dsimp only; rw [hsum, hsame, h.drawn_eq]; omega⟩
  · have hcounter := h.counter_eq
    -- the thread has something left, so the counter has not got to the end of the load
    have hbelow : (p.shared.issued.length : ℤ) + 1 ≤ budgets.sum := by
      have hle : ((p.threads.set l.1 t').map ClientThread.drawn).sum ≤ budgets.sum := by
        rw [← hbudgets]
        exact List.sum_le_sum fun u hu => (hthreads u hu).drawn_le
      rw [hsum, h.drawn_eq] at hle
      omega
    have hnext : asLong (insertstart + p.shared.issued.length + 1) = insertstart + p.shared.issued.length + 1 :=
      asLong_of_fits (by unfold FitsLong; omega)
    refine ⟨hthreads, hbudgets, ?_, ?_, ?_⟩
    · simp only [CounterGenerator.nextValue]
      rw [List.length_append, List.length_singleton, consecutive_succ, ← h.issued_eq, hcounter]
    · simp only [CounterGenerator.nextValue, List.length_append, List.length_singleton, hcounter, hnext]
      omega
    · simp only [List.length_append, List.length_singleton]
      rw [hsum, h.drawn_eq]
      omega

/-- The threads before they start. -/
theorem loads_initial {p : OperationCounts} {threadcount : ℤ} (hop : 0 < p.opcount.1) (hthreads : 1 ≤ threadcount)
    (insertstart : ℤ) :
    Loads insertstart (initDb p threadcount) (loading insertstart (initDb p threadcount)) := by
  have hsum := initDb_sum hop hthreads
  have hfits := p.opcount.2
  unfold FitsInt at hfits
  refine ⟨fun t ht => ?_, ?_, rfl, (Int.add_zero insertstart).symm, ?_⟩
  · obtain ⟨b, hb, rfl⟩ := List.mem_map.mp ht
    have hone := one_le_of_mem_initDb hop hthreads hb
    have hle : b ≤ (initDb p threadcount).sum :=
      List.single_le_sum (fun c hc => Int.le_trans (by decide) (one_le_of_mem_initDb hop hthreads hc)) b hb
    rw [hsum] at hle
    refine ⟨⟨hone, by show b < 2 ^ 31; omega⟩, ⟨Int.le_refl 0, by show 0 ≤ b; omega⟩, fun _ => .inl rfl, fun h => ?_⟩
    cases h
  · show ((initDb p threadcount).map ClientThread.initial).map ClientThread.opcount = initDb p threadcount
    rw [List.map_map]
    exact List.map_id _
  · show (((initDb p threadcount).map ClientThread.initial).map ClientThread.drawn).sum = 0
    rw [List.map_map]
    exact List.sum_eq_zero fun n hn => by obtain ⟨b, -, rfl⟩ := List.mem_map.mp hn; rfl

/-- How many steps the threads have to take. -/
theorem stepsLeft_loading (insertstart : ℤ) (budgets : List ℤ) :
    ((loading insertstart budgets).threads.map ClientThread.stepsLeft).sum = 3 * budgets.sum + budgets.length := by
  induction budgets with
  | nil => rfl
  | cons b budgets ih =>
    have hcons : ((loading insertstart (b :: budgets)).threads.map ClientThread.stepsLeft).sum =
        (3 * (b - 0) + 1) + ((loading insertstart budgets).threads.map ClientThread.stepsLeft).sum := List.sum_cons
    rw [hcons, ih, List.sum_cons, List.length_cons]
    omega

/-- **The load is shared out, and done once**: the budgets add up to the operations, none is
`0`, and no two differ by more than one; and in any run in which no insert fails and no stop
is requested, the counter hands out the numbers from `insertstart` on, one after the other.
The run can go on until all the threads have stopped, and does not go on for ever; then they
have taken all the numbers of the load. -/
theorem load_partition {p : OperationCounts} {threadcount : ℤ} (hop : 0 < p.opcount.1) (hthreads : 1 ≤ threadcount) :
    ((initDb p threadcount).sum = p.opcount.1 ∧ (∀ b ∈ initDb p threadcount, 1 ≤ b) ∧
      ∀ b ∈ initDb p threadcount, ∀ c ∈ initDb p threadcount, b ≤ c + 1) ∧
    ∀ insertstart, -2 ^ 63 ≤ insertstart → insertstart + p.opcount.1 ≤ 2 ^ 31 → ∀ ls st, (∀ l ∈ ls, Undisturbed l.2) →
      exec (Pool.step ClientThread.run) (loading insertstart (initDb p threadcount)) ls = some st →
      (∃ n : ℕ, n ≤ p.opcount.1 ∧ st.shared.issued = consecutive insertstart n) ∧
      ((∀ t ∈ st.threads, t.phase = .stopped) → st.shared.issued = consecutive insertstart p.opcount.1.toNat) ∧
      ((∃ t ∈ st.threads, t.phase ≠ .stopped) → ∃ l st', Undisturbed l.2 ∧ Pool.step ClientThread.run st l = some st') ∧
      ls.length ≤ 3 * p.opcount.1 + (initDb p threadcount).length := by
  have hsum := initDb_sum hop hthreads
  refine ⟨⟨hsum, fun b => one_le_of_mem_initDb hop hthreads, fun b hb c hc => ?_⟩, ?_⟩
  · obtain ⟨q, hq, hb⟩ := mem_initDb hb
    obtain ⟨q', hq', hc⟩ := mem_initDb hc
    omega
  · intro insertstart hstart hfits ls st hls hrun
    have hinit := loads_initial hop hthreads insertstart
    have hmeets : Meets (Pool.step ClientThread.run) (fun _ l => Undisturbed l.2)
        (loading insertstart (initDb p threadcount)) ls := meets_of_forall (fun l hl _ => hls l hl) _
    have hstep : ∀ (q : Pool Keys ClientThread) (l : ℕ × Act) (q' : Pool Keys ClientThread),
        Loads insertstart (initDb p threadcount) q → Undisturbed l.2 → Pool.step ClientThread.run q l = some q' →
        Loads insertstart (initDb p threadcount) q' ∧
          (q'.threads.map ClientThread.stepsLeft).sum + 1 = (q.threads.map ClientThread.stepsLeft).sum :=
      fun q l q' h hact hs => h.step hstart (by rw [hsum]; omega) hact hs
    have hloads := exec_invariant_of (I := Loads insertstart (initDb p threadcount))
      (fun q l q' h hact hs => (hstep q l q' h hact hs).1) hinit hmeets hrun
    have hmeasure := exec_measure (I := Loads insertstart (initDb p threadcount))
      (μ := fun q => (q.threads.map ClientThread.stepsLeft).sum) (fun q l q' h hact hs => (hstep q l q' h hact hs).1)
      (fun q l q' h hact hs => (hstep q l q' h hact hs).2) hinit hmeets hrun
    have hle := hloads.issued_le
    refine ⟨⟨st.shared.issued.length, by omega, hloads.issued_eq⟩, fun hstopped => ?_, fun ⟨t, ht, hphase⟩ => ?_, ?_⟩
    · have hdone : st.threads.map ClientThread.drawn = st.threads.map ClientThread.opcount := by
        refine List.map_congr_left fun t ht => ?_
        rw [ClientThread.drawn, hstopped t ht]
        exact (hloads.inBudget t ht).stopped (hstopped t ht)
      have hlen := hloads.drawn_eq
      rw [hdone, hloads.budgets_eq, hsum] at hlen
      rw [hloads.issued_eq]
      congr 1
      omega
    · obtain ⟨act, r, hact, hr⟩ := exists_run hphase st.shared
      obtain ⟨i, st', hs⟩ := Pool.step_of_mem ht hr
      exact ⟨(i, act), st', hact, hs⟩
    · have hnonneg : 0 ≤ (st.threads.map ClientThread.stepsLeft).sum := by
        refine List.sum_nonneg fun n hn => ?_
        obtain ⟨t, ht, rfl⟩ := List.mem_map.mp hn
        exact (hloads.inBudget t ht).stepsLeft_nonneg
      rw [stepsLeft_loading, hsum] at hmeasure
      omega

/-- Three records, loaded by two threads. -/
def loadThree : OperationCounts := ⟨false, none, some ⟨3, by decide⟩, none⟩

/-- The threads take turns until they have stopped. -/
def takeTurns : List (ℕ × Act) :=
  [(0, .test false), (1, .test false), (1, .nextValue), (0, .nextValue), (0, .finish true), (1, .finish true),
    (1, .test false), (0, .test false), (0, .nextValue), (0, .finish true), (0, .test false)]

/-- Three records from the number `5` on. -/
theorem load_partition_three :
    initDb loadThree 2 = [2, 1] ∧
      ∃ st, exec (Pool.step ClientThread.run) (loading 5 (initDb loadThree 2)) takeTurns = some st ∧
        st.shared.issued = [5, 6, 7] := by
  have hbudgets : initDb loadThree 2 = [2, 1] := by decide
  have hfinal : (exec (Pool.step ClientThread.run) (loading 5 (initDb loadThree 2)) takeTurns).map
      (fun st => st.threads.map ClientThread.phase) = some [.stopped, .stopped] := by decide
  obtain ⟨st, hrun, hphases⟩ := Option.map_eq_some_iff.mp hfinal
  have hls : ∀ l ∈ takeTurns, Undisturbed l.2 := by
    intro l hl
    simp only [takeTurns, List.mem_cons, List.not_mem_nil, or_false] at hl
    rcases hl with rfl | rfl | rfl | rfl | rfl | rfl | rfl | rfl | rfl | rfl | rfl <;> simp [Undisturbed]
  have hall := (@load_partition loadThree 2 (by decide) (by decide)).2 5 (by decide) (by decide)
    takeTurns st hls hrun
  refine ⟨hbudgets, st, hrun, hall.2.1 fun t ht => ?_⟩
  have hmem : t.phase ∈ st.threads.map ClientThread.phase := List.mem_map_of_mem ht
  rw [hphases] at hmem
  simpa using hmem

end YcsbIvs.Client
