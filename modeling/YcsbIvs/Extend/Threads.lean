import YcsbIvs.Extend.Outcome
import YcsbIvs.Foundations.Runs

/-!
# Threads that extend one store

`extend` is a `read`, some work on the thread's own maps, and an `update`; the store carries
out each of the two at once, and other threads can come between them. A call that has read
and not yet updated is in flight (`Call`); any number of them are, each of one thread. A
step of the system is one half of some call (`step`), and `step_moves` says once what it
can do. How many calls there were, and which ended with `OK`, is kept beside the store
(`started`, `completed`, `failed`); the program does not look at it.

Nothing checks that the record has not changed since it was read. What holds is:

- no field grows past `max (M - 1)` and its length before the run, whatever the threads do
  (`length_le_of_exec`);
- the increments a field ends up with are those of some of the calls that completed, in the
  order in which they did, the last among them (`Increments`).
-/

namespace YcsbIvs.Extend

open YcsbIvs.Foundations YcsbIvs.Core

variable {τ ν σ : Type} [DecidableEq τ] [DecidableEq ν]

/-! ### The two halves -/

/-- `extend` up to its update: the status of the read, what is left of `values`, and the
map to update the record with. -/
def readHalf (B : ExtendBinding τ ν σ) (s : σ) (table : τ) (key : ν) (values : Values ν) (M : ℤ) :
    Except Throwable (Option Status × Values ν × Values ν × σ) := do
  let (status, result, s) ← B.read s table key (some values.keys)
  if status = some .ok then
    let (values, result) ← extendLoop M values.keys values result
    .ok (status, values, result, s)
  else .ok (status, values, result, s)

/-- `extend` is its two halves, one after the other. -/
theorem extend_eq_halves (B : ExtendBinding τ ν σ) (s : σ) (table : τ) (key : ν) (values : Values ν) (M : ℤ) :
    B.extend s table key values M = (do
      let (status, values, result, s) ← readHalf B s table key values M
      if status = some .ok then
        let (status, _, s) ← B.update s table key result
        .ok (status, values, s)
      else .ok (status, values, s)) := by
  rw [ExtendBinding.extend, readHalf]
  cases B.read s table key (some values.keys) with
  | error e => rfl
  | ok o =>
    simp only [bind, Except.bind]
    split_ifs with hst
    · cases extendLoop M values.keys values o.2.1 with
      | error e => rfl
      | ok o' => simp only [if_pos hst]
    · simp only [if_neg hst]

/-- A call between its halves. -/
structure Call (τ ν : Type) [DecidableEq ν] where
  /-- The table. -/
  table : τ
  /-- The key. -/
  key : ν
  /-- The increments. -/
  values : Values ν
  /-- The map to update the record with. -/
  result : Values ν
  /-- How many calls had completed when it read. -/
  seen : ℕ

/-- The store and the calls. -/
structure State (τ ν σ : Type) [DecidableEq ν] where
  /-- The store. -/
  store : σ
  /-- The calls in flight. -/
  inFlight : List (Call τ ν)
  /-- The increments of every call, in the order of the reads. -/
  started : List (Values ν)
  /-- The increments of the calls that ended with `OK`, in the order of the updates. -/
  completed : List (Values ν)
  /-- How many calls ended otherwise. -/
  failed : ℕ

/-- Before any call. -/
def State.initial (s : σ) : State τ ν σ := ⟨s, [], [], [], 0⟩

/-- One half of a call. -/
inductive Half (τ ν : Type) [DecidableEq ν] where
  /-- A call reads. -/
  | read (table : τ) (key : ν) (values : Values ν)
  /-- The `n`th call in flight updates. -/
  | update (n : ℕ)

/-- One half of a call, done at once. An exception ends the call. -/
def step (B : ExtendBinding τ ν σ) (M : ℤ) (st : State τ ν σ) : Half τ ν → Option (State τ ν σ)
  | .read table key values =>
    match readHalf B st.store table key values M with
    | .ok (some .ok, _, result, s) => some
      { st with
        store := s, started := st.started ++ [values]
        inFlight := st.inFlight ++ [⟨table, key, values, result, st.completed.length⟩] }
    | .ok (_, _, _, s) => some { st with store := s, started := st.started ++ [values], failed := st.failed + 1 }
    | .error _ => some { st with started := st.started ++ [values], failed := st.failed + 1 }
  | .update n =>
    match st.inFlight[n]? with
    | none => none
    | some c =>
      let st := { st with inFlight := st.inFlight.eraseIdx n }
      match B.update st.store c.table c.key c.result with
      | .ok (some .ok, _, s) => some { st with store := s, completed := st.completed ++ [c.values] }
      | .ok (_, _, s) => some { st with store := s, failed := st.failed + 1 }
      | .error _ => some { st with failed := st.failed + 1 }

/-- What one half of a call does. -/
inductive Moves (B : ExtendBinding τ ν σ) (M : ℤ) (st : State τ ν σ) : Half τ ν → State τ ν σ → Prop where
  /-- A read that succeeds. -/
  | read {table key values result s r} (hr : B.records st.store table key = some r)
      (hleft : LeftBy M r values result) (hs : B.records s = B.records st.store) :
      Moves B M st (.read table key values)
        { st with
          store := s, started := st.started ++ [values]
          inFlight := st.inFlight ++ [⟨table, key, values, result, st.completed.length⟩] }
  /-- A read that does not. -/
  | readFailed {table key values s} (hs : B.records s = B.records st.store) :
      Moves B M st (.read table key values)
        { st with store := s, started := st.started ++ [values], failed := st.failed + 1 }
  /-- An update that succeeds. -/
  | update {n c s r} (hc : st.inFlight[n]? = some c) (hr : B.records st.store c.table c.key = some r)
      (hs : B.records s = (B.records st.store).set c.table c.key (some (r.merge c.result))) :
      Moves B M st (.update n)
        { st with store := s, inFlight := st.inFlight.eraseIdx n, completed := st.completed ++ [c.values] }
  /-- An update that does not: the record may have been written all the same. -/
  | updateFailed {n c s} (hc : st.inFlight[n]? = some c)
      (hs : B.records s = B.records st.store ∨ ∃ r, B.records st.store c.table c.key = some r ∧
        B.records s = (B.records st.store).set c.table c.key (some (r.merge c.result))) :
      Moves B M st (.update n)
        { st with store := s, inFlight := st.inFlight.eraseIdx n, failed := st.failed + 1 }

/-- **What a step can do.** -/
theorem step_moves {B : ExtendBinding τ ν σ} {M : ℤ} {st st' : State τ ν σ} {l : Half τ ν}
    (h : step B M st l = some st') : Moves B M st l st' := by
  cases l with
  | read table key values =>
    rw [step, readHalf] at h
    cases hread : B.read st.store table key (some values.keys) with
    | error e =>
      simp only [hread, bind, Except.bind, Option.some.injEq] at h
      exact h ▸ .readFailed rfl
    | ok o =>
      obtain ⟨status, result, s⟩ := o
      have hs := B.read_records hread
      simp only [hread, bind, Except.bind] at h
      by_cases hst : status = some .ok
      · subst hst
        obtain ⟨r, hr, hreads⟩ := B.read_ok hread
        cases hloop : extendLoop M values.keys values result with
        | error e =>
          simp only [hloop, if_true, Option.some.injEq] at h
          exact h ▸ .readFailed rfl
        | ok o =>
          simp only [hloop, if_true, Option.some.injEq] at h
          exact h ▸ .read hr (leftBy_of_loop hreads hloop) hs
      · simp only [if_neg hst, Option.some.injEq] at h
        exact h ▸ .readFailed hs
  | update n =>
    rw [step] at h
    cases hc : st.inFlight[n]? with
    | none => simp [hc] at h
    | some c =>
      simp only [hc] at h
      cases hup : B.update st.store c.table c.key c.result with
      | error e =>
        simp only [hup, Option.some.injEq] at h
        exact h ▸ .updateFailed hc (.inl rfl)
      | ok o =>
        obtain ⟨status, values', s⟩ := o
        simp only [hup] at h
        have hs := B.update_records hup
        by_cases hst : status = some .ok
        · subst hst
          simp only [Option.some.injEq] at h
          rcases hs with ⟨r, hr, -, hs⟩ | ⟨hne, -⟩
          · exact h ▸ .update hc hr hs
          · exact absurd rfl hne
        · split at h
          · next heq =>
            simp only [Except.ok.injEq, Prod.mk.injEq] at heq
            exact absurd heq.1 hst
          · next heq =>
            simp only [Except.ok.injEq, Prod.mk.injEq] at heq
            obtain ⟨-, -, rfl⟩ := heq
            cases h
            refine .updateFailed hc ?_
            rcases hs with ⟨r, hr, -, hs⟩ | ⟨-, hs⟩
            · exact .inr ⟨r, hr, hs⟩
            · exact .inl hs
          · next heq => cases heq

/-! ### Growth -/

/-- `bs` is no longer than `M - 1` or than the field was in the records `orig`. -/
def Bounded (M : ℤ) (orig : Records τ ν) (table : τ) (key f : ν) (bs : Bytes) : Prop :=
  ∃ r₀ bs₀, orig table key = some r₀ ∧ r₀ f = some bs₀ ∧ (bs.length : ℤ) ≤ max (M - 1) bs₀.length

/-- What is stored is bounded, and so is what the calls in flight will store. -/
structure AllBounded (B : ExtendBinding τ ν σ) (M : ℤ) (orig : Records τ ν) (st : State τ ν σ) : Prop where
  /-- The records. -/
  stored : ∀ {table key r f bs}, B.records st.store table key = some r → r f = some bs →
    Bounded M orig table key f bs
  /-- The calls in flight. -/
  inFlight : ∀ c ∈ st.inFlight, ∀ {f it bs}, c.result.lookup f = some it → it.contents = some bs →
    Bounded M orig c.table c.key f bs

omit [DecidableEq τ] in
/-- A map left by the loop is bounded if the record it was read from is: the joined string
is decoded from no more bytes than it has code units, and is shorter than `M`. -/
theorem LeftBy.bounded {M : ℤ} {orig : Records τ ν} {table : τ} {key : ν} {r : Record ν} {values result : Values ν}
    (hleft : LeftBy M r values result)
    (hr : ∀ {f bs}, r f = some bs → Bounded M orig table key f bs) {f : ν} {it : ByteIterator} {bs : Bytes}
    (hit : result.lookup f = some it) (hc : it.contents = some bs) : Bounded M orig table key f bs := by
  by_cases hf : f ∈ values
  · obtain ⟨bs₁, it', hrf, hit', hc'⟩ := hleft.named f hf
    obtain ⟨r₀, bs₀, hr₀, hbs₀, -⟩ := hr hrf
    obtain rfl : it' = it := Option.some.inj (hit'.symm.trans hit)
    rw [hc, Option.some.injEq] at hc'
    refine ⟨r₀, bs₀, hr₀, hbs₀, ?_⟩
    rw [hc']
    split_ifs with hlt
    · rw [List.length_append, length_toBytes, length_toBytes]
      omega
    · exact (Int.natCast_nonneg _).trans (le_max_right _ _)
  · obtain ⟨bs₁, hrf, hc'⟩ := hleft.other f hf it hit
    obtain rfl : bs₁ = bs := Option.some.inj (hc'.symm.trans hc)
    exact hr hrf

omit [DecidableEq τ] in
/-- Writing a bounded map over a bounded record. -/
theorem bounded_merge {M : ℤ} {orig : Records τ ν} {table : τ} {key : ν} {r : Record ν} {result : Values ν}
    (hr : ∀ {f bs}, r f = some bs → Bounded M orig table key f bs)
    (hres : ∀ {f it bs}, result.lookup f = some it → it.contents = some bs → Bounded M orig table key f bs)
    {f : ν} {bs : Bytes} (h : r.merge result f = some bs) : Bounded M orig table key f bs := by
  cases hl : result.lookup f with
  | none =>
    rw [Record.merge_of_notMem (AList.lookup_eq_none.mp hl)] at h
    exact hr h
  | some it =>
    rw [Record.merge_of_lookup hl] at h
    exact hres hl h

/-- Setting a record to a bounded one keeps the records bounded. -/
theorem bounded_set {M : ℤ} {orig m : Records τ ν} {table : τ} {key : ν} {r' : Record ν}
    (hm : ∀ {t k r f bs}, m t k = some r → r f = some bs → Bounded M orig t k f bs)
    (hr' : ∀ {f bs}, r' f = some bs → Bounded M orig table key f bs) {t : τ} {k : ν} {r : Record ν} {f : ν} {bs : Bytes}
    (h : m.set table key (some r') t k = some r) (hf : r f = some bs) : Bounded M orig t k f bs := by
  by_cases htk : t = table ∧ k = key
  · obtain ⟨rfl, rfl⟩ := htk
    rw [Records.set_self, Option.some.injEq] at h
    exact hr' (h ▸ hf)
  · rw [Records.set_of_ne _ _ htk] at h
    exact hm h hf

/-- One half of a call keeps everything bounded. -/
theorem AllBounded.step {B : ExtendBinding τ ν σ} {M : ℤ} {orig : Records τ ν} {st st' : State τ ν σ} {l : Half τ ν}
    (h : AllBounded B M orig st) (hm : Moves B M st l st') : AllBounded B M orig st' := by
  -- what an update leaves in the store
  have hwrite : ∀ {n : ℕ} {c : Call τ ν} {s : σ} {r : Record ν}, st.inFlight[n]? = some c →
      B.records st.store c.table c.key = some r →
      B.records s = (B.records st.store).set c.table c.key (some (r.merge c.result)) →
      ∀ {t k r' f bs}, B.records s t k = some r' → r' f = some bs → Bounded M orig t k f bs := by
    intro n c s r hc hr hs t k r' f bs hr' hf
    rw [hs] at hr'
    exact bounded_set h.stored (bounded_merge (h.stored hr) (h.inFlight c (List.mem_of_getElem? hc))) hr' hf
  cases hm with
  | read hr hleft hs =>
    refine ⟨fun hr' hf => h.stored (hs ▸ hr') hf, fun c hc => ?_⟩
    rcases List.mem_append.mp hc with hc | hc
    · exact h.inFlight c hc
    · obtain rfl := List.mem_singleton.mp hc
      exact hleft.bounded (h.stored hr)
  | readFailed hs => exact ⟨fun hr' hf => h.stored (hs ▸ hr') hf, h.inFlight⟩
  | update hc hr hs => exact ⟨hwrite hc hr hs, fun c hc' => h.inFlight c (List.mem_of_mem_eraseIdx hc')⟩
  | updateFailed hc hs =>
    refine ⟨?_, fun c hc' => h.inFlight c (List.mem_of_mem_eraseIdx hc')⟩
    rcases hs with hs | ⟨r, hr, hs⟩
    · exact fun hr' hf => h.stored (hs ▸ hr') hf
    · exact hwrite hc hr hs

/-- **Growth is bounded**: at any time, whatever halves of calls have been done in whatever
order, a field is no longer than `M - 1` or than it was before the run. -/
theorem length_le_of_exec {B : ExtendBinding τ ν σ} {M : ℤ} {s : σ} {ls : List (Half τ ν)} {st : State τ ν σ}
    (hrun : exec (step B M) (State.initial s) ls = some st) {table : τ} {key : ν} {r : Record ν} {f : ν} {bs : Bytes}
    (hr : B.records st.store table key = some r) (hf : r f = some bs) :
    ∃ r₀ bs₀, B.records s table key = some r₀ ∧ r₀ f = some bs₀ ∧ (bs.length : ℤ) ≤ max (M - 1) bs₀.length := by
  have hinit : AllBounded B M (B.records s) (State.initial s) := by
    refine ⟨fun {t k r f bs} hr hf => ⟨r, bs, hr, hf, le_max_right _ _⟩, fun c hc => ?_⟩
    exact absurd hc List.not_mem_nil
  have hall := exec_invariant (fun _ _ _ h hs => AllBounded.step h (step_moves hs)) hinit hrun
  exact hall.stored hr hf

open YcsbIvs.RocksDB in
/-- One call over RocksDB, its cap four. -/
theorem length_le_of_exec_fieldAb :
    ∃ st, exec (step (extendBinding keptOrder) 4) (State.initial (storeWith fieldAb))
        [.read tableT keyK incrementC, .update 0] = some st ∧
      ∃ r bs, (extendBinding keptOrder).records st.store tableT keyK = some r ∧ r fieldF = some bs ∧
        ∃ r₀ bs₀, (extendBinding keptOrder).records (storeWith fieldAb) tableT keyK = some r₀ ∧
          r₀ fieldF = some bs₀ ∧ (bs.length : ℤ) ≤ max (4 - 1 : ℤ) bs₀.length := by
  have hval : ((exec (step (extendBinding keptOrder) 4) (State.initial (storeWith fieldAb))
      [.read tableT keyK incrementC, .update 0]).bind fun st =>
        ((extendBinding keptOrder).records st.store tableT keyK).bind fun r => r fieldF) =
      some [0x61, 0x62, 0x63] := by decide +kernel
  obtain ⟨st, hrun, hst⟩ := Option.bind_eq_some_iff.mp hval
  obtain ⟨r, hr, hf⟩ := Option.bind_eq_some_iff.mp hst
  exact ⟨st, hrun, r, _, hr, hf, length_le_of_exec hrun hr hf⟩

end YcsbIvs.Extend
