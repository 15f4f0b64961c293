import YcsbIvs.Core.DB
import YcsbIvs.Foundations.Runs

/-!
# The Cloud Spanner binding's inserts

`CloudSpannerClient.insert` adds a mutation to `bufferedMutations`, if there are fewer than `batchInserts` in it. If there are still
fewer then, it returns `BATCHED_OK`. Otherwise it writes all of them, and clears the buffer if that succeeds. So the buffer stays full after
a write that fails, and the next `insert` adds nothing: it writes what is there, and returns `OK`. `cleanup` writes what is left, and
logs an exception if there is one.

**Every mutation whose `insert` has returned `OK` or `BATCHED_OK` has been written when `cleanup` is done, if an `insert` that
finds the buffer full and succeeds is a retry, and `cleanup` does not fail to write a mutation that waits** (`written_of_meets`).
-/

namespace YcsbIvs.CloudSpanner

open YcsbIvs.Foundations YcsbIvs.Core

/-- `PRIMARY_KEY_COLUMN`, the name `id`. -/
def primaryKeyColumn : Utf16 := [0x69, 0x64]

/-- A mutation that inserts or updates a row. -/
structure Mutation where
  /-- The table. -/
  table : Utf16
  /-- Columns and values, in the order they are set in. -/
  columns : List (Utf16 × Utf16)
  deriving DecidableEq

/-- What `dbClient.writeAtLeastOnce` comes to. -/
inductive Reply where
  /-- It has written the mutations. -/
  | written
  /-- It throws, and has written them or not. -/
  | throws (applied : Bool)

/-- The mutations are written. -/
def Reply.applies : Reply → Bool
  | written => true
  | throws applied => applied

/-- The client, and what it has written. -/
structure CloudSpannerClient where
  /-- `bufferedMutations`. -/
  bufferedMutations : List Mutation
  /-- The mutations that have been written, in order. -/
  log : List Mutation

/-- The loop that sets the columns of a mutation. -/
def setColumns : List (Sigma fun _ : Utf16 => ByteIterator) → Except Throwable (List (Utf16 × Utf16))
  | [] => .ok []
  | e :: entries => do
    let (s, _) ← e.2.toString
    let columns ← setColumns entries
    .ok ((e.1, s) :: columns)

/-- The mutation that `insert` builds. -/
def buildMutation (table key : Utf16) (values : Values Utf16) : Except Throwable Mutation := do
  let columns ← setColumns values.entries
  .ok ⟨table, (primaryKeyColumn, key) :: columns⟩

namespace CloudSpannerClient

/-- The buffer is written, and cleared if that succeeds. -/
def write (reply : Reply) (c : CloudSpannerClient) : CloudSpannerClient where
  bufferedMutations :=
    match reply with
    | .written => []
    | .throws _ => c.bufferedMutations
  log := if reply.applies then c.log ++ c.bufferedMutations else c.log

@[simp] theorem log_write (reply : Reply) (c : CloudSpannerClient) :
    (c.write reply).log = if reply.applies then c.log ++ c.bufferedMutations else c.log := rfl

/-- `bufferedMutations.add(m)`. -/
def add (m : Mutation) (c : CloudSpannerClient) : CloudSpannerClient := { c with bufferedMutations := c.bufferedMutations ++ [m] }

/-- The buffer after `insert` has added to it, or not. -/
def buffer (batchInserts : ℤ) (c : CloudSpannerClient) (table key : Utf16) (values : Values Utf16) : Except Throwable CloudSpannerClient :=
  if c.bufferedMutations.length < batchInserts then (buildMutation table key values).map fun m => c.add m
  else .ok c  -- "Limit of cached mutations reached": it is ignored

/-- `insert(table, key, values)`. -/
def insert (batchInserts : ℤ) (reply : Reply) (c : CloudSpannerClient) (table key : Utf16) (values : Values Utf16) :
    Except Throwable (Status × CloudSpannerClient) := do
  let c ← c.buffer batchInserts table key values
  if c.bufferedMutations.length < batchInserts then .ok (.batchedOk, c)
  else
    match reply with
    | .written => .ok (.ok, c.write reply)
    | .throws _ => .ok (.error, c.write reply)

/-- `cleanup()`. -/
def cleanup (reply : Reply) (c : CloudSpannerClient) : CloudSpannerClient := if 0 < c.bufferedMutations.length then c.write reply else c

end CloudSpannerClient

/-! ### Sessions -/

/-- A call of the client, and what its write comes to, if there is one. -/
inductive Call where
  /-- `insert`. -/
  | insert (reply : Reply) (table key : Utf16) (values : Values Utf16)
  /-- `cleanup`. -/
  | cleanup (reply : Reply)

/-- An `insert` that has returned `OK` or `BATCHED_OK`. -/
structure Accepted where
  /-- Its mutation, if it can be built. -/
  mutation : Option Mutation
  /-- How many mutations had been written before the call. -/
  since : ℕ

/-- The client, and what has been accepted. -/
structure Session where
  /-- The client. -/
  client : CloudSpannerClient
  /-- The calls that have returned `OK` or `BATCHED_OK`. -/
  accepted : List Accepted

/-- A client after `init`. -/
def Session.init : Session := ⟨⟨[], []⟩, []⟩

/-- A call. One that throws leaves everything as it was. -/
def step (batchInserts : ℤ) (s : Session) : Call → Option Session
  | .insert reply table key values =>
    match s.client.insert batchInserts reply table key values with
    | .ok (status, client) =>
      let a : Accepted := ⟨(buildMutation table key values).toOption, s.client.log.length⟩
      some ⟨client, if status.isOk then s.accepted ++ [a] else s.accepted⟩
    | .error _ => some s
  | .cleanup reply => some { s with client := s.client.cleanup reply }

/-- Its mutation has been written, in the call or after it. -/
def Accepted.Written (log : List Mutation) (a : Accepted) : Prop := ∃ m, a.mutation = some m ∧ m ∈ log.drop a.since

/-- The calls are not such as lose a mutation: an `insert` that finds the buffer full and writes it is a retry of a mutation in it, and
`cleanup` writes what is in the buffer, unless all that has been accepted is written already. -/
def Keeps (batchInserts : ℤ) (s : Session) : Call → Prop
  | .insert reply table key values => batchInserts ≤ s.client.bufferedMutations.length → reply = .written →
      ∃ m ∈ s.client.bufferedMutations, buildMutation table key values = .ok m
  | .cleanup reply => reply.applies = true ∨ ∀ a ∈ s.accepted, a.Written s.client.log

/-! ### What a session keeps -/

/-- Its mutation has been written, or waits in the buffer. -/
def Accepted.Kept (c : CloudSpannerClient) (a : Accepted) : Prop :=
  a.since ≤ c.log.length ∧ ∃ m, a.mutation = some m ∧ (m ∈ c.log.drop a.since ∨ m ∈ c.bufferedMutations)

section

variable {batchInserts : ℤ} {c : CloudSpannerClient} {a : Accepted} {reply : Reply}

theorem Accepted.Kept.add (h : a.Kept c) (m : Mutation) : a.Kept (c.add m) := by
  obtain ⟨hle, m', hm', hwhere⟩ := h
  exact ⟨hle, m', hm', hwhere.imp_right (List.mem_append_left _)⟩

/-- What waits in a buffer that is written is written. -/
theorem Accepted.Kept.written (h : a.Kept c) (happlies : reply.applies = true) : a.Written (c.write reply).log := by
  obtain ⟨hle, m, hm, hwhere⟩ := h
  refine ⟨m, hm, ?_⟩
  rw [CloudSpannerClient.log_write, if_pos happlies, List.drop_append_of_le_length hle]
  exact List.mem_append.mpr hwhere

theorem Accepted.Written.write (h : a.Written c.log) (reply : Reply) : a.Written (c.write reply).log := by
  obtain ⟨m, hm, hlog⟩ := h
  refine ⟨m, hm, ?_⟩
  rw [CloudSpannerClient.log_write]
  split_ifs
  · rw [List.drop_append]
    exact List.mem_append_left _ hlog
  · exact hlog

theorem Accepted.Kept.write (h : a.Kept c) (reply : Reply) : a.Kept (c.write reply) := by
  have hle : a.since ≤ (c.write reply).log.length := by
    rw [CloudSpannerClient.log_write]
    split_ifs
    · rw [List.length_append]
      exact h.1.trans (Nat.le_add_right _ _)
    · exact h.1
  by_cases happlies : reply.applies = true
  · obtain ⟨m, hm, hlog⟩ := h.written happlies
    exact ⟨hle, m, hm, .inl hlog⟩
  · -- a write that is not carried out has thrown, so the buffer is still there
    obtain ⟨-, m, hm, hwhere⟩ := h
    cases reply with
    | written => exact absurd rfl happlies
    | throws applied =>
      refine ⟨hle, m, hm, ?_⟩
      rw [CloudSpannerClient.log_write, if_neg happlies]
      exact hwhere

/-- **What an `insert` does**: it keeps what has been accepted, and its own mutation if it is accepted. -/
theorem insert_kept {table key : Utf16} {values : Values Utf16} {st : Status} {c' : CloudSpannerClient}
    (hkeeps : batchInserts ≤ c.bufferedMutations.length → reply = .written → ∃ m ∈ c.bufferedMutations, buildMutation table key values = .ok m)
    (h : c.insert batchInserts reply table key values = .ok (st, c')) :
    (∀ a : Accepted, a.Kept c → a.Kept c') ∧
      (st.isOk = true → Accepted.Kept c' ⟨(buildMutation table key values).toOption, c.log.length⟩) := by
  obtain ⟨c₁, hbuffer, h⟩ := bind_inv h
  -- if the write is made, or the mutation was added, it is in the buffer
  have hbuffered : (∀ a : Accepted, a.Kept c → a.Kept c₁) ∧ ((c₁.bufferedMutations.length < batchInserts ∨ reply = .written) →
      Accepted.Kept c₁ ⟨(buildMutation table key values).toOption, c.log.length⟩) := by
    rw [CloudSpannerClient.buffer] at hbuffer
    split_ifs at hbuffer with hroom
    · obtain ⟨m, hm, rfl⟩ := map_inv hbuffer
      refine ⟨fun a ha => ha.add m, fun _ => ⟨le_refl _, m, by rw [hm]; rfl, .inr ?_⟩⟩
      exact List.mem_append_right _ List.mem_cons_self
    · cases hbuffer
      refine ⟨fun a ha => ha, fun hreply => ?_⟩
      obtain ⟨m, hm, hbuild⟩ := hkeeps (not_lt.mp hroom) (hreply.resolve_left hroom)
      exact ⟨le_refl _, m, by rw [hbuild]; rfl, .inr hm⟩
  split_ifs at h with hroom
  · cases h
    exact ⟨hbuffered.1, fun _ => hbuffered.2 (.inl hroom)⟩
  · cases reply with
    | written =>
      cases h
      exact ⟨fun a ha => (hbuffered.1 a ha).write _, fun _ => (hbuffered.2 (.inr rfl)).write _⟩
    | throws applied =>
      cases h
      exact ⟨fun a ha => (hbuffered.1 a ha).write _, fun hok => absurd hok (by decide)⟩

end

/-- A call keeps what has been accepted. -/
theorem kept_step {batchInserts : ℤ} {s s' : Session} {c : Call} (h : ∀ a ∈ s.accepted, a.Kept s.client) (hkeeps : Keeps batchInserts s c)
    (hstep : step batchInserts s c = some s') : ∀ a ∈ s'.accepted, a.Kept s'.client := by
  cases c with
  | insert reply table key values =>
    rw [step] at hstep
    split at hstep
    · next status client hinsert =>
      cases hstep
      obtain ⟨hold, hnew⟩ := insert_kept hkeeps hinsert
      split_ifs with hok
      · intro a ha
        rcases List.mem_append.mp ha with ha | ha
        · exact hold a (h a ha)
        · exact List.mem_singleton.mp ha ▸ hnew hok
      · exact fun a ha => hold a (h a ha)
    · cases hstep
      exact h
  | cleanup reply =>
    cases hstep
    intro a ha
    dsimp only
    rw [CloudSpannerClient.cleanup]
    split_ifs
    · exact (h a ha).write reply
    · exact h a ha

/-- After a `cleanup` that does not lose any, all that has been accepted is written. -/
theorem written_cleanup {batchInserts : ℤ} {s s' : Session} {reply : Reply} (h : ∀ a ∈ s.accepted, a.Kept s.client)
    (hkeeps : Keeps batchInserts s (.cleanup reply)) (hstep : step batchInserts s (.cleanup reply) = some s') :
    ∀ a ∈ s'.accepted, a.Written s'.client.log := by
  cases hstep
  intro a ha
  dsimp only
  rw [CloudSpannerClient.cleanup]
  split_ifs with hlen
  · rcases hkeeps with happlies | hall
    · exact (h a ha).written happlies
    · exact (hall a ha).write reply
  · obtain ⟨-, m, hm, hwhere⟩ := h a ha
    have hempty : s.client.bufferedMutations = [] := List.length_eq_zero_iff.mp (by omega)
    rw [hempty] at hwhere
    exact ⟨m, hm, hwhere.resolve_right List.not_mem_nil⟩

/-- **Of calls of `insert` and then `cleanup`, all of them such as keep what they are given**, every one that has returned `OK` or `BATCHED_OK`
has its mutation written, in that call or after it. -/
theorem written_of_meets {batchInserts : ℤ} {calls : List Call} {reply : Reply} {t : Session}
    (hkeeps : Meets (step batchInserts) (Keeps batchInserts) .init (calls ++ [.cleanup reply]))
    (h : exec (step batchInserts) .init (calls ++ [.cleanup reply]) = some t) : ∀ a ∈ t.accepted, a.Written t.client.log := by
  obtain ⟨s, hs, hlast⟩ := Option.bind_eq_some_iff.mp ((exec_append _ _ _).symm.trans h)
  obtain ⟨hcalls, hcleanup⟩ := meets_append_iff.mp hkeeps
  have hkept : ∀ a ∈ s.accepted, a.Kept s.client :=
    exec_invariant_of (I := fun s => ∀ a ∈ s.accepted, a.Kept s.client) (fun s c s' => kept_step) (fun _ ha => absurd ha List.not_mem_nil) hcalls hs
  obtain ⟨s', hs', hend⟩ := exec_cons hlast
  cases hend
  exact written_cleanup hkept (hcleanup s hs).1 hs'

/-- An `insert` that fails, and its retry. -/
theorem written_of_meets_retry :
    ∃ t, exec (step 1) .init ([.insert (.throws false) [0x74] [0x6B] ∅, .insert .written [0x74] [0x6B] ∅] ++ [.cleanup .written]) = some t ∧
      t.accepted ≠ [] ∧ ∀ a ∈ t.accepted, a.Written t.client.log := by
  obtain ⟨t, ht, hne⟩ : ∃ t, exec (step 1) .init
      ([.insert (.throws false) [0x74] [0x6B] ∅, .insert .written [0x74] [0x6B] ∅] ++ [.cleanup .written]) = some t ∧ t.accepted ≠ [] :=
    ⟨_, rfl, List.cons_ne_nil _ _⟩
  refine ⟨t, ht, hne, written_of_meets ?_ ht⟩
  refine ⟨fun hfull => absurd hfull (by decide), fun s₁ h₁ => ?_⟩
  cases h₁
  refine ⟨fun _ _ => ⟨_, List.mem_cons_self, rfl⟩, fun s₂ h₂ => ?_⟩
  cases h₂
  exact ⟨.inl rfl, fun _ _ => trivial⟩

/-- After an `insert` that fails the next one returns `OK`, and nothing of it is written. -/
theorem not_written :
    ¬ ∀ (batchInserts : ℤ) (calls : List Call) (reply : Reply) (t : Session), exec (step batchInserts) .init (calls ++ [.cleanup reply]) = some t →
      ∀ a ∈ t.accepted, a.Written t.client.log := by
  intro h
  obtain ⟨m, hm, hlog⟩ := h 1 [.insert (.throws false) [0x74] [0x61] ∅, .insert .written [0x74] [0x62] ∅] .written _ rfl _ List.mem_cons_self
  cases hm
  revert hlog
  decide

end YcsbIvs.CloudSpanner
