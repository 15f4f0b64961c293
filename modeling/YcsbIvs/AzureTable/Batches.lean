import YcsbIvs.Core.DB
import YcsbIvs.Foundations.Runs
import Mathlib.Data.Fintype.Basic
import Mathlib.Data.List.Perm.Basic

/-!
# The batch of the Azure Table binding

With a `batchsize` above one `AzureClient.insert` puts its operation in `BATCH_OPERATION` and counts it in `curIdx`. Whoever counts up to the batch size
has the batch executed, clears it, and sets the count back. Batch and count are static: all clients share them, and no lock is taken.
`cleanup` does nothing.

`insertBatch` is cut up into its steps, which the clients interleave: adding the operation, reading the count, writing it, executing the batch,
clearing it, and setting the count back. A batch is a transaction: if executing it fails nothing of it is executed. Operations are told apart by
the number of the call that made them; what has been added and executed and which calls have returned `OK` is kept beside the program (`added`, `executed`,
`succeeded`).

The batch gets too long if an operation is added while it is full, as after it has failed to execute. An operation is lost if it is added
after another client has executed the batch and before it has cleared it, or if it is left in the batch; it is executed twice if two clients execute one
batch. **If none of these happens each insert that returns `OK` is executed exactly once** (`executedOnce_of_run`).
-/

namespace YcsbIvs.AzureTable

open YcsbIvs.Foundations YcsbIvs.Core

/-! ### Operations -/

/-- `DynamicTableEntity`. -/
structure Entity where
  /-- The key of the partition. -/
  partitionKey : Utf16
  /-- The key of the row. -/
  rowKey : Utf16
  /-- The properties. -/
  properties : AList fun _ : Utf16 => Bytes
  deriving DecidableEq

/-- An `insertOrReplace` in a batch. -/
structure Operation where
  /-- The number of the call that made it. -/
  call : ℕ
  /-- The entity. -/
  entity : Entity
  deriving DecidableEq

/-- The loop over the entries: `properties.put(fieldName, new EntityProperty(entry.getValue().toArray()))`. -/
def putProperties : List (Sigma fun _ : Utf16 => ByteIterator) → (AList fun _ : Utf16 => Bytes) → Except Throwable (AList fun _ : Utf16 => Bytes)
  | [], properties => .ok properties
  | ⟨fieldName, it⟩ :: entries, properties =>
    match it.toArray with
    | .error e => .error e
    | .ok (fieldVal, _) => putProperties entries (properties.insert fieldName fieldVal)

/-! ### Clients -/

/-- Where a client is in `insertBatch`. -/
inductive Position where
  /-- It is not in a call. -/
  | idle
  /-- It has made its operation. -/
  | adding (op : Operation)
  /-- It has added it. -/
  | counting (op : Operation)
  /-- It has read this count. -/
  | counted (op : Operation) (value : ℤ)
  /-- It has counted up to the batch size. -/
  | executing (op : Operation)
  /-- It has executed the batch. -/
  | clearing (op : Operation)
  /-- It has cleared it. -/
  | resetting (op : Operation)
  /-- It has been cleaned up. -/
  | closed

/-- The operation a client has added, and is not done with. -/
def Position.past : Position → Option Operation
  | counting op | counted op _ | executing op | clearing op | resetting op => some op
  | idle | adding _ | closed => none

/-- Whether a client has executed the batch, and not cleared it. -/
def Position.isClearing : Position → Bool
  | clearing _ => true
  | _ => false

/-- Whether it has been cleaned up. -/
def Position.isClosed : Position → Bool
  | closed => true
  | _ => false

theorem Position.isClosed_iff (p : Position) : p.isClosed = true ↔ p = closed := by
  cases p <;> simp [isClosed]

/-- The settings. -/
structure Config where
  /-- `batchSize`. -/
  batchSize : ℤ
  /-- `partitionKey`. -/
  partitionKey : Utf16

/-- The clients, and what they share. -/
structure AzureClients (ι : Type) where
  /-- `BATCH_OPERATION`. -/
  batchOperation : List Operation
  /-- `curIdx`. -/
  curIdx : ℤ
  /-- Where each client is. -/
  clients : ι → Position
  /-- How many operations have been made. -/
  calls : ℕ
  /-- The operations that have been added. -/
  added : List Operation
  /-- The operations that have been executed, each as many times as it has been. -/
  executed : List Operation
  /-- The operations of the calls that have returned `OK`. -/
  succeeded : List Operation

/-- The steps. -/
inductive Label (ι : Type) where
  /-- A call of `insertBatch`, up to where the operation has been made. -/
  | insertBatch (i : ι) (key : Utf16) (values : Values Utf16)
  /-- `BATCH_OPERATION.insertOrReplace(entity)`. -/
  | add (i : ι)
  /-- Reading `curIdx`. -/
  | readIdx (i : ι)
  /-- Writing `++curIdx`, and comparing it. -/
  | writeIdx (i : ι)
  /-- `cloudTable.execute(BATCH_OPERATION)`, and whether it succeeds. -/
  | execute (i : ι) (succeeds : Bool)
  /-- `BATCH_OPERATION.clear()`. -/
  | clear (i : ι)
  /-- `curIdx = 0`. -/
  | reset (i : ι)
  /-- `cleanup()`. -/
  | cleanup (i : ι)

namespace AzureClients

variable {ι : Type}

/-- Nobody has begun. -/
def initial (ι : Type) : AzureClients ι := ⟨[], 0, fun _ => .idle, 0, [], [], []⟩

section Step

variable [DecidableEq ι]

/-- Client `i` gets to `p`. -/
def goto (s : AzureClients ι) (i : ι) (p : Position) : AzureClients ι := { s with clients := Function.update s.clients i p }

/-- One step; `none` if the client is elsewhere. -/
def step (cfg : Config) (s : AzureClients ι) : Label ι → Option (AzureClients ι)
  | .insertBatch i key values =>
    match s.clients i with
    | .idle =>
      match putProperties values.entries ∅ with
      | .error _ => some s
      | .ok properties => some { s.goto i (.adding ⟨s.calls, cfg.partitionKey, key, properties⟩) with calls := s.calls + 1 }
    | _ => none
  | .add i =>
    match s.clients i with
    | .adding op => some { s.goto i (.counting op) with batchOperation := s.batchOperation ++ [op], added := s.added ++ [op] }
    | _ => none
  | .readIdx i =>
    match s.clients i with
    | .counting op => some (s.goto i (.counted op s.curIdx))
    | _ => none
  | .writeIdx i =>
    match s.clients i with
    | .counted op value =>
      if asInt (value + 1) = cfg.batchSize then some { s.goto i (.executing op) with curIdx := asInt (value + 1) }
      else some { s.goto i .idle with curIdx := asInt (value + 1), succeeded := s.succeeded ++ [op] }
    | _ => none
  | .execute i succeeds =>
    match s.clients i with
    | .executing op =>
      if succeeds then some { s.goto i (.clearing op) with executed := s.executed ++ s.batchOperation }
      -- neither the batch nor the count is touched
      else some (s.goto i .idle)
    | _ => none
  | .clear i =>
    match s.clients i with
    | .clearing op => some { s.goto i (.resetting op) with batchOperation := [] }
    | _ => none
  | .reset i =>
    match s.clients i with
    | .resetting op => some { s.goto i .idle with curIdx := 0, succeeded := s.succeeded ++ [op] }
    | _ => none
  | .cleanup i =>
    match s.clients i with
    | .idle => some (s.goto i .closed)
    | _ => none

/-- What a step does. -/
inductive Moves (cfg : Config) (s : AzureClients ι) : Label ι → AzureClients ι → Prop where
  | throws {i : ι} {key : Utf16} {values : Values Utf16} : s.clients i = .idle → Moves cfg s (.insertBatch i key values) s
  | insertBatch {i : ι} {key : Utf16} {values : Values Utf16} (entity : Entity) : s.clients i = .idle →
      Moves cfg s (.insertBatch i key values) { s.goto i (.adding ⟨s.calls, entity⟩) with calls := s.calls + 1 }
  | add {i : ι} {op : Operation} : s.clients i = .adding op →
      Moves cfg s (.add i) { s.goto i (.counting op) with batchOperation := s.batchOperation ++ [op], added := s.added ++ [op] }
  | readIdx {i : ι} {op : Operation} : s.clients i = .counting op → Moves cfg s (.readIdx i) (s.goto i (.counted op s.curIdx))
  | fill {i : ι} {op : Operation} (curIdx : ℤ) {value : ℤ} : s.clients i = .counted op value →
      Moves cfg s (.writeIdx i) { s.goto i (.executing op) with curIdx := curIdx }
  | writeIdx {i : ι} {op : Operation} (curIdx : ℤ) {value : ℤ} : s.clients i = .counted op value →
      Moves cfg s (.writeIdx i) { s.goto i .idle with curIdx := curIdx, succeeded := s.succeeded ++ [op] }
  | execute {i : ι} {op : Operation} : s.clients i = .executing op →
      Moves cfg s (.execute i true) { s.goto i (.clearing op) with executed := s.executed ++ s.batchOperation }
  | fail {i : ι} {op : Operation} : s.clients i = .executing op → Moves cfg s (.execute i false) (s.goto i .idle)
  | clear {i : ι} {op : Operation} : s.clients i = .clearing op →
      Moves cfg s (.clear i) { s.goto i (.resetting op) with batchOperation := [] }
  | reset {i : ι} {op : Operation} : s.clients i = .resetting op →
      Moves cfg s (.reset i) { s.goto i .idle with curIdx := 0, succeeded := s.succeeded ++ [op] }
  | cleanup {i : ι} : s.clients i = .idle → Moves cfg s (.cleanup i) (s.goto i .closed)

theorem step_moves {cfg : Config} {s s' : AzureClients ι} {l : Label ι} (h : step cfg s l = some s') : Moves cfg s l s' := by
  cases l with
  | insertBatch i key values =>
    rw [step] at h
    cases hi : s.clients i <;> simp only [hi, reduceCtorEq] at h
    cases hp : putProperties values.entries ∅ with
    | error e =>
      rw [hp] at h
      cases h
      exact .throws hi
    | ok properties =>
      rw [hp] at h
      cases h
      exact .insertBatch _ hi
  | add i =>
    rw [step] at h
    cases hi : s.clients i <;> simp only [hi, reduceCtorEq] at h
    cases h
    exact .add hi
  | readIdx i =>
    rw [step] at h
    cases hi : s.clients i <;> simp only [hi, reduceCtorEq] at h
    cases h
    exact .readIdx hi
  | writeIdx i =>
    rw [step] at h
    cases hi : s.clients i <;> simp only [hi, reduceCtorEq] at h
    split_ifs at h <;> cases h
    · exact .fill _ hi
    · exact .writeIdx _ hi
  | execute i succeeds =>
    rw [step] at h
    cases hi : s.clients i <;> simp only [hi, reduceCtorEq] at h
    cases succeeds <;> cases h
    · exact .fail hi
    · exact .execute hi
  | clear i =>
    rw [step] at h
    cases hi : s.clients i <;> simp only [hi, reduceCtorEq] at h
    cases h
    exact .clear hi
  | reset i =>
    rw [step] at h
    cases hi : s.clients i <;> simp only [hi, reduceCtorEq] at h
    cases h
    exact .reset hi
  | cleanup i =>
    rw [step] at h
    cases hi : s.clients i <;> simp only [hi, reduceCtorEq] at h
    cases h
    exact .cleanup hi

/-! ### What holds of the clients -/

theorem clients_goto (s : AzureClients ι) (i j : ι) (p : Position) : (s.goto i p).clients j = if j = i then p else s.clients j :=
  Function.update_apply _ _ _ _

/-- The operations have been told apart, and each client is at one of its own. -/
structure Numbered (s : AzureClients ι) : Prop where
  /-- What has been added has been made. -/
  made : ∀ op ∈ s.added, op.call < s.calls
  /-- It has been added once. -/
  nodup : (s.added.map Operation.call).Nodup
  /-- What is going to be added has been made, and not been added. -/
  fresh : ∀ i op, s.clients i = .adding op → op.call < s.calls ∧ op.call ∉ s.added.map Operation.call
  /-- No two clients are going to add the same. -/
  apart : ∀ i j op op', s.clients i = .adding op → s.clients j = .adding op' → op.call = op'.call → i = j
  /-- What a client has added has been added. -/
  past : ∀ i op, (s.clients i).past = some op → op ∈ s.added

/-- A client that does not begin a call. -/
theorem Numbered.goto {s : AzureClients ι} (h : Numbered s) (i : ι) {p : Position} (hadding : ∀ op, p ≠ .adding op)
    (hpast : ∀ op, p.past = some op → op ∈ s.added) : Numbered (s.goto i p) := by
  refine ⟨h.made, h.nodup, fun j op hj => ?_, fun j k op op' hj hk => ?_, fun j op hj => ?_⟩
  · rw [clients_goto] at hj
    split_ifs at hj
    · exact absurd hj (hadding op)
    · exact h.fresh j op hj
  · rw [clients_goto] at hj hk
    split_ifs at hj
    · exact absurd hj (hadding op)
    · split_ifs at hk
      · exact absurd hk (hadding op')
      · exact h.apart j k op op' hj hk
  · rw [clients_goto] at hj
    split_ifs at hj
    · exact hpast op hj
    · exact h.past j op hj

/-- A client that makes an operation. -/
theorem Numbered.insertBatch {s : AzureClients ι} (h : Numbered s) (i : ι) (entity : Entity) :
    Numbered { s.goto i (.adding ⟨s.calls, entity⟩) with calls := s.calls + 1 } := by
  have hless : ∀ j op, s.clients j = .adding op → op.call < s.calls := fun j op hj => (h.fresh j op hj).1
  have hold : s.calls ∉ s.added.map Operation.call := by
    intro hmem
    obtain ⟨op, hop, heq⟩ := List.mem_map.mp hmem
    exact absurd (h.made op hop) (by omega)
  refine ⟨fun op hop => Nat.lt_succ_of_lt (h.made op hop), h.nodup, fun j op hj => ?_, fun j k op op' hj hk heq => ?_, fun j op hj => ?_⟩
  · rw [clients_goto] at hj
    split_ifs at hj
    · cases hj
      exact ⟨Nat.lt_succ_self _, hold⟩
    · exact ⟨Nat.lt_succ_of_lt (hless j op hj), (h.fresh j op hj).2⟩
  · rw [clients_goto] at hj hk
    split_ifs at hj hk with hji hki hki
    · rw [hji, hki]
    · cases hj
      exact absurd (hless k op' hk) (Nat.not_lt_of_le (Nat.le_of_eq heq))
    · cases hk
      exact absurd (hless j op hj) (Nat.not_lt_of_le (Nat.le_of_eq heq.symm))
    · exact h.apart j k op op' hj hk heq
  · rw [clients_goto] at hj
    split_ifs at hj
    · cases hj
    · exact h.past j op hj

/-- A client that adds its operation. -/
theorem Numbered.add {s : AzureClients ι} (h : Numbered s) {i : ι} {op : Operation} (hi : s.clients i = .adding op) (batch : List Operation) :
    Numbered { s.goto i (.counting op) with batchOperation := batch, added := s.added ++ [op] } := by
  obtain ⟨hmade, hnew⟩ := h.fresh i op hi
  refine ⟨fun o ho => ?_, ?_, fun j o hj => ?_, fun j k o o' hj hk heq => ?_, fun j o hj => ?_⟩
  · rcases List.mem_append.mp ho with ho | ho
    · exact h.made o ho
    · rw [List.mem_singleton.mp ho]
      exact hmade
  · rw [List.map_append, List.map_singleton]
    exact List.nodup_append_comm.mp (List.nodup_cons.mpr ⟨hnew, h.nodup⟩)
  · rw [clients_goto] at hj
    split_ifs at hj with hji
    obtain ⟨hmade', hnew'⟩ := h.fresh j o hj
    refine ⟨hmade', fun hmem => ?_⟩
    rw [List.map_append, List.map_singleton, List.mem_append, List.mem_singleton] at hmem
    rcases hmem with hmem | heq
    · exact hnew' hmem
    · exact hji (h.apart j i o op hj hi heq)
  · rw [clients_goto] at hj hk
    split_ifs at hj
    split_ifs at hk
    exact h.apart j k o o' hj hk heq
  · rw [clients_goto] at hj
    split_ifs at hj
    · cases hj
      exact List.mem_append_right _ (List.mem_singleton.mpr rfl)
    · exact List.mem_append_left _ (h.past j o hj)

/-! ### What holds of the batch -/

/-- A client has executed the batch, and not cleared it. -/
def Clearing (s : AzureClients ι) : Prop := ∃ i op, s.clients i = .clearing op

/-- The batch is not too long; what has been added has been executed once or is in the batch, and if a client has executed the batch all
has been executed. -/
structure BatchSound (cfg : Config) (s : AzureClients ι) : Prop where
  /-- The batch is not too long. -/
  small : (s.batchOperation.length : ℤ) ≤ cfg.batchSize
  /-- One client clears the batch. -/
  alone : ∀ i j op op', s.clients i = .clearing op → s.clients j = .clearing op' → i = j
  /-- What is in the batch has not been executed. -/
  pending : ¬ s.Clearing → s.added.Perm (s.executed ++ s.batchOperation)
  /-- It all has been. -/
  done : s.Clearing → s.added.Perm s.executed

/-- Where a client goes that does not touch the batch. -/
theorem clearing_goto {s : AzureClients ι} {i : ι} {p : Position} (hi : ∀ op, s.clients i ≠ .clearing op) (hp : ∀ op, p ≠ .clearing op) (j : ι)
    (op : Operation) : (s.goto i p).clients j = .clearing op ↔ s.clients j = .clearing op := by
  rw [clients_goto]
  split_ifs with hji
  · rw [hji]
    exact iff_of_false (hp op) (hi op)
  · rfl

theorem BatchSound.goto {cfg : Config} {s : AzureClients ι} (h : BatchSound cfg s) {i : ι} {p : Position} (hi : ∀ op, s.clients i ≠ .clearing op)
    (hp : ∀ op, p ≠ .clearing op) : BatchSound cfg (s.goto i p) := by
  have hclearing : (s.goto i p).Clearing ↔ s.Clearing := exists_congr fun j => exists_congr fun op => clearing_goto hi hp j op
  refine ⟨h.small, fun j k op op' hj hk => ?_, fun hno => h.pending (hclearing.not.mp hno), fun hc => h.done (hclearing.mp hc)⟩
  exact h.alone j k op op' ((clearing_goto hi hp j op).mp hj) ((clearing_goto hi hp k op').mp hk)

theorem BatchSound.add {cfg : Config} {s : AzureClients ι} (h : BatchSound cfg s) {i : ι} {op : Operation} (hi : s.clients i = .adding op)
    (hroom : (s.batchOperation.length : ℤ) < cfg.batchSize) (hno : ¬ s.Clearing) :
    BatchSound cfg { s.goto i (.counting op) with batchOperation := s.batchOperation ++ [op], added := s.added ++ [op] } := by
  have hclearing : ∀ j o, (s.goto i (.counting op)).clients j = .clearing o ↔ s.clients j = .clearing o :=
    clearing_goto (by rw [hi]; exact fun _ => Position.noConfusion) fun _ => Position.noConfusion
  refine ⟨?_, fun j k o o' hj hk => ?_, fun _ => ?_, fun hc => ?_⟩
  · show ((s.batchOperation ++ [op]).length : ℤ) ≤ cfg.batchSize
    rw [List.length_append, List.length_singleton]
    omega
  · exact h.alone j k o o' ((hclearing j o).mp hj) ((hclearing k o').mp hk)
  · show (s.added ++ [op]).Perm (s.executed ++ (s.batchOperation ++ [op]))
    rw [← List.append_assoc]
    exact (h.pending hno).append_right [op]
  · obtain ⟨j, o, hj⟩ := hc
    exact absurd ⟨j, o, (hclearing j o).mp hj⟩ hno

theorem BatchSound.execute {cfg : Config} {s : AzureClients ι} (h : BatchSound cfg s) (hno : ¬ s.Clearing) (i : ι) (op : Operation) :
    BatchSound cfg { s.goto i (.clearing op) with executed := s.executed ++ s.batchOperation } := by
  have honly : ∀ j o, (s.goto i (.clearing op)).clients j = .clearing o → j = i := by
    intro j o hj
    rw [clients_goto] at hj
    split_ifs at hj with hji
    · exact hji
    · exact absurd ⟨j, o, hj⟩ hno
  refine ⟨h.small, fun j k o o' hj hk => (honly j o hj).trans (honly k o' hk).symm, fun hc => ?_, fun _ => h.pending hno⟩
  exact absurd ⟨i, op, (clients_goto s i i _).trans (if_pos rfl)⟩ hc

theorem BatchSound.clear {cfg : Config} {s : AzureClients ι} (h : BatchSound cfg s) {i : ι} {op : Operation} (hi : s.clients i = .clearing op) :
    BatchSound cfg { s.goto i (.resetting op) with batchOperation := [] } := by
  have hnone : ∀ j o, (s.goto i (.resetting op)).clients j ≠ .clearing o := by
    intro j o hj
    rw [clients_goto] at hj
    split_ifs at hj with hji
    exact hji (h.alone j i o op hj hi)
  refine ⟨?_, fun j k o o' hj => absurd hj (hnone j o), fun _ => ?_, fun ⟨j, o, hj⟩ => absurd hj (hnone j o)⟩
  · have := h.small
    show (([] : List Operation).length : ℤ) ≤ cfg.batchSize
    rw [List.length_nil]
    omega
  · show s.added.Perm (s.executed ++ [])
    rw [List.append_nil]
    exact h.done ⟨i, op, hi⟩

/-! ### Runs -/

/-- The condition on the steps. -/
def Orderly (cfg : Config) (s : AzureClients ι) : Label ι → Prop
  | .add _ => (s.batchOperation.length : ℤ) < cfg.batchSize ∧ ¬ s.Clearing
  | .execute _ succeeds => succeeds = true → ¬ s.Clearing
  | .cleanup i => (∀ j, j ≠ i → s.clients j = .closed) → ∀ op ∈ s.batchOperation, op ∉ s.succeeded
  | _ => True

omit [DecidableEq ι] in
theorem clearing_iff (s : AzureClients ι) : s.Clearing ↔ ∃ i, (s.clients i).isClearing = true := by
  refine exists_congr fun i => ⟨fun ⟨op, hi⟩ => hi ▸ rfl, fun hi => ?_⟩
  cases hc : s.clients i with
  | clearing op => exact ⟨op, rfl⟩
  | _ =>
    rw [hc] at hi
    cases hi

instance decidableOrderly [Fintype ι] (cfg : Config) (s : AzureClients ι) : (l : Label ι) → Decidable (Orderly cfg s l)
  | .add _ => decidable_of_iff (_ ∧ ¬ ∃ i, (s.clients i).isClearing = true) (and_congr_right fun _ => s.clearing_iff.not.symm)
  | .execute _ succeeds => decidable_of_iff (succeeds = true → ¬ ∃ i, (s.clients i).isClearing = true)
      (imp_congr_right fun _ => s.clearing_iff.not.symm)
  | .cleanup i => decidable_of_iff ((∀ j, j ≠ i → (s.clients j).isClosed = true) → ∀ op ∈ s.batchOperation, op ∉ s.succeeded)
      (imp_congr_left (forall_congr' fun _ => imp_congr_right fun _ => Position.isClosed_iff _))
  | .insertBatch _ _ _ | .readIdx _ | .writeIdx _ | .clear _ | .reset _ => .isTrue trivial

/-- **The invariant.** -/
structure Sound (cfg : Config) (s : AzureClients ι) : Prop where
  /-- The operations are told apart. -/
  numbered : Numbered s
  /-- The batch is in order. -/
  batch : BatchSound cfg s
  /-- What has succeeded has been added. -/
  succeeded : ∀ op ∈ s.succeeded, op ∈ s.added
  /-- When all clients have been cleaned up nothing that has succeeded is left in the batch. -/
  closed : (∀ i, s.clients i = .closed) → ∀ op ∈ s.batchOperation, op ∉ s.succeeded

/-- A client that has not been cleaned up. -/
theorem not_all_closed {s : AzureClients ι} (i : ι) {p : Position} (hp : p ≠ .closed) : ¬ ∀ j, (s.goto i p).clients j = .closed := by
  intro hall
  have hi := hall i
  rw [clients_goto, if_pos rfl] at hi
  exact hp hi

omit [DecidableEq ι] in
theorem succeeded_append {s : AzureClients ι} (h : ∀ op ∈ s.succeeded, op ∈ s.added) {op : Operation} (hop : op ∈ s.added) :
    ∀ o ∈ s.succeeded ++ [op], o ∈ s.added := by
  intro o ho
  rcases List.mem_append.mp ho with ho | ho
  · exact h o ho
  · rwa [List.mem_singleton.mp ho]

/-- A client that goes on, and touches at most the count. -/
theorem Sound.goto {cfg : Config} {s : AzureClients ι} (h : Sound cfg s) {i : ι} {p : Position} (hi : ∀ op, s.clients i ≠ .clearing op)
    (hp : ∀ op, p ≠ .clearing op ∧ p ≠ .adding op) (hopen : p ≠ .closed) (hpast : ∀ op, p.past = some op → op ∈ s.added) (curIdx : ℤ)
    {succeeded : List Operation} (hsucc : ∀ op ∈ succeeded, op ∈ s.added) :
    Sound cfg { s.goto i p with curIdx := curIdx, succeeded := succeeded } := by
  have hnum := h.numbered.goto i (fun op => (hp op).2) hpast
  have hbatch := h.batch.goto hi fun op => (hp op).1
  exact ⟨⟨hnum.made, hnum.nodup, hnum.fresh, hnum.apart, hnum.past⟩, ⟨hbatch.small, hbatch.alone, hbatch.pending, hbatch.done⟩, hsucc,
    fun hall => absurd hall (not_all_closed i hopen)⟩

/-- **A step that meets the condition keeps the invariant.** -/
theorem Sound.step {cfg : Config} {s s' : AzureClients ι} {l : Label ι} (h : Sound cfg s) (hl : Orderly cfg s l)
    (hs : step cfg s l = some s') : Sound cfg s' := by
  have hpast : ∀ i p op, s.clients i = p → p.past = some op → op ∈ s.added := fun i p op hi hop => h.numbered.past i op (hi ▸ hop)
  have hidle : ∀ op, Position.idle.past = some op → op ∈ s.added := fun op hop => by cases hop
  have hother : ∀ i p, s.clients i = p → (∀ op, p ≠ .clearing op) → ∀ op, s.clients i ≠ .clearing op := fun i p hi hp op => hi ▸ hp op
  cases step_moves hs with
  | throws hi => exact h
  | insertBatch entity hi =>
    have hbatch := h.batch.goto (p := .adding ⟨s.calls, entity⟩) (hother _ _ hi fun _ => Position.noConfusion) fun _ => Position.noConfusion
    exact ⟨h.numbered.insertBatch _ entity, ⟨hbatch.small, hbatch.alone, hbatch.pending, hbatch.done⟩, h.succeeded,
      fun hall => absurd hall (not_all_closed _ Position.noConfusion)⟩
  | add hi =>
    exact ⟨h.numbered.add hi _, h.batch.add hi hl.1 hl.2, fun o ho => List.mem_append_left _ (h.succeeded o ho),
      fun hall => absurd hall (not_all_closed _ Position.noConfusion)⟩
  | @readIdx i op hi =>
    exact h.goto (p := .counted op s.curIdx) (hother _ _ hi fun _ => Position.noConfusion) (fun _ => ⟨Position.noConfusion, Position.noConfusion⟩)
      Position.noConfusion (fun o ho => hpast _ _ o hi ho) s.curIdx h.succeeded
  | @fill i op curIdx value hi =>
    exact h.goto (p := .executing op) (hother _ _ hi fun _ => Position.noConfusion) (fun _ => ⟨Position.noConfusion, Position.noConfusion⟩)
      Position.noConfusion (fun o ho => hpast _ _ o hi ho) curIdx h.succeeded
  | writeIdx curIdx hi =>
    exact h.goto (hother _ _ hi fun _ => Position.noConfusion) (fun _ => ⟨Position.noConfusion, Position.noConfusion⟩)
      Position.noConfusion hidle curIdx (succeeded_append h.succeeded (hpast _ _ _ hi rfl))
  | @execute i op hi =>
    have hbatch := h.batch.execute (hl rfl) i op
    have hnum := h.numbered.goto i (p := .clearing op) (fun _ => Position.noConfusion) fun o ho => hpast _ _ o hi ho
    exact ⟨⟨hnum.made, hnum.nodup, hnum.fresh, hnum.apart, hnum.past⟩, hbatch, h.succeeded,
      fun hall => absurd hall (not_all_closed _ Position.noConfusion)⟩
  | @fail i op hi =>
    exact h.goto (p := .idle) (hother _ _ hi fun _ => Position.noConfusion) (fun _ => ⟨Position.noConfusion, Position.noConfusion⟩)
      Position.noConfusion hidle s.curIdx h.succeeded
  | @clear i op hi =>
    have hnum := h.numbered.goto i (p := .resetting op) (fun _ => Position.noConfusion) fun o ho => hpast _ _ o hi ho
    exact ⟨⟨hnum.made, hnum.nodup, hnum.fresh, hnum.apart, hnum.past⟩, h.batch.clear hi, h.succeeded,
      fun hall => absurd hall (not_all_closed _ Position.noConfusion)⟩
  | reset hi =>
    exact h.goto (hother _ _ hi fun _ => Position.noConfusion) (fun _ => ⟨Position.noConfusion, Position.noConfusion⟩)
      Position.noConfusion hidle 0 (succeeded_append h.succeeded (hpast _ _ _ hi rfl))
  | @cleanup i hi =>
    refine ⟨h.numbered.goto i (fun _ => Position.noConfusion) fun op hop => (by cases hop),
      h.batch.goto (hother _ _ hi fun _ => Position.noConfusion) fun _ => Position.noConfusion, h.succeeded, fun hall => ?_⟩
    refine hl fun j hj => ?_
    have hclosed := hall j
    rwa [clients_goto, if_neg hj] at hclosed

omit [DecidableEq ι] in
theorem sound_initial {cfg : Config} (hb : 0 ≤ cfg.batchSize) : Sound cfg (initial ι) := by
  have hno : ¬ (initial ι).Clearing := fun ⟨i, op, hi⟩ => Position.noConfusion hi
  refine ⟨⟨fun op hop => absurd hop List.not_mem_nil, List.nodup_nil, fun i op hi => Position.noConfusion hi,
    fun i j op op' hi => Position.noConfusion hi, fun i op hi => (by cases hi)⟩,
    ⟨hb, fun i j op op' hi => Position.noConfusion hi, fun _ => List.Perm.refl [], fun hc => absurd hc hno⟩,
    fun op hop => absurd hop List.not_mem_nil, fun _ op hop => absurd hop List.not_mem_nil⟩

/-! ### Each once -/

/-- What has been added is there once. -/
theorem filter_call {ops : List Operation} (h : (ops.map Operation.call).Nodup) {op : Operation} (hop : op ∈ ops) :
    (ops.filter fun o => o.call = op.call) = [op] := by
  have hall : ∀ o ∈ ops.filter (fun o => o.call = op.call), o = op := by
    intro o ho
    obtain ⟨ho, heq⟩ := List.mem_filter.mp ho
    exact List.inj_on_of_nodup_map h ho hop (of_decide_eq_true heq)
  have hmem : op ∈ ops.filter (fun o => o.call = op.call) := List.mem_filter.mpr ⟨hop, decide_eq_true rfl⟩
  have hnodup : (ops.filter fun o => o.call = op.call).Nodup := h.of_map.filter _
  refine List.perm_singleton.mp ((List.perm_ext_iff_of_nodup hnodup (List.nodup_singleton op)).mpr fun o => ?_)
  rw [List.mem_singleton]
  exact ⟨hall o, fun ho => ho ▸ hmem⟩

/-- The batch is not too long, and when all clients have been cleaned up each insert that has returned `OK` has been executed exactly once. -/
structure ExecutedOnce (cfg : Config) (s : AzureClients ι) : Prop where
  /-- The batch is not too long. -/
  small : (s.batchOperation.length : ℤ) ≤ cfg.batchSize
  /-- An insert that has returned `OK` has been executed once. -/
  once : (∀ i, s.clients i = .closed) → ∀ op ∈ s.succeeded, (s.executed.filter fun o => o.call = op.call) = [op]

omit [DecidableEq ι] in
theorem Sound.executedOnce {cfg : Config} {s : AzureClients ι} (h : Sound cfg s) : ExecutedOnce cfg s := by
  refine ⟨h.batch.small, fun hclosed op hop => ?_⟩
  have hno : ¬ s.Clearing := fun ⟨i, op, hi⟩ => Position.noConfusion ((hclosed i).symm.trans hi)
  have hperm := h.batch.pending hno
  have hadded := h.succeeded op hop
  have hleft : (s.batchOperation.filter fun o => o.call = op.call) = [] := by
    refine List.filter_eq_nil_iff.mpr fun o ho heq => ?_
    have hsame := List.inj_on_of_nodup_map h.numbered.nodup (hperm.mem_iff.mpr (List.mem_append_right _ ho)) hadded (of_decide_eq_true heq)
    exact h.closed hclosed o ho (hsame ▸ hop)
  have hfilter := hperm.filter fun o => decide (o.call = op.call)
  rw [filter_call h.numbered.nodup hadded, List.filter_append, hleft, List.append_nil] at hfilter
  exact List.perm_singleton.mp hfilter.symm

/-- **Inserts that return `OK` are executed exactly once**, in every run in which an operation is added only to a batch that is not full and not about to
be cleared, no batch is executed again before it is cleared, and nothing is left in the batch by the last `cleanup`. -/
theorem executedOnce_of_run {cfg : Config} (hb : 2 ≤ cfg.batchSize) {ls : List (Label ι)}
    (hls : Meets (AzureClients.step cfg) (Orderly cfg) (initial ι) ls) {s : AzureClients ι}
    (h : exec (AzureClients.step cfg) (initial ι) ls = some s) : ExecutedOnce cfg s :=
  (exec_invariant_of (fun _ _ _ hI hl hs => hI.step hl hs) (sound_initial (by omega)) hls h).executedOnce

/-- One client, batches of two, and two inserts. -/
theorem executedOnce_of_run_two : ∃ s, exec (AzureClients.step ⟨2, []⟩) (initial Unit)
      [.insertBatch () [0] ∅, .add (), .readIdx (), .writeIdx (), .insertBatch () [1] ∅, .add (), .readIdx (), .writeIdx (), .execute () true, .clear (),
        .reset (), .cleanup ()] = some s ∧ s.succeeded.length = 2 ∧ ExecutedOnce ⟨2, []⟩ s :=
  have hls : Meets (AzureClients.step ⟨2, []⟩) (Orderly ⟨2, []⟩) (initial Unit)
      [.insertBatch () [0] ∅, .add (), .readIdx (), .writeIdx (), .insertBatch () [1] ∅, .add (), .readIdx (), .writeIdx (), .execute () true, .clear (),
        .reset (), .cleanup ()] := by decide +kernel
  ⟨_, rfl, rfl, executedOnce_of_run (by decide) hls rfl⟩

/-- **An operation that is left in the batch is lost**: one insert, and `cleanup`. After a batch of two has failed, a third insert makes it too long. -/
theorem not_executedOnce :
    (∃ s, exec (AzureClients.step ⟨2, []⟩) (initial Unit) [.insertBatch () [0] ∅, .add (), .readIdx (), .writeIdx (), .cleanup ()] = some s ∧
      s.succeeded.length = 1 ∧ s.executed = [] ∧ ¬ ExecutedOnce ⟨2, []⟩ s) ∧
    ∃ s, exec (AzureClients.step ⟨2, []⟩) (initial Unit)
      [.insertBatch () [0] ∅, .add (), .readIdx (), .writeIdx (), .insertBatch () [1] ∅, .add (), .readIdx (), .writeIdx (), .execute () false,
        .insertBatch () [2] ∅, .add ()] = some s ∧ s.batchOperation.length = 3 ∧ ¬ ExecutedOnce ⟨2, []⟩ s := by
  refine ⟨⟨_, rfl, rfl, rfl, fun h => ?_⟩, _, rfl, rfl, fun h => absurd h.small (by decide)⟩
  have hlost := h.once (fun _ => rfl) _ List.mem_cons_self
  cases hlost

end Step

end AzureClients

end YcsbIvs.AzureTable
