import YcsbIvs.Core.DB
import YcsbIvs.Foundations.Runs
import YcsbIvs.Foundations.Utf
import Mathlib.Data.List.Nodup

/-!
# The HBase binding's buffers

With `clientbuffering` `HBaseClient1.update`, `insert` and `delete` hand their mutation to `bufferedMutator`, which is for one table. It keeps
mutations in a buffer, and flushes them when there are enough; `close()` flushes what is left, and `cleanup` closes it. A call for a table other
than the last one first makes a new `bufferedMutator`. It neither flushes nor closes the one it replaces.

What the connection and the mutator do in a call is up to them (`Reply`). Mutations are told apart by the number of the call, and those whose call has
returned `OK` are kept in `succeeded`. `currentTable`, which is not used with `clientbuffering`, is left out.

**What has been handed to a mutator is flushed by the end of `cleanup` just if each mutator that is replaced has nothing left to flush**
(`delivered_iff`).
-/

namespace YcsbIvs.HBase1

open YcsbIvs.Foundations YcsbIvs.Core

/-! ### Mutators -/

/-- A change of a row. -/
inductive Mutation where
  /-- `Put`. -/
  | put (row : Bytes) (columns : List (Bytes × Bytes))
  /-- `Delete`. -/
  | delete (row : Bytes)
  deriving DecidableEq

/-- A mutation a mutator has taken. -/
structure Handed where
  /-- The number of the call. -/
  call : ℕ
  /-- The mutation. -/
  mutation : Mutation
  deriving DecidableEq

/-- `BufferedMutator`. -/
structure BufferedMutator where
  /-- The table. -/
  tableName : Utf16
  /-- What has been flushed. -/
  flushed : List Handed
  /-- The buffer. -/
  unflushed : List Handed
  /-- Whether it has been closed. -/
  closed : Bool

namespace BufferedMutator

/-- What a mutator has taken. -/
def handed (m : BufferedMutator) : List Handed := m.flushed ++ m.unflushed

/-- It may flush its buffer. -/
def flush (m : BufferedMutator) (flushes : Bool) : BufferedMutator :=
  if flushes then { m with flushed := m.flushed ++ m.unflushed, unflushed := [] } else m

/-- It takes a mutation. -/
def take (m : BufferedMutator) (op : Handed) (flushes : Bool) : BufferedMutator :=
  { m with unflushed := m.unflushed ++ [op] }.flush flushes

theorem handed_flush (m : BufferedMutator) (flushes : Bool) : (m.flush flushes).handed = m.handed := by
  cases flushes
  · rfl
  · exact List.append_nil _

theorem closed_flush (m : BufferedMutator) (flushes : Bool) : (m.flush flushes).closed = m.closed := by
  cases flushes <;> rfl

theorem handed_take (m : BufferedMutator) (op : Handed) (flushes : Bool) : (m.take op flushes).handed = m.handed ++ [op] := by
  rw [take, handed_flush]
  exact (List.append_assoc _ _ _).symm

end BufferedMutator

/-! ### The client -/

/-- What may be thrown. -/
inductive Failure where
  /-- `IOException`. -/
  | ioException
  /-- `ConcurrentModificationException`. -/
  | concurrentModification
  /-- Any other exception, which nobody catches. -/
  | unchecked
  deriving DecidableEq

/-- What the connection and the mutator do in one call. -/
structure Reply where
  /-- What `getHTable` throws, if anything. -/
  access : Option Failure
  /-- What `mutate` throws, if anything. -/
  mutate : Option Failure
  /-- Whether the mutator flushes its buffer. -/
  flushes : Bool

/-- A client. -/
structure HBaseClient1 where
  /-- `tableName`. -/
  tableName : Utf16
  /-- `bufferedMutator`. -/
  bufferedMutator : Option BufferedMutator
  /-- The mutators it has replaced. -/
  replaced : List BufferedMutator
  /-- How many calls there have been. -/
  calls : ℕ
  /-- The mutations of the calls that have returned `OK`. -/
  succeeded : List Handed

/-- The loop over the entries: `p.addColumn(columnFamilyBytes, Bytes.toBytes(entry.getKey()), entry.getValue().toArray())`. -/
def columnsOf : List (Sigma fun _ : Utf16 => ByteIterator) → Except Throwable (List (Bytes × Bytes))
  | [] => .ok []
  | ⟨field, it⟩ :: entries =>
    match it.toArray with
    | .error e => .error e
    | .ok (value, _) => (columnsOf entries).map ((encode field, value) :: ·)

/-- A call. -/
inductive Call where
  | update (table key : Utf16) (values : Values Utf16)
  | insert (table key : Utf16) (values : Values Utf16)
  | delete (table key : Utf16)

/-- The table a call is for. -/
def Call.table : Call → Utf16
  | update table _ _ | insert table _ _ | delete table _ => table

namespace HBaseClient1

/-- Nothing has been called. -/
def initial : HBaseClient1 := ⟨[], none, [], 0, []⟩

/-- `getHTable(table)`, if the table is not that of the last call: what it returns, if anything, and the client after it. -/
def accessTable (s : HBaseClient1) (table : Utf16) (access : Option Failure) : Option (Except Failure Status) × HBaseClient1 :=
  if s.tableName = table then (none, s)
  else match access with
    | none =>
      (none, { s with
        tableName := table
        bufferedMutator := some ⟨table, [], [], false⟩
        replaced := s.bufferedMutator.toList ++ s.replaced })
    | some .ioException => (some (.ok .error), s)
    | some failure => (some (.error failure), s)

/-- `bufferedMutator.mutate(mutation)`: what it throws, if anything, and the client after it. -/
def mutate (s : HBaseClient1) (mutation : Mutation) (reply : Reply) : Option Failure × HBaseClient1 :=
  match s.bufferedMutator with
  -- a `NullPointerException`
  | none => (some .unchecked, s)
  | some m =>
    match reply.mutate with
    | none =>
      (none, { s with
        bufferedMutator := some (m.take ⟨s.calls, mutation⟩ reply.flushes)
        succeeded := s.succeeded ++ [⟨s.calls, mutation⟩] })
    | some failure => (some failure, { s with bufferedMutator := some (m.flush reply.flushes) })

/-- `update(table, key, values)`, if `isRow` are the names of rows that `new Put` does not refuse. -/
def update (isRow : Bytes → Bool) (s : HBaseClient1) (reply : Reply) (table key : Utf16) (values : Values Utf16) :
    Except Failure Status × HBaseClient1 :=
  match s.accessTable table reply.access with
  | (some r, s) => (r, s)
  | (none, s) =>
    if isRow (encode key) then
      match columnsOf values.entries with
      | .error _ => (.error .unchecked, s)
      | .ok columns =>
        match s.mutate (.put (encode key) columns) reply with
        | (none, s) => (.ok .ok, s)
        | (some .unchecked, s) => (.error .unchecked, s)
        | (some _, s) => (.ok .error, s)
    else (.error .unchecked, s)

/-- `delete(table, key)`. -/
def delete (isRow : Bytes → Bool) (s : HBaseClient1) (reply : Reply) (table key : Utf16) : Except Failure Status × HBaseClient1 :=
  match s.accessTable table reply.access with
  | (some r, s) => (r, s)
  | (none, s) =>
    if isRow (encode key) then
      match s.mutate (.delete (encode key)) reply with
      | (none, s) => (.ok .ok, s)
      | (some .ioException, s) => (.ok .error, s)
      | (some failure, s) => (.error failure, s)
    else (.error .unchecked, s)

/-- A call: what it returns, and the client after it. -/
def call (isRow : Bytes → Bool) (s : HBaseClient1) (c : Call) (reply : Reply) : Except Failure Status × HBaseClient1 :=
  match c with
  | .update table key values => s.update isRow reply table key values
  -- `insert` is `update`
  | .insert table key values => s.update isRow reply table key values
  | .delete table key => s.delete isRow reply table key

/-- The client after a call. -/
def step (isRow : Bytes → Bool) (s : HBaseClient1) (c : Call × Reply) : Option HBaseClient1 :=
  let s' := (s.call isRow c.1 c.2).2
  some { s' with calls := s'.calls + 1 }

/-- `cleanup()`. -/
def cleanup (s : HBaseClient1) : HBaseClient1 :=
  { s with bufferedMutator := s.bufferedMutator.map fun m => { m with closed := true } }

/-- All mutators there have been. -/
def mutators (s : HBaseClient1) : List BufferedMutator := s.bufferedMutator.toList ++ s.replaced

/-- A mutation has been handed to a mutator that has flushed it, or has been closed. -/
def Delivered (s : HBaseClient1) (op : Handed) : Prop := ∃ m ∈ s.mutators, op ∈ m.flushed ∨ (op ∈ m.unflushed ∧ m.closed = true)

/-- A mutator that is replaced has nothing left to flush. -/
def Keeps (s : HBaseClient1) (c : Call × Reply) : Prop :=
  s.tableName ≠ c.1.table ∧ c.2.access = none → ∀ m ∈ s.bufferedMutator, m.unflushed = []

instance decidableKeeps (s : HBaseClient1) (c : Call × Reply) : Decidable (Keeps s c) := inferInstanceAs (Decidable (_ → _))

/-! ### One call -/

/-- A call for the same table goes on with the mutator, one for another with a new one; or the client is as it was. -/
theorem accessTable_cases (s : HBaseClient1) (table : Utf16) (access : Option Failure) :
    ((s.accessTable table access).2 = s ∧ (s.tableName = table ∨ access ≠ none)) ∨
      (s.tableName ≠ table ∧ access = none ∧ (s.accessTable table access).2 = { s with
        tableName := table
        bufferedMutator := some ⟨table, [], [], false⟩
        replaced := s.mutators }) := by
  unfold accessTable
  by_cases htable : s.tableName = table
  · rw [if_pos htable]
    exact .inl ⟨rfl, .inl htable⟩
  · rw [if_neg htable]
    cases access with
    | none => exact .inr ⟨htable, rfl, rfl⟩
    | some failure =>
      refine .inl ⟨?_, .inr (Option.some_ne_none _)⟩
      cases failure <;> rfl

/-- Then it hands its mutation to the mutator, or not. -/
theorem call_cases (isRow : Bytes → Bool) (s : HBaseClient1) (c : Call) (reply : Reply) :
    (s.call isRow c reply).2 = (s.accessTable c.table reply.access).2 ∨
      ∃ mutation, (s.call isRow c reply).2 = ((s.accessTable c.table reply.access).2.mutate mutation reply).2 := by
  have hupdate : ∀ table key values, (s.update isRow reply table key values).2 = (s.accessTable table reply.access).2 ∨
      ∃ mutation, (s.update isRow reply table key values).2 = ((s.accessTable table reply.access).2.mutate mutation reply).2 := by
    intro table key values
    rw [update]
    rcases s.accessTable table reply.access with ⟨_ | r, s₁⟩
    · dsimp only
      by_cases hrow : isRow (encode key) = true
      · rw [if_pos hrow]
        cases columnsOf values.entries with
        | error e => exact .inl rfl
        | ok columns =>
          refine .inr ⟨.put (encode key) columns, ?_⟩
          dsimp only
          rcases s₁.mutate (.put (encode key) columns) reply with ⟨_ | failure, s₂⟩
          · rfl
          · cases failure <;> rfl
      · rw [if_neg hrow]
        exact .inl rfl
    · exact .inl rfl
  cases c with
  | update table key values => exact hupdate table key values
  | insert table key values => exact hupdate table key values
  | delete table key =>
    show (s.delete isRow reply table key).2 = _ ∨ ∃ mutation, (s.delete isRow reply table key).2 = _
    rw [delete, Call.table]
    rcases s.accessTable table reply.access with ⟨_ | r, s₁⟩
    · dsimp only
      by_cases hrow : isRow (encode key) = true
      · rw [if_pos hrow]
        refine .inr ⟨.delete (encode key), ?_⟩
        rcases s₁.mutate (.delete (encode key)) reply with ⟨_ | failure, s₂⟩
        · rfl
        · cases failure <;> rfl
      · rw [if_neg hrow]
        exact .inl rfl
    · exact .inl rfl

@[simp] theorem replaced_mutate (s : HBaseClient1) (mutation : Mutation) (reply : Reply) : (s.mutate mutation reply).2.replaced = s.replaced := by
  rw [mutate]
  cases s.bufferedMutator with
  | none => rfl
  | some m => cases reply.mutate <;> rfl

theorem replaced_call (isRow : Bytes → Bool) (s : HBaseClient1) (c : Call) (reply : Reply) :
    (s.call isRow c reply).2.replaced = (s.accessTable c.table reply.access).2.replaced := by
  rcases call_cases isRow s c reply with hc | ⟨mutation, hc⟩
  · rw [hc]
  · rw [hc, replaced_mutate]

/-! ### What is handed to a mutator -/

/-- **The invariant**: what has succeeded is what the mutators have taken, each mutation once. -/
structure Sound (s : HBaseClient1) : Prop where
  /-- It is what the mutators have taken. -/
  handed : s.succeeded.Perm (s.mutators.flatMap BufferedMutator.handed)
  /-- It has been called for. -/
  numbered : ∀ op ∈ s.succeeded, op.call < s.calls
  /-- Each call is for one mutation. -/
  nodup : (s.succeeded.map Handed.call).Nodup
  /-- No mutator has been closed. -/
  opened : ∀ m ∈ s.mutators, m.closed = false

theorem Sound.accessTable {s : HBaseClient1} (h : Sound s) (table : Utf16) (access : Option Failure) : Sound (s.accessTable table access).2 := by
  rcases accessTable_cases s table access with ⟨hs, -⟩ | ⟨-, -, hs⟩
  · rwa [hs]
  · rw [hs]
    refine ⟨h.handed, h.numbered, h.nodup, fun m hm => ?_⟩
    rcases List.mem_cons.mp hm with rfl | hm
    · rfl
    · exact h.opened m hm

/-- The next call. -/
theorem Sound.next {s : HBaseClient1} (h : Sound s) : Sound { s with calls := s.calls + 1 } :=
  ⟨h.handed, fun op hop => Nat.lt_succ_of_lt (h.numbered op hop), h.nodup, h.opened⟩

theorem Sound.mutate {s : HBaseClient1} (h : Sound s) (mutation : Mutation) (reply : Reply) :
    Sound { (s.mutate mutation reply).2 with calls := (s.mutate mutation reply).2.calls + 1 } := by
  rw [HBaseClient1.mutate]
  cases hm : s.bufferedMutator with
  | none => exact h.next
  | some m =>
    obtain ⟨hhanded, hnumbered, hnodup, hopened⟩ := h
    rw [mutators, hm] at hhanded hopened
    have hm' : m.closed = false := hopened m List.mem_cons_self
    cases reply.mutate with
    | none =>
      refine ⟨?_, fun op hop => ?_, ?_, fun n hn => ?_⟩
      · show (s.succeeded ++ [_]).Perm ((m.take _ reply.flushes).handed ++ s.replaced.flatMap BufferedMutator.handed)
        rw [BufferedMutator.handed_take, List.append_assoc]
        refine (hhanded.append_right _).trans ?_
        show (m.handed ++ s.replaced.flatMap BufferedMutator.handed ++ _).Perm _
        rw [List.append_assoc]
        exact List.perm_append_comm.append_left _
      · rcases List.mem_append.mp hop with hop | hop
        · exact Nat.lt_succ_of_lt (hnumbered op hop)
        · rw [List.mem_singleton.mp hop]
          exact Nat.lt_succ_self _
      · show ((s.succeeded ++ [_]).map Handed.call).Nodup
        rw [List.map_append, List.map_singleton]
        refine List.nodup_append_comm.mp (List.nodup_cons.mpr ⟨fun hmem => ?_, hnodup⟩)
        obtain ⟨op, hop, heq⟩ := List.mem_map.mp hmem
        exact absurd (hnumbered op hop) (Nat.not_lt_of_le (Nat.le_of_eq heq.symm))
      · rcases List.mem_cons.mp hn with rfl | hn
        · rw [BufferedMutator.take, BufferedMutator.closed_flush]
          exact hm'
        · exact hopened n (List.mem_cons_of_mem m hn)
    | some failure =>
      refine ⟨?_, fun op hop => Nat.lt_succ_of_lt (hnumbered op hop), hnodup, fun n hn => ?_⟩
      · show s.succeeded.Perm ((m.flush reply.flushes).handed ++ s.replaced.flatMap BufferedMutator.handed)
        rw [BufferedMutator.handed_flush]
        exact hhanded
      · rcases List.mem_cons.mp hn with rfl | hn
        · rw [BufferedMutator.closed_flush]
          exact hm'
        · exact hopened n (List.mem_cons_of_mem m hn)

theorem Sound.step {isRow : Bytes → Bool} {s s' : HBaseClient1} {c : Call × Reply} (h : Sound s) (hs : step isRow s c = some s') : Sound s' := by
  rw [← Option.some.inj hs]
  rcases call_cases isRow s c.1 c.2 with hc | ⟨mutation, hc⟩
  · rw [hc]
    exact (h.accessTable c.1.table c.2.access).next
  · rw [hc]
    exact (h.accessTable c.1.table c.2.access).mutate mutation c.2

theorem sound_initial : Sound initial :=
  ⟨List.Perm.refl [], fun _ hop => absurd hop List.not_mem_nil, List.nodup_nil, fun _ hm => absurd hm List.not_mem_nil⟩

/-! ### What is flushed -/

/-- No mutator that has been replaced has anything left to flush. -/
def Flushed (s : HBaseClient1) : Prop := ∀ m ∈ s.replaced, m.unflushed = []

/-- What a mutator that has been replaced has left to flush is nowhere else. -/
theorem Sound.not_delivered {s : HBaseClient1} (h : Sound s) {m : BufferedMutator} (hm : m ∈ s.replaced) {op : Handed} (hop : op ∈ m.unflushed) :
    ¬ Delivered s.cleanup op := by
  have hnodup : (s.mutators.flatMap BufferedMutator.handed).Nodup := h.handed.nodup_iff.mp h.nodup.of_map
  obtain ⟨hone, hapart⟩ := List.nodup_flatMap.mp hnodup
  have hmem : op ∈ m.handed := List.mem_append_right _ hop
  have hm' : m ∈ s.mutators := List.mem_append_right _ hm
  rintro ⟨n, hn, hdel⟩
  rcases List.mem_append.mp hn with hn | hn
  · -- the mutator that `cleanup` has closed
    rw [Option.mem_toList] at hn
    obtain ⟨last, hlast, rfl⟩ := Option.map_eq_some_iff.mp hn
    rw [mutators, hlast] at hapart
    have hother : op ∈ last.handed := List.mem_append.mpr (hdel.imp_right And.left)
    exact (List.pairwise_cons.mp hapart).1 m hm hother hmem
  · have hn' : n ∈ s.mutators := List.mem_append_right _ hn
    have hflushed : op ∈ n.flushed := by
      refine hdel.resolve_right fun hc => ?_
      rw [h.opened n hn'] at hc
      cases hc.2
    by_cases heq : n = m
    · rw [heq] at hflushed
      exact (List.nodup_append.mp (hone m hm')).2.2 op hflushed op hop rfl
    · have hsymm : Std.Symm (Function.onFun List.Disjoint BufferedMutator.handed) := ⟨fun _ _ hab _ ha hb => hab hb ha⟩
      exact hapart.forall hn' hm' heq (List.mem_append_left _ hflushed) hmem

theorem Sound.delivered_iff_flushed {s : HBaseClient1} (h : Sound s) : (∀ op ∈ s.cleanup.succeeded, Delivered s.cleanup op) ↔ Flushed s := by
  constructor
  · intro hall m hm
    refine List.eq_nil_iff_forall_not_mem.mpr fun op hop => ?_
    have hmem : op ∈ s.mutators.flatMap BufferedMutator.handed :=
      List.mem_flatMap.mpr ⟨m, List.mem_append_right _ hm, List.mem_append_right _ hop⟩
    exact h.not_delivered hm hop (hall op (h.handed.mem_iff.mpr hmem))
  · intro hall op hop
    obtain ⟨m, hm, hmem⟩ := List.mem_flatMap.mp (h.handed.mem_iff.mp hop)
    rcases List.mem_append.mp hm with hm | hm
    · refine ⟨{ m with closed := true }, List.mem_append_left _ ?_, (List.mem_append.mp hmem).imp_right fun hop => ⟨hop, rfl⟩⟩
      rw [Option.mem_toList] at hm ⊢
      exact Option.map_eq_some_iff.mpr ⟨m, hm, rfl⟩
    · refine ⟨m, List.mem_append_right _ hm, .inl ?_⟩
      rwa [BufferedMutator.handed, hall m hm, List.append_nil] at hmem

/-- A call replaces the mutator, or not. -/
theorem flushed_step {isRow : Bytes → Bool} {s s' : HBaseClient1} {c : Call × Reply} (h : Flushed s) (hs : step isRow s c = some s') :
    Flushed s' ↔ Keeps s c := by
  have hreplaced : s'.replaced = (s.accessTable c.1.table c.2.access).2.replaced := by
    rw [← Option.some.inj hs]
    exact replaced_call isRow s c.1 c.2
  rw [Flushed, hreplaced, Keeps]
  rcases accessTable_cases s c.1.table c.2.access with ⟨hs, hno⟩ | ⟨htable, haccess, hs⟩
  · rw [hs]
    refine iff_of_true h fun hc => ?_
    rcases hno with hno | hno
    · exact absurd hno hc.1
    · exact absurd hc.2 hno
  · rw [hs]
    constructor
    · intro hall _ m hm
      exact hall m (List.mem_append_left _ (Option.mem_toList.mpr hm))
    · intro hkeeps m hm
      rcases List.mem_append.mp hm with hm | hm
      · exact hkeeps ⟨htable, haccess⟩ m (Option.mem_toList.mp hm)
      · exact h m hm

/-- What has been left in a mutator stays there. -/
theorem flushed_of_step {isRow : Bytes → Bool} {s s' : HBaseClient1} {c : Call × Reply} (hs : step isRow s c = some s') (h : Flushed s') :
    Flushed s := by
  have hreplaced : s'.replaced = (s.accessTable c.1.table c.2.access).2.replaced := by
    rw [← Option.some.inj hs]
    exact replaced_call isRow s c.1 c.2
  intro m hm
  refine h m ?_
  rw [hreplaced]
  rcases accessTable_cases s c.1.table c.2.access with ⟨hs, -⟩ | ⟨-, -, hs⟩
  · rwa [hs]
  · rw [hs]
    exact List.mem_append_right _ hm

/-- **Each mutation whose call has returned `OK` is flushed by the end of `cleanup`** just if no mutator is replaced that has anything left to flush. -/
theorem delivered_iff (isRow : Bytes → Bool) (calls : List (Call × Reply)) {s : HBaseClient1} (h : exec (step isRow) initial calls = some s) :
    (∀ op ∈ s.cleanup.succeeded, Delivered s.cleanup op) ↔ Meets (step isRow) Keeps initial calls := by
  have hsound : Sound s := exec_invariant (fun _ _ _ hI hs => Sound.step hI hs) sound_initial h
  have hstart : Flushed initial := fun m hm => absurd hm List.not_mem_nil
  have hiff := always_iff_meets (I := fun _ => True) (fun _ _ _ _ _ => trivial) (fun _ _ _ _ hf hs => flushed_step hf hs) trivial hstart h
  rw [hsound.delivered_iff_flushed, ← hiff]
  exact ⟨always_of_last (I := fun _ => True) (fun _ _ _ _ _ => trivial) (fun _ _ _ _ hs hf => flushed_of_step hs hf) trivial h, fun hall => hall.last h⟩

/-- Two tables, the mutator of the first of which has flushed when the second is called for. -/
theorem delivered_iff_two : ∃ s, exec (step fun _ => true) initial
      [(.insert [1] [0] ∅, ⟨none, none, true⟩), (.delete [2] [0], ⟨none, none, false⟩)] = some s ∧ s.succeeded.length = 2 ∧
      ∀ op ∈ s.cleanup.succeeded, Delivered s.cleanup op :=
  have hkeeps : Meets (step fun _ => true) Keeps initial
      [(.insert [1] [0] ∅, ⟨none, none, true⟩), (.delete [2] [0], ⟨none, none, false⟩)] := by decide
  ⟨_, rfl, rfl, (delivered_iff (fun _ => true) _ rfl).mpr hkeeps⟩

/-- **An insert is lost when the next one is for another table**: its mutator is replaced before it has flushed. -/
theorem not_delivered : ∃ s, exec (step fun _ => true) initial
      [(.insert [1] [0] ∅, ⟨none, none, false⟩), (.insert [2] [0] ∅, ⟨none, none, false⟩)] = some s ∧ s.succeeded.length = 2 ∧
      ∃ op ∈ s.cleanup.succeeded, ¬ Delivered s.cleanup op := by
  refine ⟨_, rfl, rfl, _, List.mem_cons_self, ?_⟩
  unfold Delivered
  decide

end HBaseClient1

end YcsbIvs.HBase1
