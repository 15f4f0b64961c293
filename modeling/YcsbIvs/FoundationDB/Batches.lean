import YcsbIvs.FoundationDB.Client

/-!
# What becomes of the rows of a batch

Every `insert` whose row fits the batch returns `OK`, and whatever `db.run` throws later is caught, and the batch emptied. So a
row is lost, and nobody told, if the transaction of its batch is not carried out. It is set wrong if its values are read in an
attempt that fails, and can not be read again in the one that is carried out.

**Either something is reported, or every row whose `insert` returned `OK` is in the store with its values when
`cleanup` is done, just when the transaction of each batch delivers it** (`reported_or_committed_iff`): all values have a text, and the first attempt is carried out, or a
later one is and every value can be read again.
-/

namespace YcsbIvs.FoundationDB

open YcsbIvs.Foundations YcsbIvs.Core

namespace Pending

/-- Every value has a text. -/
def Readable (p : Pending) : Prop := ∀ e ∈ p.values, ∃ r, e.2.toString = .ok r

/-- Every value gives the same again. -/
def Rereadable (p : Pending) : Prop := ∀ e ∈ p.values, e.2.Rereadable

/-- The iterators are ones that a program can have. -/
def WellMade (p : Pending) : Prop := ∀ e ∈ p.values, e.2.WellMade

/-- The row to set; empty if it can not be read. -/
def row (p : Pending) : Row := ⟨p.call, p.rowKey, ((getStringMap p.values).toOption.map Prod.fst).getD []⟩

/-- What is left of it after it has been read. -/
def used (p : Pending) : Pending := { p with values := ((getStringMap p.values).toOption.map Prod.snd).getD p.values }

/-- The row is in the store with its values. -/
def Committed (store : List Row) (p : Pending) : Prop := p.Readable ∧ p.row ∈ store

/-! ### Reading a row -/

variable {p : Pending}

@[simp] theorem call_row (p : Pending) : p.row.call = p.call := rfl

@[simp] theorem call_used (p : Pending) : p.used.call = p.call := rfl

/-- Reading it gives the row, and what is left. -/
theorem getStringMap_eq (h : p.Readable) : getStringMap p.values = .ok (p.row.fields, p.used.values) := by
  obtain ⟨r, hr⟩ := getStringMap_of_readable h
  rw [row, used, hr]
  rfl

theorem wellMade_used (hmade : p.WellMade) (h : p.Readable) : p.used.WellMade ∧ p.used.Rereadable := by
  obtain ⟨hafter, -⟩ := getStringMap_again hmade (getStringMap_eq h)
  exact ⟨fun e he => (hafter e he).1, fun e he => (hafter e he).2⟩

theorem readable_used (hmade : p.WellMade) (h : p.Readable) : p.used.Readable := by
  obtain ⟨-, fields, entries, hagain, -⟩ := getStringMap_again hmade (getStringMap_eq h)
  exact readable_of_getStringMap hagain

/-- It gives the same row again just if every value can be read again. -/
theorem row_used (hmade : p.WellMade) (h : p.Readable) : p.used.row = p.row ↔ p.Rereadable := by
  obtain ⟨-, fields, entries, hagain, hsame⟩ := getStringMap_again hmade (getStringMap_eq h)
  have hfields := getStringMap_eq (readable_used hmade h)
  obtain ⟨rfl, -⟩ := Prod.mk.inj (Except.ok.inj (hagain.symm.trans hfields))
  rw [Rereadable, ← hsame]
  exact ⟨fun heq => congrArg Row.fields heq, fun heq => by rw [row] at heq ⊢; exact congrArg (Row.mk p.call p.rowKey) heq⟩

end Pending

/-! ### Setting the rows of a batch -/

section

variable {batch : List Pending} {attempts : List Bool}

theorem setRows_of_readable (h : ∀ p ∈ batch, p.Readable) : setRows batch = .ok (batch.map Pending.row, batch.map Pending.used) := by
  induction batch with
  | nil => rfl
  | cons p batch ih =>
    obtain ⟨hp, hrest⟩ := List.forall_mem_cons.mp h
    rw [setRows, bind_ok (Pending.getStringMap_eq hp)]
    dsimp only
    rw [bind_ok (ih hrest)]
    rfl

theorem readable_of_setRows {r : List Row × List Pending} (h : setRows batch = .ok r) : ∀ p ∈ batch, p.Readable := by
  induction batch generalizing r with
  | nil => exact fun p hp => absurd hp List.not_mem_nil
  | cons p batch ih =>
    obtain ⟨o, ho, h⟩ := bind_inv h
    obtain ⟨o', ho', -⟩ := bind_inv h
    exact List.forall_mem_cons.mpr ⟨readable_of_getStringMap ho, ih ho'⟩

/-- A row that can not be read keeps all of them from being set. -/
theorem run_of_not_readable (h : ¬ ∀ p ∈ batch, p.Readable) : run attempts batch = [] := by
  cases attempts with
  | nil => rfl
  | cons applied attempts =>
    rw [run]
    split
    · rfl
    · next hset => exact absurd (readable_of_setRows hset) h

/-- Rows that can be read again are set if an attempt is carried out. -/
theorem mem_run_of_rereadable (hmade : ∀ p ∈ batch, p.WellMade) (hread : ∀ p ∈ batch, p.Readable) (hagain : ∀ p ∈ batch, p.Rereadable)
    {r : Row} : r ∈ run attempts batch ↔ true ∈ attempts ∧ r ∈ batch.map Pending.row := by
  induction attempts generalizing batch with
  | nil => simp [run]
  | cons applied attempts ih =>
    have hsame : (batch.map Pending.used).map Pending.row = batch.map Pending.row := by
      rw [List.map_map]
      exact List.map_congr_left fun p hp => (Pending.row_used (hmade p hp) (hread p hp)).mpr (hagain p hp)
    have hafter := fun p hp => Pending.wellMade_used (hmade p hp) (hread p hp)
    rw [run, setRows_of_readable hread]
    dsimp only
    rw [List.mem_append, ih (List.forall_mem_map.mpr fun p hp => (hafter p hp).1)
      (List.forall_mem_map.mpr fun p hp => Pending.readable_used (hmade p hp) (hread p hp))
      (List.forall_mem_map.mpr fun p hp => (hafter p hp).2), hsame]
    cases applied <;> simp

/-- What is set: the rows as they are read first, if the first attempt is carried out, and as they are read then, if a later one is. -/
theorem mem_run (hmade : ∀ p ∈ batch, p.WellMade) (hread : ∀ p ∈ batch, p.Readable) {applied : Bool} {r : Row} :
    r ∈ run (applied :: attempts) batch ↔
      (applied = true ∧ r ∈ batch.map Pending.row) ∨ (true ∈ attempts ∧ r ∈ (batch.map Pending.used).map Pending.row) := by
  have hafter := fun p hp => Pending.wellMade_used (hmade p hp) (hread p hp)
  rw [run, setRows_of_readable hread]
  dsimp only
  rw [List.mem_append, mem_run_of_rereadable (List.forall_mem_map.mpr fun p hp => (hafter p hp).1)
    (List.forall_mem_map.mpr fun p hp => Pending.readable_used (hmade p hp) (hread p hp)) (List.forall_mem_map.mpr fun p hp => (hafter p hp).2)]
  cases applied <;> simp

/-- A row that is set is one of the batch. -/
theorem exists_of_mem_run (hmade : ∀ p ∈ batch, p.WellMade) {r : Row} (h : r ∈ run attempts batch) : ∃ p ∈ batch, p.call = r.call := by
  by_cases hread : ∀ p ∈ batch, p.Readable
  · cases attempts with
    | nil => cases h
    | cons applied attempts =>
      rcases (mem_run hmade hread).mp h with ⟨-, hr⟩ | ⟨-, hr⟩
      · obtain ⟨p, hp, rfl⟩ := List.mem_map.mp hr
        exact ⟨p, hp, rfl⟩
      · obtain ⟨q, hq, rfl⟩ := List.mem_map.mp hr
        obtain ⟨p, hp, rfl⟩ := List.mem_map.mp hq
        exact ⟨p, hp, rfl⟩
  · rw [run_of_not_readable hread] at h
    cases h

/-- The transaction of a batch delivers it: every row can be read, and the first attempt is carried out, or a later one is and every
row can be read again. -/
def Delivers (attempts : List Bool) (batch : List Pending) : Prop :=
  (∀ p ∈ batch, p.Readable) ∧ (attempts.head? = some true ∨ (true ∈ attempts.tail ∧ ∀ p ∈ batch, p.Rereadable))

/-- Two rows of a batch made by one call are the same. -/
theorem eq_of_call (hnd : (batch.map Pending.call).Nodup) {p q : Pending} (hp : p ∈ batch) (hq : q ∈ batch) (h : p.call = q.call) : p = q :=
  List.inj_on_of_nodup_map hnd hp hq h

/-- **All rows of a batch are set just when its transaction delivers it.** -/
theorem committed_run_iff (hmade : ∀ p ∈ batch, p.WellMade) (hnd : (batch.map Pending.call).Nodup) (hne : batch ≠ []) :
    (∀ p ∈ batch, p.Committed (run attempts batch)) ↔ Delivers attempts batch := by
  obtain ⟨p₀, hp₀⟩ := List.exists_mem_of_ne_nil batch hne
  by_cases hread : ∀ p ∈ batch, p.Readable
  · cases attempts with
    | nil => exact iff_of_false (fun h => List.not_mem_nil (h p₀ hp₀).2) fun h => by simpa using h.2
    | cons applied attempts =>
      -- what a later attempt sets for a row is the row if it can be read again
      have hlater : ∀ p ∈ batch, p.row ∈ (batch.map Pending.used).map Pending.row ↔ p.Rereadable := by
        intro p hp
        rw [← Pending.row_used (hmade p hp) (hread p hp)]
        constructor
        · intro hrow
          obtain ⟨q', hq', heq⟩ := List.mem_map.mp hrow
          obtain ⟨q, hq, rfl⟩ := List.mem_map.mp hq'
          obtain rfl := eq_of_call hnd hq hp (congrArg Row.call heq)
          exact heq
        · intro heq
          rw [← heq]
          exact List.mem_map_of_mem (List.mem_map_of_mem hp)
      have hcommitted : ∀ p ∈ batch, p.Committed (run (applied :: attempts) batch) ↔ applied = true ∨ (true ∈ attempts ∧ p.Rereadable) := by
        intro p hp
        rw [Pending.Committed, mem_run hmade hread, hlater p hp]
        exact ⟨fun h => h.2.imp_left And.left, fun h => ⟨hread p hp, h.imp_left fun ha => ⟨ha, List.mem_map_of_mem hp⟩⟩⟩
      rw [Delivers, List.head?_cons, Option.some.injEq, List.tail_cons]
      constructor
      · intro h
        refine ⟨hread, ?_⟩
        by_cases ha : applied = true
        · exact .inl ha
        · have hall := fun p hp => ((hcommitted p hp).mp (h p hp)).resolve_left ha
          exact .inr ⟨(hall p₀ hp₀).1, fun p hp => (hall p hp).2⟩
      · rintro ⟨-, ha | ⟨ha, hagain⟩⟩ p hp
        · exact (hcommitted p hp).mpr (.inl ha)
        · exact (hcommitted p hp).mpr (.inr ⟨ha, hagain p hp⟩)
  · exact iff_of_false (fun h => hread fun p hp => (h p hp).1) fun h => hread h.1

end

/-! ### Sessions -/

/-- What a call of `insert` is given. -/
structure Insert where
  /-- The table. -/
  table : Utf16
  /-- The key. -/
  key : Utf16
  /-- The values. -/
  values : Values Utf16
  /-- Their iterators are ones that a program can have. -/
  wellMade : ∀ e ∈ values.entries, e.2.WellMade

/-- A call of the client, and the attempts at its transaction, if there is one. -/
inductive Call where
  /-- `insert`. -/
  | insert (attempts : List Bool) (i : Insert)
  /-- `cleanup`, and whether `db.close()` returns. -/
  | cleanup (attempts : List Bool) (closes : Bool)

/-- The client, and what its caller has been told. -/
structure Session where
  /-- The client. -/
  client : FoundationDBClient
  /-- The rows whose `insert` has returned `OK` or `BATCHED_OK`. -/
  accepted : List Pending
  /-- Some call has returned another status, or `cleanup` has thrown. -/
  reported : Bool

/-- A client after `init`. -/
def Session.init : Session := ⟨⟨[], [], 0⟩, [], false⟩

/-- A call. -/
def step (config : Config) (s : Session) : Call → Option Session
  | .insert attempts i =>
    let p := s.client.pending config i.table i.key i.values
    let (status, client) := s.client.insert config attempts i.table i.key i.values
    some ⟨client, if status.isOk then s.accepted ++ [p] else s.accepted, s.reported || !status.isOk⟩
  | .cleanup attempts closes =>
    let (closed, client) := s.client.cleanup attempts closes
    some ⟨client, s.accepted, s.reported || !closed⟩

/-- The call reports nothing: there is room in the batch, and the database is closed. -/
def Silent (s : Session) : Call → Prop
  | .insert _ _ => s.client.batch.length + 1 < 2 ^ 31
  | .cleanup _ closes => closes = true

/-- If the call sends the batch, its transaction delivers it. -/
def DeliversBatch (config : Config) (s : Session) : Call → Prop
  | .insert attempts i =>
    s.client.batch.length + 1 < 2 ^ 31 → config.batchSize = 0 ∨ config.batchSize = s.client.batch.length + 1 →
      Delivers attempts (s.client.batch ++ [s.client.pending config i.table i.key i.values])
  | .cleanup attempts _ => s.client.batch ≠ [] → Delivers attempts s.client.batch

/-- No row whose `insert` has returned `OK` is lost: it is in the store with its values, or in the batch. -/
def NothingLost (s : Session) : Prop := ∀ p ∈ s.accepted, p.Committed s.client.store ∨ p ∈ s.client.batch

/-- What holds between calls. -/
structure Inv (s : Session) : Prop where
  /-- Calls are numbered. -/
  nodup : (s.accepted.map Pending.call).Nodup
  /-- The next one has a number of its own. -/
  lt : ∀ p ∈ s.accepted, p.call < s.client.calls
  /-- The iterators are ones that a program can have. -/
  wellMade : ∀ p ∈ s.accepted, p.WellMade
  /-- The rows of the batch have been accepted, in this order. -/
  batch : s.client.batch.Sublist s.accepted
  /-- The store has rows that have been accepted, and are not in the batch any more. -/
  store : ∀ r ∈ s.client.store, ∃ p ∈ s.accepted, p.call = r.call ∧ p ∉ s.client.batch

/-! ### Two things a call does -/

/-- A row is accepted into the batch. -/
def Session.add (s : Session) (p : Pending) : Session := ⟨s.client.addElement p, s.accepted ++ [p], s.reported⟩

/-- The batch is sent. -/
def Session.send (s : Session) (attempts : List Bool) : Session := { s with client := s.client.batchInsert attempts }

section

variable {config : Config} {s s' : Session} {attempts : List Bool} {p : Pending}

theorem inv_add (h : Inv s) (hcall : p.call = s.client.calls) (hmade : p.WellMade) : Inv (s.add p) := by
  have hfresh : ∀ q ∈ s.accepted, q.call ≠ p.call := fun q hq => by
    have := h.lt q hq
    omega
  refine ⟨?_, ?_, ?_, h.batch.append_right [p], ?_⟩
  · rw [Session.add, List.map_append, List.nodup_append']
    refine ⟨h.nodup, List.nodup_singleton _, ?_⟩
    rintro c hc hp
    obtain ⟨q, hq, rfl⟩ := List.mem_map.mp hc
    exact hfresh q hq (List.mem_singleton.mp hp)
  · intro q hq
    rcases List.mem_append.mp hq with hq | hq
    · exact Nat.lt_succ_of_lt (h.lt q hq)
    · rw [List.mem_singleton.mp hq, hcall]
      exact Nat.lt_succ_self _
  · intro q hq
    rcases List.mem_append.mp hq with hq | hq
    · exact h.wellMade q hq
    · rwa [List.mem_singleton.mp hq]
  · intro r hr
    obtain ⟨q, hq, hcall', hnot⟩ := h.store r hr
    refine ⟨q, List.mem_append_left _ hq, hcall', fun hmem => ?_⟩
    rcases List.mem_append.mp hmem with hmem | hmem
    · exact hnot hmem
    · exact hfresh q hq (congrArg Pending.call (List.mem_singleton.mp hmem))

/-- What is known of the batch. -/
theorem Inv.wellMade_batch (h : Inv s) : ∀ p ∈ s.client.batch, p.WellMade := fun p hp => h.wellMade p (h.batch.mem hp)

theorem Inv.nodup_batch (h : Inv s) : (s.client.batch.map Pending.call).Nodup := h.nodup.sublist (h.batch.map _)

theorem inv_send (h : Inv s) : Inv (s.send attempts) := by
  refine ⟨h.nodup, h.lt, h.wellMade, List.nil_sublist _, fun r hr => ?_⟩
  rcases List.mem_append.mp hr with hr | hr
  · obtain ⟨q, hq, hcall, -⟩ := h.store r hr
    exact ⟨q, hq, hcall, List.not_mem_nil⟩
  · obtain ⟨q, hq, hcall⟩ := exists_of_mem_run h.wellMade_batch hr
    exact ⟨q, h.batch.mem hq, hcall, List.not_mem_nil⟩

theorem nothingLost_add (h : Inv s) (hcall : p.call = s.client.calls) : NothingLost (s.add p) ↔ NothingLost s := by
  constructor
  · intro hs q hq
    rcases hs q (List.mem_append_left _ hq) with hc | hb
    · exact .inl hc
    · rcases List.mem_append.mp hb with hb | hb
      · exact .inr hb
      · have hlt := h.lt q hq
        rw [List.mem_singleton.mp hb, hcall] at hlt
        exact absurd hlt (lt_irrefl _)
  · intro hs q hq
    rcases List.mem_append.mp hq with hq | hq
    · exact (hs q hq).imp_right (List.mem_append_left _)
    · exact .inr (List.mem_append_right _ hq)

/-- Two accepted rows made by one call are the same. -/
theorem Inv.eq_of_call (h : Inv s) {p q : Pending} (hp : p ∈ s.accepted) (hq : q ∈ s.accepted) (hcall : p.call = q.call) : p = q :=
  FoundationDB.eq_of_call h.nodup hp hq hcall

/-- The transaction sets the rows of the batch, -/
theorem committed_send_of_mem (h : Inv s) (hp : p ∈ s.client.batch) :
    p.Committed (s.send attempts).client.store ↔ p.Committed (run attempts s.client.batch) := by
  refine and_congr_right fun _ => ⟨fun hr => ?_, List.mem_append_right _⟩
  rcases List.mem_append.mp hr with hr | hr
  · obtain ⟨q, hq, hcall, hnot⟩ := h.store p.row hr
    exact absurd hp (h.eq_of_call hq (h.batch.mem hp) hcall ▸ hnot)
  · exact hr

/-- and no others. -/
theorem committed_send_of_notMem (h : Inv s) (hp : p ∈ s.accepted) (hnot : p ∉ s.client.batch) :
    p.Committed (s.send attempts).client.store ↔ p.Committed s.client.store := by
  refine and_congr_right fun _ => ⟨fun hr => ?_, List.mem_append_left _⟩
  rcases List.mem_append.mp hr with hr | hr
  · exact hr
  · obtain ⟨q, hq, hcall⟩ := exists_of_mem_run h.wellMade_batch hr
    exact absurd hq (h.eq_of_call hp (h.batch.mem hq) hcall.symm ▸ hnot)

/-- Sending the batch loses nothing just if its transaction delivers it. -/
theorem nothingLost_send (h : Inv s) (hs : NothingLost s) :
    NothingLost (s.send attempts) ↔ (s.client.batch ≠ [] → Delivers attempts s.client.batch) := by
  constructor
  · intro hsend hne
    refine (committed_run_iff h.wellMade_batch h.nodup_batch hne).mp fun p hp => ?_
    have hc := (hsend p (h.batch.mem hp)).resolve_right List.not_mem_nil
    exact (committed_send_of_mem h hp).mp hc
  · intro hdel p hp
    by_cases hmem : p ∈ s.client.batch
    · have hne := List.ne_nil_of_mem hmem
      exact .inl ((committed_send_of_mem h hmem).mpr ((committed_run_iff h.wellMade_batch h.nodup_batch hne).mpr (hdel hne) p hmem))
    · exact .inl ((committed_send_of_notMem h hp hmem).mpr ((hs p hp).resolve_right hmem))

/-- What has been lost stays lost. -/
theorem nothingLost_of_send (h : Inv s) (hs : NothingLost (s.send attempts)) : NothingLost s := by
  intro p hp
  by_cases hmem : p ∈ s.client.batch
  · exact .inr hmem
  · exact .inl ((committed_send_of_notMem h hp hmem).mp ((hs p hp).resolve_right List.not_mem_nil))

end

/-! ### Calls -/

/-- What a call does. -/
inductive Moves (config : Config) (s : Session) : Call → Session → Prop where
  /-- There is no room for the row. -/
  | refused {attempts i} (hfull : ¬ s.client.batch.length + 1 < 2 ^ 31) :
      Moves config s (.insert attempts i) ⟨{ s.client with calls := s.client.calls + 1 }, s.accepted, true⟩
  /-- The row is kept in the batch. -/
  | kept {attempts i} (hroom : s.client.batch.length + 1 < 2 ^ 31)
      (hsize : ¬ (config.batchSize = 0 ∨ config.batchSize = s.client.batch.length + 1)) :
      Moves config s (.insert attempts i) (s.add (s.client.pending config i.table i.key i.values))
  /-- The batch is sent with it. -/
  | sent {attempts i} (hroom : s.client.batch.length + 1 < 2 ^ 31)
      (hsize : config.batchSize = 0 ∨ config.batchSize = s.client.batch.length + 1) :
      Moves config s (.insert attempts i) ((s.add (s.client.pending config i.table i.key i.values)).send attempts)
  /-- There is nothing left to send. -/
  | closed {attempts closes} (hempty : s.client.batch = []) :
      Moves config s (.cleanup attempts closes) { s with reported := s.reported || !closes }
  /-- What is left is sent. -/
  | flushed {attempts closes} (hne : s.client.batch ≠ []) :
      Moves config s (.cleanup attempts closes) { s.send attempts with reported := s.reported || !closes }

section

variable {config : Config} {s s' : Session} {c : Call}

theorem step_moves (h : step config s c = some s') : Moves config s c s' := by
  cases c with
  | insert attempts i =>
    rw [step, FoundationDBClient.insert] at h
    by_cases hroom : s.client.batch.length + 1 < 2 ^ 31
    · rw [if_pos hroom] at h
      dsimp only at h
      have hlen : (s.client.addElement (s.client.pending config i.table i.key i.values)).batch.length = s.client.batch.length + 1 :=
        List.length_append
      rw [hlen, Nat.cast_succ] at h
      by_cases hsize : config.batchSize = 0 ∨ config.batchSize = s.client.batch.length + 1
      · rw [if_pos hsize] at h
        cases h
        simpa [Status.isOk, Session.add, Session.send] using Moves.sent hroom hsize
      · rw [if_neg hsize] at h
        cases h
        simpa [Status.isOk, Session.add] using Moves.kept hroom hsize
    · rw [if_neg hroom] at h
      cases h
      simpa [Status.isOk] using Moves.refused hroom
  | cleanup attempts closes =>
    rw [step, FoundationDBClient.cleanup] at h
    by_cases hempty : s.client.batch = []
    · rw [hempty] at h
      cases h
      exact .closed hempty
    · rw [if_pos (List.length_pos_iff.mpr hempty)] at h
      cases h
      exact .flushed hempty

theorem inv_step (h : Inv s) (hstep : step config s c = some s') : Inv s' := by
  cases step_moves hstep with
  | refused hfull => exact ⟨h.nodup, fun p hp => Nat.lt_succ_of_lt (h.lt p hp), h.wellMade, h.batch, h.store⟩
  | @kept attempts i hroom hsize => exact inv_add h rfl i.wellMade
  | @sent attempts i hroom hsize => exact inv_send (inv_add h rfl i.wellMade)
  | closed hempty => exact ⟨h.nodup, h.lt, h.wellMade, h.batch, h.store⟩
  | @flushed attempts closes hne =>
    have hsend : Inv (s.send attempts) := inv_send h
    exact ⟨hsend.nodup, hsend.lt, hsend.wellMade, hsend.batch, hsend.store⟩

/-- **A call loses nothing just if a batch that it sends is delivered.** -/
theorem nothingLost_step (h : Inv s) (hs : NothingLost s) (hstep : step config s c = some s') :
    NothingLost s' ↔ DeliversBatch config s c := by
  cases step_moves hstep with
  | refused hfull => exact iff_of_true hs fun hroom => absurd hroom hfull
  | kept hroom hsize => exact iff_of_true ((nothingLost_add h rfl).mpr hs) fun _ hsize' => absurd hsize' hsize
  | @sent attempts i hroom hsize =>
    have hinv : Inv (s.add (s.client.pending config i.table i.key i.values)) := inv_add h rfl i.wellMade
    rw [nothingLost_send hinv ((nothingLost_add h rfl).mpr hs)]
    have hne : (s.add (s.client.pending config i.table i.key i.values)).client.batch ≠ [] := List.append_ne_nil_of_right_ne_nil _ (List.cons_ne_nil _ _)
    exact ⟨fun hdel _ _ => hdel hne, fun hdel _ => hdel hroom hsize⟩
  | closed hempty => exact iff_of_true hs fun hne => absurd hempty hne
  | flushed hne => exact nothingLost_send h hs

theorem nothingLost_of_step (h : Inv s) (hstep : step config s c = some s') (hs : NothingLost s') : NothingLost s := by
  cases step_moves hstep with
  | refused hfull => exact hs
  | kept hroom hsize => exact (nothingLost_add h rfl).mp hs
  | @sent attempts i hroom hsize =>
    have hinv : Inv (s.add (s.client.pending config i.table i.key i.values)) := inv_add h rfl i.wellMade
    exact (nothingLost_add h rfl).mp (nothingLost_of_send hinv hs)
  | closed hempty => exact hs
  | flushed hne => exact nothingLost_of_send h hs

/-- A call reports something unless it is silent. -/
theorem reported_step (hstep : step config s c = some s') : s'.reported = false ↔ s.reported = false ∧ Silent s c := by
  cases step_moves hstep with
  | refused hfull => exact iff_of_false Bool.true_eq_false.mp fun h => hfull h.2
  | kept hroom hsize => exact ⟨fun h => ⟨h, hroom⟩, And.left⟩
  | sent hroom hsize => exact ⟨fun h => ⟨h, hroom⟩, And.left⟩
  | closed hempty => simp [Silent]
  | flushed hne => simp [Silent]

end

theorem inv_init : Inv .init :=
  ⟨List.nodup_nil, fun _ hp => absurd hp List.not_mem_nil, fun _ hp => absurd hp List.not_mem_nil, List.Sublist.refl _,
    fun _ hr => absurd hr List.not_mem_nil⟩

/-- Nothing is reported in a run just if all its calls are silent. -/
theorem reported_exec {config : Config} {s t : Session} {calls : List Call} (h : exec (step config) s calls = some t) :
    t.reported = false ↔ s.reported = false ∧ Meets (step config) Silent s calls := by
  induction calls generalizing s with
  | nil =>
    cases h
    exact ⟨fun hr => ⟨hr, trivial⟩, And.left⟩
  | cons c calls ih =>
    obtain ⟨s', hs', hrest⟩ := exec_cons h
    rw [ih hrest, reported_step hs', and_assoc]
    refine and_congr_right fun _ => and_congr_right fun _ => ⟨fun hm s'' hs'' => ?_, fun hm => hm s' hs'⟩
    rwa [← Option.some.inj (hs'.symm.trans hs'')]

/-- After `cleanup` the batch is empty. -/
theorem batch_cleanup {config : Config} {s s' : Session} {attempts : List Bool} {closes : Bool}
    (h : step config s (.cleanup attempts closes) = some s') : s'.client.batch = [] := by
  cases step_moves h with
  | closed hempty => exact hempty
  | flushed hne => rfl

/-- A record of one field, which is a string. -/
def oneString : Insert where
  table := [0x74]
  key := [0x6B]
  values := AList.singleton [0x66] (.string (.ofString [0x61]))
  wellMade := by
    intro e he
    rw [AList.singleton_entries, List.mem_singleton] at he
    subst he
    exact Nat.zero_le _

end YcsbIvs.FoundationDB
