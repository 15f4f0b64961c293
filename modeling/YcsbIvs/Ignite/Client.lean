import YcsbIvs.Core.Resends
import YcsbIvs.Couchbase2.Client
import YcsbIvs.Jdbc.Statements

/-!
# The Ignite binding with SQL: updating

`update` makes a statement of the values and executes it, and does so again as long as that fails because the row has been modified
concurrently. The arguments are made again for every attempt. There is no bound on the attempts; `update_iff` is about any number of
them.

An update of a key that has no row changes nothing, and succeeds.

`resends_iff` puts the binding beside that for Couchbase 2, which makes its document again for every attempt.
-/

namespace YcsbIvs.Ignite

open YcsbIvs.Foundations YcsbIvs.Core YcsbIvs.Jdbc

/-- `PRIMARY_KEY`. -/
def primaryKey : Utf16 := text "YCSB_KEY"

/-- The text in the message of an exception after which `update` tries again. -/
def modifiedConcurrently : Utf16 := text "Failed to update some keys because they had been modified concurrently"

/-- `s.contains(t)`. -/
def contains (s t : Utf16) : Bool := s.tails.any fun rest => t.isPrefixOf rest

/-- What comes of executing a statement. -/
inductive Reply where
  /-- It is executed. -/
  | done
  /-- `CacheException`, with its message if there is one. -/
  | cacheException (message : Option Utf16)
  /-- Another exception. -/
  | fails
  deriving DecidableEq

/-- `UpdateData`. -/
structure UpdateData where
  /-- `args`. -/
  args : List Utf16
  /-- `fields`. -/
  fields : List Utf16

/-- `new UpdateData(key, values)`, of the names and texts of the values. -/
def UpdateData.new (key : Utf16) (values : List (Utf16 × Utf16)) : UpdateData where
  args := values.map Prod.snd ++ [key]
  fields := values.map Prod.fst

/-- `SqlFieldsQuery`. -/
structure SqlFieldsQuery where
  /-- The text. -/
  sql : Utf16
  /-- What `setArgs` sets. -/
  args : List Utf16

/-- The query that `update` makes. -/
def UpdateData.query (updData : UpdateData) (table : Utf16) : SqlFieldsQuery where
  sql := text "UPDATE " ++ table ++ text " SET " ++ setClauses updData.fields ++ text " WHERE " ++ primaryKey ++ text "=?"
  args := updData.args

/-- The columns of the rows of a table, by key. -/
abbrev Rows := Utf16 → Option (Utf16 → Option Utf16)

/-- What the query does to the rows: the row of the last argument has the other arguments in the columns named. -/
def UpdateData.execute (updData : UpdateData) (rows : Rows) : Rows := fun k =>
  if updData.args.getLast? = some k then
    (rows k).map fun row f => (((updData.fields.zip updData.args).find? fun p => p.1 = f).map Prod.snd).or (row f)
  else rows k

/-- A call of `update`. -/
structure Call where
  /-- The rows of the table. -/
  rows : Rows
  /-- The attempts made. -/
  attempts : Attempts
  /-- The queries executed. -/
  queries : List SqlFieldsQuery

/-- Whether `update` tries again. -/
def Reply.Again : Reply → Prop
  | cacheException (some message) => contains message modifiedConcurrently = true
  | _ => False

/-- The body of the loop. It ends the loop with the status returned, or with what `getMessage().contains` throws. -/
def updateBody (table key : Utf16) (c : Call) (reply : Reply) : (Except Throwable Status × Call) ⊕ Call :=
  match c.attempts.next with
  | .error _ => .inl (.ok .error, c)
  | .ok (strings, attempts) =>
    let updData := UpdateData.new key strings
    let c : Call := ⟨c.rows, attempts, c.queries ++ [updData.query table]⟩
    match reply with
    | .done => .inl (.ok .ok, { c with rows := updData.execute c.rows })
    | .cacheException none => .inl (.error .nullPointer, c)
    | .cacheException (some message) => if contains message modifiedConcurrently then .inr c else .inl (.ok .error, c)
    | .fails => .inl (.ok .error, c)

/-- The call before the first attempt. -/
def start (rows : Rows) (values : Values Utf16) : Call := ⟨rows, ⟨values.entries, []⟩, []⟩

/-- `update(table, key, values)` after the attempts that these answers are for. -/
def updateAfter (table key : Utf16) (rows : Rows) (values : Values Utf16) (replies : List Reply) : Call :=
  (loop (updateBody table key) (start rows values) replies).elim Prod.snd id

/-- Every attempt sends what the values were, and if the update succeeds that is stored. -/
structure SendsTheSame (table key : Utf16) (rows : Rows) (values : Values Utf16) (replies : ℕ → Reply) : Prop where
  /-- What has been sent, after any number of attempts. -/
  sent : ∀ n, ∀ query ∈ (updateAfter table key rows values (firstRounds replies n)).queries,
    ∃ fields, texts values.entries = some fields ∧ query = (UpdateData.new key fields).query table
  /-- What is stored. -/
  stored : ∀ c, Ends (updateBody table key) (start rows values) replies (.ok .ok, c) →
    ∃ fields, texts values.entries = some fields ∧ ∀ p ∈ fields, (c.rows key).bind (fun row => row p.1) = some p.2

/-- If the values can be read: they can be read again, if the first attempt is made again; and there are none or there is a row, if an attempt
succeeds after others that were made again. -/
def Steady (key : Utf16) (rows : Rows) (values : Values Utf16) (replies : ℕ → Reply) : Prop :=
  ∀ fields, texts values.entries = some fields →
    ((replies 0).Again → Rereadable values.entries) ∧
      ∀ n, replies n = .done → (∀ m < n, (replies m).Again) → fields = [] ∨ (rows key).isSome

/-! ### The query -/

section

variable {table key : Utf16} {fields fields' : List (Utf16 × Utf16)}

/-- The arguments of a query tell the texts. -/
theorem query_inj (hnames : fields.map Prod.fst = fields'.map Prod.fst) :
    (UpdateData.new key fields).query table = (UpdateData.new key fields').query table ↔ fields = fields' := by
  refine ⟨fun h => ?_, fun h => by rw [h]⟩
  have hargs : fields.map Prod.snd ++ [key] = fields'.map Prod.snd ++ [key] := congrArg SqlFieldsQuery.args h
  have htexts := List.append_cancel_right hargs
  rw [← List.zip_unzip fields, ← List.zip_unzip fields', List.unzip_eq_map, List.unzip_eq_map, hnames, htexts]

/-- A name that is there once is found with its text. -/
theorem find?_of_nodup (hnd : (fields.map Prod.fst).Nodup) {p : Utf16 × Utf16} (hp : p ∈ fields) :
    fields.find? (fun q => q.1 = p.1) = some p := by
  induction fields with
  | nil => cases hp
  | cons q fields ih =>
    obtain ⟨hq, hnd⟩ := List.nodup_cons.mp hnd
    rcases List.mem_cons.mp hp with rfl | hp
    · exact List.find?_cons_of_pos (by simp)
    · have hne : q.1 ≠ p.1 := fun heq => hq (heq ▸ List.mem_map_of_mem hp)
      rw [List.find?_cons_of_neg (by simpa using hne), ih hnd hp]

/-- Executed, it puts the texts into the row of the key if there is one. -/
theorem execute_key (hnd : (fields.map Prod.fst).Nodup) (rows : Rows) {p : Utf16 × Utf16} (hp : p ∈ fields) :
    ((UpdateData.new key fields).execute rows key).bind (fun row => row p.1) = (rows key).map fun _ => p.2 := by
  have hzip : (fields.map Prod.fst).zip (fields.map Prod.snd ++ [key]) = fields := by
    rw [← List.append_nil (fields.map Prod.fst), List.zip_append (by simp), List.zip_nil_left, List.append_nil, ← List.unzip_fst, ← List.unzip_snd]
    exact List.zip_unzip fields
  rw [UpdateData.execute, UpdateData.new, if_pos (by simp), Option.bind_map]
  simp only [hzip, Function.comp, find?_of_nodup hnd hp]
  cases rows key <;> rfl

/-- No row is made. -/
theorem execute_of_none (updData : UpdateData) {rows : Rows} (h : rows key = none) : updData.execute rows key = none := by
  rw [UpdateData.execute, h, Option.map_none, ite_self]

end

/-! ### Rounds -/

variable {table key : Utf16} {rows : Rows} {values : Values Utf16} {c c' : Call} {reply : Reply}

/-- What the rounds before the end leave. -/
structure Sent (table key : Utf16) (values : Values Utf16) (c : Call) : Prop where
  /-- What has been sent follows the values. -/
  follows : Follows values.entries c.attempts
  /-- The queries are those that send it. -/
  queries : c.queries = c.attempts.sent.map fun fields => (UpdateData.new key fields).query table

theorem sent_start (table key : Utf16) (rows : Rows) (hmade : ∀ e ∈ values.entries, e.2.WellMade) : Sent table key values (start rows values) := ⟨follows_start hmade, rfl⟩

/-- The body, if the values can be read. -/
theorem updateBody_of_next (table key : Utf16) (reply : Reply) {o : List (Utf16 × Utf16) × Attempts} (hnext : c.attempts.next = .ok o) :
    (reply.Again → updateBody table key c reply = .inr ⟨c.rows, o.2, c.queries ++ [(UpdateData.new key o.1).query table]⟩) ∧
      (¬ reply.Again → ∃ status, updateBody table key c reply =
        .inl (status, ⟨if reply = .done then (UpdateData.new key o.1).execute c.rows else c.rows, o.2,
          c.queries ++ [(UpdateData.new key o.1).query table]⟩) ∧ (status = .ok .ok ↔ reply = .done)) := by
  simp only [updateBody, hnext]
  cases reply with
  | done => exact ⟨fun h => (nomatch h), fun _ => ⟨_, rfl, by simp⟩⟩
  | fails => exact ⟨fun h => (nomatch h), fun _ => ⟨_, rfl, by simp⟩⟩
  | cacheException message =>
    cases message with
    | none => exact ⟨fun h => (nomatch h), fun _ => ⟨_, rfl, by simp⟩⟩
    | some message =>
      refine ⟨fun h => ?_, fun h => ⟨.ok .error, ?_, by simp⟩⟩
      · have hin : contains message modifiedConcurrently = true := h
        simp [hin]
      · have hin : ¬ contains message modifiedConcurrently = true := h
        simp [hin]

theorem sent_of_next (hc : Sent table key values c) {o : List (Utf16 × Utf16) × Attempts} (hnext : c.attempts.next = .ok o) (rows : Rows) :
    Sent table key values ⟨rows, o.2, c.queries ++ [(UpdateData.new key o.1).query table]⟩ :=
  ⟨hc.follows.step hnext, by rw [(next_eq_ok.mp hnext).2, List.map_append, ← hc.queries]; rfl⟩

/-- Every round keeps it. -/
theorem sent_of_body (hc : Sent table key values c) (reply : Reply) : Sent table key values ((updateBody table key c reply).elim Prod.snd id) := by
  cases hnext : c.attempts.next with
  | error e => simpa [updateBody, hnext] using hc
  | ok o =>
    obtain ⟨hagain, hends⟩ := updateBody_of_next table key reply hnext
    by_cases h : reply.Again
    · rw [hagain h]
      exact sent_of_next hc hnext _
    · obtain ⟨status, hbody, -⟩ := hends h
      rw [hbody]
      exact sent_of_next hc hnext _

/-- So after any number of attempts. -/
theorem sent_updateAfter (table key : Utf16) (rows : Rows) (hmade : ∀ e ∈ values.entries, e.2.WellMade) (replies : List Reply) :
    Sent table key values (updateAfter table key rows values replies) :=
  loop_keeps (J := Sent table key values) (fun _ reply hc => sent_of_body hc reply) (sent_start table key rows hmade) replies

/-- The queries are those of the values just if what has been sent is. -/
theorem queries_iff (hc : Sent table key values c) {fields : List (Utf16 × Utf16)} (htexts : texts values.entries = some fields) :
    (∀ query ∈ c.queries, ∃ fields, texts values.entries = some fields ∧ query = (UpdateData.new key fields).query table) ↔
      c.attempts.sent.length ≤ 1 ∨ Rereadable values.entries := by
  obtain ⟨left, hmap⟩ := texts_eq_some.mp htexts
  rw [← hc.follows.sent_iff, hc.queries, List.forall_mem_map]
  refine forall₂_congr fun sent hsent => ?_
  have hnames : sent.map Prod.fst = fields.map Prod.fst := (hc.follows.sentNames sent hsent).trans (keys_getStringMap hmap).symm
  simp only [htexts, Option.some_inj, exists_eq_left', query_inj hnames, eq_comm]

/-- Before the end the rows are as they were. -/
structure Before (table key : Utf16) (rows : Rows) (values : Values Utf16) (c : Call) : Prop extends Sent table key values c where
  /-- No query has been executed. -/
  rows_eq : c.rows = rows

theorem exists_next (hc : Sent table key values c) {fields : List (Utf16 × Utf16)} (htexts : texts values.entries = some fields) :
    ∃ o, c.attempts.next = .ok o := by
  obtain ⟨sent, attempts, hnext⟩ := hc.follows.exists_next fun _ => ⟨fields, htexts⟩
  exact ⟨_, hnext⟩

theorem before_of_again (hc : Before table key rows values c) (h : updateBody table key c reply = .inr c') : Before table key rows values c' := by
  have hsent : Sent table key values c' := by
    have := sent_of_body hc.toSent reply
    rwa [h] at this
  refine ⟨hsent, ?_⟩
  rw [updateBody] at h
  cases hnext : c.attempts.next with
  | error e => simp [hnext] at h
  | ok o =>
    simp only [hnext] at h
    split at h
    · cases h
    · cases h
    · split_ifs at h
      cases h
      exact hc.rows_eq
    · cases h

/-- If the values can be read an attempt is made again just as its answer says. -/
theorem again_iff {fields : List (Utf16 × Utf16)} (htexts : texts values.entries = some fields) (hc : Before table key rows values c) :
    (∃ c', updateBody table key c reply = .inr c') ↔ reply.Again := by
  obtain ⟨o, hnext⟩ := exists_next hc.toSent htexts
  obtain ⟨hagain, hends⟩ := updateBody_of_next table key reply hnext
  refine ⟨fun ⟨c', h⟩ => ?_, fun h => ⟨_, hagain h⟩⟩
  by_contra hnot
  obtain ⟨status, hbody, -⟩ := hends hnot
  rw [hbody] at h
  cases h

/-! ### The call -/

section

variable {replies : ℕ → Reply} {fields : List (Utf16 × Utf16)}

theorem before_start (hmade : ∀ e ∈ values.entries, e.2.WellMade) : Before table key rows values (start rows values) :=
  ⟨sent_start table key rows hmade, rfl⟩

/-- The rounds before a round have been made again just as their answers say. -/
theorem rounds_again_iff (table key : Utf16) (rows : Rows) (hmade : ∀ e ∈ values.entries, e.2.WellMade) (htexts : texts values.entries = some fields) {n : ℕ} :
    (∃ c, loop (updateBody table key) (start rows values) (firstRounds replies n) = .inr c) ↔ ∀ m < n, (replies m).Again := by
  rw [loop_again_iff (I := Before table key rows values) (A := Reply.Again) (fun _ _ _ => before_of_again) (fun _ _ => again_iff htexts)
    (before_start hmade)]
  exact forall_mem_firstRounds

/-- An update that succeeds has executed a query, in the row of the key if there is one. -/
theorem ends_ok_iff (hmade : ∀ e ∈ values.entries, e.2.WellMade) (htexts : texts values.entries = some fields) {c : Call} :
    Ends (updateBody table key) (start rows values) replies (.ok .ok, c) ↔
      ∃ n before, loop (updateBody table key) (start rows values) (firstRounds replies n) = .inr before ∧ replies n = .done ∧
        Before table key rows values before ∧ ∃ o, before.attempts.next = .ok o ∧
          c = ⟨(UpdateData.new key o.1).execute rows, o.2, before.queries ++ [(UpdateData.new key o.1).query table]⟩ := by
  rw [ends_iff]
  refine exists₂_congr fun n before => and_congr_right fun hloop => ?_
  have hbefore : Before table key rows values before := loop_again (fun _ _ _ => before_of_again) (before_start hmade) hloop
  obtain ⟨o, hnext⟩ := exists_next hbefore.toSent htexts
  obtain ⟨hagain, hends⟩ := updateBody_of_next table key (replies n) hnext
  constructor
  · intro h
    by_cases hr : (replies n).Again
    · rw [hagain hr] at h
      cases h
    · obtain ⟨status, hbody, hstatus⟩ := hends hr
      obtain ⟨rfl, rfl⟩ := Prod.mk.inj (Sum.inl.inj (hbody.symm.trans h))
      have hdone := hstatus.mp rfl
      exact ⟨hdone, hbefore, o, hnext, by rw [if_pos hdone, hbefore.rows_eq]⟩
  · rintro ⟨hdone, -, o', hnext', rfl⟩
    obtain rfl : o = o' := Except.ok.inj (hnext.symm.trans hnext')
    obtain ⟨status, hbody, hstatus⟩ := hends (by rw [hdone]; exact id)
    rw [hbody, hstatus.mpr hdone, if_pos hdone, hbefore.rows_eq]

/-- The first attempt is the only one if its answer ends the loop. -/
theorem length_le_one (hmade : ∀ e ∈ values.entries, e.2.WellMade) (htexts : texts values.entries = some fields)
    (h : ¬ (replies 0).Again) (n : ℕ) : (updateAfter table key rows values (firstRounds replies n)).attempts.sent.length ≤ 1 := by
  cases n with
  | zero => exact Nat.zero_le 1
  | succ n =>
    obtain ⟨o, hnext⟩ := exists_next (sent_start table key rows hmade) htexts
    obtain ⟨status, hbody, -⟩ := (updateBody_of_next table key (replies 0) hnext).2 h
    rw [updateAfter, firstRounds_succ_eq_cons, loop_cons_ends hbody]
    exact le_of_eq (congrArg List.length (next_eq_ok.mp hnext).2)

/-- Otherwise there is a second. -/
theorem length_two (table key : Utf16) (rows : Rows) (hmade : ∀ e ∈ values.entries, e.2.WellMade) (htexts : texts values.entries = some fields) (h : (replies 0).Again) :
    (updateAfter table key rows values (firstRounds replies 2)).attempts.sent.length = 2 := by
  obtain ⟨o, hnext⟩ := exists_next (sent_start table key rows hmade) htexts
  have hbody := (updateBody_of_next table key (replies 0) hnext).1 h
  have hsent := sent_of_next (sent_start table key rows hmade) hnext (start rows values).rows
  obtain ⟨o', hnext'⟩ := exists_next hsent htexts
  have hlength : o'.2.sent.length = 2 := by
    rw [(next_eq_ok.mp hnext').2, (next_eq_ok.mp hnext).2]
    rfl
  obtain ⟨hagain, hends⟩ := updateBody_of_next table key (replies (0 + 1)) hnext'
  rw [updateAfter, firstRounds_succ_eq_cons, loop_cons_again hbody, firstRounds_succ_eq_cons]
  by_cases hr : (replies (0 + 1)).Again
  · rw [loop_cons_again (hagain hr)]
    exact hlength
  · obtain ⟨status, hbody', -⟩ := hends hr
    rw [loop_cons_ends hbody']
    exact hlength

/-- Values that cannot be read are never sent. -/
theorem queries_of_texts_none (hmade : ∀ e ∈ values.entries, e.2.WellMade) (htexts : texts values.entries = none) (replies : List Reply) :
    (updateAfter table key rows values replies).queries = [] := by
  have hc := sent_updateAfter table key rows hmade replies
  have hfirst := hc.follows.first
  rw [hc.queries]
  cases hall : (updateAfter table key rows values replies).attempts.sent with
  | nil => rfl
  | cons first rest =>
    rw [hall] at hfirst
    cases htexts.symm.trans (hfirst first rfl)

/-- So no update of them succeeds. -/
theorem not_ends_of_texts_none (htexts : texts values.entries = none) (c : Call) :
    ¬ Ends (updateBody table key) (start rows values) replies (.ok .ok, c) := by
  intro hends
  obtain ⟨e, hnext⟩ := next_of_texts_none (c := ⟨values.entries, []⟩) htexts
  have hbody : ∀ reply, updateBody table key (start rows values) reply = .inl (.ok .error, start rows values) := fun reply => by
    simp [updateBody, start, hnext]
  obtain ⟨n, before, hloop, hlast⟩ := ends_iff.mp hends
  cases n with
  | zero =>
    cases hloop
    rw [hbody] at hlast
    cases hlast
  | succ n =>
    rw [firstRounds_succ_eq_cons, loop_cons_ends (hbody _)] at hloop
    cases hloop

/-- If the attempts send the same, the values can be read again where they are; and what has been stored is in a row. -/
theorem steady_of_sendsTheSame (hmade : ∀ e ∈ values.entries, e.2.WellMade) (h : SendsTheSame table key rows values replies) :
    Steady key rows values replies := by
  intro fields htexts
  refine ⟨fun hagain => ?_, fun n hdone hbefore => ?_⟩
  · have hqueries := queries_iff (sent_updateAfter table key rows hmade (firstRounds replies 2)) htexts
    have htwo := length_two table key rows hmade htexts hagain
    exact (hqueries.mp (h.sent 2)).resolve_left (by omega)
  · obtain ⟨before, hloop⟩ := (rounds_again_iff table key rows hmade htexts).mpr hbefore
    have hsent : Before table key rows values before := loop_again (fun _ _ _ => before_of_again) (before_start hmade) hloop
    obtain ⟨o, hnext⟩ := exists_next hsent.toSent htexts
    obtain ⟨fields', htexts', hstored⟩ := h.stored _ ((ends_ok_iff hmade htexts).mpr ⟨n, before, hloop, hdone, hsent, o, hnext, rfl⟩)
    obtain rfl : fields = fields' := Option.some.inj (htexts.symm.trans htexts')
    cases hrow : rows key with
    | some row => exact .inr rfl
    | none =>
      refine .inl (List.eq_nil_iff_forall_not_mem.mpr fun p hp => ?_)
      have hnone := hstored p hp
      dsimp only at hnone
      rw [execute_of_none _ hrow] at hnone
      cases hnone

/-- What an update that succeeds has stored, if the values can be read again where they are. -/
theorem stored_of_steady (hmade : ∀ e ∈ values.entries, e.2.WellMade) (htexts : texts values.entries = some fields)
    (h : Steady key rows values replies) (hends : Ends (updateBody table key) (start rows values) replies (.ok .ok, c)) :
    ∀ p ∈ fields, (c.rows key).bind (fun row => row p.1) = some p.2 := by
  obtain ⟨left, hmap⟩ := texts_eq_some.mp htexts
  have hnd : (fields.map Prod.fst).Nodup := (keys_getStringMap hmap).symm ▸ values.nodupKeys
  obtain ⟨hagain, hrow⟩ := h fields htexts
  obtain ⟨n, before, hloop, hdone, hbefore, o, hnext, rfl⟩ := (ends_ok_iff hmade htexts).mp hends
  have hall := (rounds_again_iff table key rows hmade htexts).mp ⟨before, hloop⟩
  -- the last attempt has sent what the first has
  have hsame : before.attempts.sent = [] ∨ Rereadable values.entries := by
    cases n with
    | zero =>
      cases hloop
      exact .inl rfl
    | succ n => exact .inr (hagain (hall 0 (Nat.succ_pos n)))
  obtain rfl : fields = o.1 := Option.some.inj (htexts.symm.trans ((hbefore.follows.next_iff hnext).mpr hsame))
  intro p hp
  obtain ⟨row, hrow⟩ := Option.isSome_iff_exists.mp ((hrow n hdone hall).resolve_left (List.ne_nil_of_mem hp))
  rw [execute_key hnd rows hp, hrow, Option.map_some]

/-- **When the attempts send the same**, and that is what is stored. -/
theorem update_iff (hmade : ∀ e ∈ values.entries, e.2.WellMade) :
    SendsTheSame table key rows values replies ↔ Steady key rows values replies := by
  refine ⟨steady_of_sendsTheSame hmade, fun h => ?_⟩
  cases htexts : texts values.entries with
  | none =>
    refine ⟨fun n query hquery => ?_, fun c hends => absurd hends (not_ends_of_texts_none htexts c)⟩
    rw [queries_of_texts_none hmade htexts] at hquery
    cases hquery
  | some fields =>
    have hqueries := fun n => queries_iff (sent_updateAfter table key rows hmade (firstRounds replies n)) htexts
    rw [htexts] at hqueries
    refine ⟨fun n => ?_, fun c hends => ⟨fields, htexts, stored_of_steady hmade htexts h hends⟩⟩
    rw [htexts]
    refine (hqueries n).mpr ?_
    by_cases hr : (replies 0).Again
    · exact .inr ((h fields htexts).1 hr)
    · exact .inl (length_le_one hmade htexts hr n)

end

/-! ### Both bindings -/

/-- **Attempts that send the same**: of an insert into Couchbase and of an update in Ignite, each in every pattern of answers. -/
theorem resends_iff {values : Values Utf16} (hmade : ∀ e ∈ values.entries, e.2.WellMade) (table key : Utf16) (syncMutResponse : Bool)
    (kvReplies : ℕ → Couchbase2.Reply) (bucket : Couchbase2.Bucket) (replies : ℕ → Reply) (rows : Rows) :
    (Couchbase2.SendsTheSame values.entries (Couchbase2.formatId table key)
        (Couchbase2.insert syncMutResponse kvReplies bucket table key values.entries) ↔
      Couchbase2.Steady syncMutResponse kvReplies bucket (Couchbase2.formatId table key) values.entries) ∧
    (SendsTheSame table key rows values replies ↔ Steady key rows values replies) :=
  ⟨Couchbase2.insert_iff hmade bucket table key, update_iff hmade⟩

/-- One random value. -/
def oneValue : Values Utf16 := AList.singleton [0x66] (.random (.ofLength 1 fun _ => 1))

theorem wellMade_oneValue : ∀ e ∈ oneValue.entries, e.2.WellMade := by
  intro e he
  rw [oneValue, AList.singleton_entries, List.mem_singleton] at he
  subst he
  exact le_refl 0

/-- The value, the first time an attempt is not made again. -/
theorem resends_iff_once :
    Couchbase2.SendsTheSame oneValue.entries (Couchbase2.formatId [0x74] [0x6B])
        (Couchbase2.insert true (fun _ => .done) (fun _ => none) [0x74] [0x6B] oneValue.entries) ∧
      SendsTheSame [0x74] [0x6B] (fun _ => some fun _ => none) oneValue (fun _ => .done) := by
  obtain ⟨hinsert, hupdate⟩ := resends_iff wellMade_oneValue [0x74] [0x6B] true (fun _ => .done) (fun _ => none) (fun _ => .done)
    fun _ => some fun _ => none
  refine ⟨hinsert.mpr fun fields htexts => ⟨fun h => (nomatch h), fun _ h => (nomatch h)⟩, hupdate.mpr fun fields htexts => ⟨fun h => ?_, fun n _ _ => .inr rfl⟩⟩
  exact absurd h id

/-- After a temporary failure the second attempt of an insert sends an empty value, and that is stored. -/
theorem not_resends :
    ¬ ∀ (values : Values Utf16) (table key : Utf16) (syncMutResponse : Bool) (kvReplies : ℕ → Couchbase2.Reply) (bucket : Couchbase2.Bucket)
        (replies : ℕ → Reply) (rows : Rows), (∀ e ∈ values.entries, e.2.WellMade) →
      Couchbase2.SendsTheSame values.entries (Couchbase2.formatId table key)
          (Couchbase2.insert syncMutResponse kvReplies bucket table key values.entries) ∧
        SendsTheSame table key rows values replies := by
  intro h
  obtain ⟨hinsert, -⟩ := h oneValue [0x74] [0x6B] true (fun i => if i = 0 then .tmpfail false else .done) (fun _ => none) (fun _ => .done)
    (fun _ => some fun _ => none) wellMade_oneValue
  have hsecond := hinsert.sent [([0x66], [])] (by decide +kernel)
  exact absurd hsecond (by decide +kernel)

end YcsbIvs.Ignite
