import YcsbIvs.Core.DB
import YcsbIvs.Core.Resends
import YcsbIvs.Foundations.Loops

/-!
# The binding for Couchbase 2

An insert by key encodes the values as a document and sends it, up to 60 times while the server answers with a temporary failure. The
document is encoded again for every attempt. Without `couchbase.syncMutationResponse` the answer is not waited for, and the insert succeeds
whatever it is.

The text of a document is kept as its fields.

`insert_iff` is the exact condition on the answers and the values under which every attempt sends what the iterators gave when `insert` was called, and the
document stored has that if the insert succeeds.
-/

namespace YcsbIvs.Couchbase2

open YcsbIvs.Foundations YcsbIvs.Core

/-- What comes of sending a document. -/
inductive Reply where
  /-- It is stored. -/
  | done
  /-- `TemporaryFailureException`, and whether the sleep after it is interrupted. -/
  | tmpfail (interrupted : Bool)
  /-- Another exception. -/
  | fails
  deriving DecidableEq

/-- The fields of the documents, by document ID. -/
abbrev Bucket := Utf16 → Option (List (Utf16 × Utf16))

/-- A call of `insertKv`. -/
structure Call where
  /-- The documents. -/
  bucket : Bucket
  /-- The attempts made. -/
  attempts : Attempts

/-- `formatId(prefix, key)`. -/
def formatId (table key : Utf16) : Utf16 := table ++ 0x3A :: key

/-- The documents after one has been sent. -/
def Bucket.after (bucket : Bucket) (docId : Utf16) (fields : List (Utf16 × Utf16)) (reply : Reply) : Bucket := fun k =>
  if reply = .done ∧ k = docId then some fields else bucket k

/-- What `waitForMutationResponse(input)` comes to. -/
def waitForMutationResponse (syncMutResponse : Bool) (reply : Reply) : Reply := if syncMutResponse then reply else .done

/-- The body of the loop in `insertKv`. It ends the loop with the status returned, or with none if it throws. -/
def insertBody (syncMutResponse : Bool) (docId : Utf16) (c : Call) (reply : Reply) : (Option Status × Call) ⊕ Call :=
  match c.attempts.next with
  | .error _ => .inl (none, c)
  | .ok (document, attempts) =>
    let c : Call := ⟨c.bucket.after docId document reply, attempts⟩
    match waitForMutationResponse syncMutResponse reply with
    | .done => .inl (some .ok, c)
    | .tmpfail false => .inr c
    | .tmpfail true => .inl (none, c)
    | .fails => .inl (none, c)

/-- `tries`. -/
def tries : ℕ := 60

/-- `insertKv(docId, values)`. It throws if there are no tries left. -/
def insertKv (syncMutResponse : Bool) (docId : Utf16) (replies : ℕ → Reply) (c : Call) : Option Status × Call :=
  match loop (insertBody syncMutResponse docId) c (firstRounds replies tries) with
  | .inl r => r
  | .inr c => (none, c)

/-- `insert(table, key, values)`, by key and without `couchbase.upsert`. -/
def insert (syncMutResponse : Bool) (replies : ℕ → Reply) (bucket : Bucket) (table key : Utf16) (values : Entries) : Status × Call :=
  let (status, c) := insertKv syncMutResponse (formatId table key) replies ⟨bucket, ⟨values, []⟩⟩
  (status.getD .error, c)

/-- Every attempt has sent what the values were, and if the insert has succeeded that is stored. -/
structure SendsTheSame (values : Entries) (docId : Utf16) (r : Status × Call) : Prop where
  /-- What has been sent. -/
  sent : ∀ fields ∈ r.2.attempts.sent, texts values = some fields
  /-- What is stored. -/
  stored : r.1 = .ok → ∃ fields, texts values = some fields ∧ r.2.bucket docId = some fields

/-- If the values can be read: an answer that is not waited for is that they are stored, or they are already; and after a temporary failure
of the first attempt they can be read again. -/
def Steady (syncMutResponse : Bool) (replies : ℕ → Reply) (bucket : Bucket) (docId : Utf16) (values : Entries) : Prop :=
  ∀ fields, texts values = some fields →
    (syncMutResponse = false → replies 0 = .done ∨ bucket docId = some fields) ∧
      (syncMutResponse = true → replies 0 = .tmpfail false → Rereadable values)

/-! ### One round -/

variable {syncMutResponse : Bool} {docId : Utf16} {replies : ℕ → Reply} {values : Entries} {c c' : Call} {reply : Reply}
  {r : Option Status × Call}

/-- What has been sent follows the values, in this many attempts at least. -/
def Sent (values : Entries) (n : ℕ) (c : Call) : Prop := Follows values c.attempts ∧ n ≤ c.attempts.sent.length

theorem sent_of_next {n : ℕ} (hc : Sent values n c) {r : List (Utf16 × Utf16) × Attempts} (h : c.attempts.next = .ok r) (bucket : Bucket) :
    Sent values (n + 1) ⟨bucket, r.2⟩ := by
  refine ⟨hc.1.step h, ?_⟩
  rw [(next_eq_ok.mp h).2, List.length_append]
  exact Nat.add_le_add_right hc.2 1

/-- A round that goes on has made one more attempt. -/
theorem sent_of_again {n : ℕ} (hc : Sent values n c) (h : insertBody syncMutResponse docId c reply = .inr c') : Sent values (n + 1) c' := by
  rw [insertBody] at h
  cases hnext : c.attempts.next with
  | error e => simp [hnext] at h
  | ok r =>
    simp only [hnext] at h
    split at h <;> cases h
    exact sent_of_next hc hnext _

/-- So has one that ends the loop, unless it was the first; and what is stored then has been sent. -/
theorem sent_of_ends {n : ℕ} (hc : Sent values n c) (hpos : 0 < n) (h : insertBody true docId c reply = .inl r) :
    Sent values (n + 1) r.2 ∧ (r.1 = some .ok → ∃ fields ∈ r.2.attempts.sent, r.2.bucket docId = some fields) := by
  have hne : c.attempts.sent ≠ [] := List.ne_nil_of_length_pos (Nat.lt_of_lt_of_le hpos hc.2)
  obtain ⟨document, attempts, hnext⟩ := hc.1.exists_next fun h => absurd h hne
  have hsent : document ∈ attempts.sent := by simp [(next_eq_ok.mp hnext).2]
  have hmore := sent_of_next hc hnext (c.bucket.after docId document reply)
  simp only [insertBody, hnext, waitForMutationResponse, if_true] at h
  split at h <;> cases h
  · exact ⟨hmore, fun _ => ⟨document, hsent, if_pos ⟨rfl, rfl⟩⟩⟩
  · exact ⟨hmore, fun h => nomatch h⟩
  · exact ⟨hmore, fun h => nomatch h⟩

/-- After a temporary failure there is a second attempt; and what is stored if the insert succeeds has been sent. -/
theorem insertKv_of_tmpfail (hc : Sent values 0 c) {o : List (Utf16 × Utf16) × Attempts} (hnext : c.attempts.next = .ok o)
    (hreply : replies 0 = .tmpfail false) (hr : insertKv true docId replies c = r) :
    Sent values 2 r.2 ∧ (r.1 = some .ok → ∃ fields ∈ r.2.attempts.sent, r.2.bucket docId = some fields) := by
  obtain ⟨c₁, hfirst⟩ : ∃ c₁, insertBody true docId c (replies 0) = .inr c₁ := by
    simp [insertBody, hnext, hreply, waitForMutationResponse]
  have h₁ : Sent values 1 c₁ := sent_of_again hc hfirst
  have hfewer : ∀ n (c : Call), Sent values (n + 1) c → Sent values n c := fun n c h => ⟨h.1, Nat.le_of_succ_le h.2⟩
  rw [insertKv, show tries = 58 + 1 + 1 from rfl, firstRounds_succ_eq_cons, loop_cons_again hfirst, firstRounds_succ_eq_cons] at hr
  subst hr
  cases hsecond : insertBody true docId c₁ (replies (0 + 1)) with
  | inl r =>
    rw [loop_cons_ends hsecond]
    exact sent_of_ends h₁ Nat.one_pos hsecond
  | inr c₂ =>
    have h₂ : Sent values 2 c₂ := sent_of_again h₁ hsecond
    have hagain : ∀ (c : Call) l c', Sent values 2 c → insertBody true docId c l = .inr c' → Sent values 2 c' :=
      fun c l c' hc h => hfewer 2 c' (sent_of_again hc h)
    rw [loop_cons_again hsecond]
    cases hrest : loop (insertBody true docId) c₂ (firstRounds (fun i => replies (i + 1 + 1)) 58) with
    | inl r =>
      refine loop_result (Q := fun r => Sent values 2 r.2 ∧ (r.1 = some .ok → ∃ fields ∈ r.2.attempts.sent, r.2.bucket docId = some fields))
        hagain (fun c l r hc h => ?_) h₂ hrest
      obtain ⟨hsent, hstored⟩ := sent_of_ends hc Nat.two_pos h
      exact ⟨hfewer 2 r.2 hsent, hstored⟩
    | inr c₃ => exact ⟨loop_again hagain h₂ hrest, fun h => nomatch h⟩

/-! ### The call -/

/-- If the first round ends the loop the call ends with it. -/
theorem insertKv_of_ends (h : insertBody syncMutResponse docId c (replies 0) = .inl r) : insertKv syncMutResponse docId replies c = r := by
  rw [insertKv, show tries = 59 + 1 from rfl, firstRounds_succ_eq_cons, loop_cons_ends h]

/-- So it does if the first answer is not a temporary failure that is waited for. -/
theorem ends_of_next {o : List (Utf16 × Utf16) × Attempts} (hnext : c.attempts.next = .ok o)
    (h : ¬ (syncMutResponse = true ∧ reply = .tmpfail false)) :
    insertBody syncMutResponse docId c reply =
      .inl (if waitForMutationResponse syncMutResponse reply = .done then some .ok else none, ⟨c.bucket.after docId o.1 reply, o.2⟩) := by
  simp only [insertBody, hnext]
  cases syncMutResponse with
  | false => rfl
  | true =>
    cases reply with
    | done => rfl
    | fails => rfl
    | tmpfail interrupted =>
      cases interrupted with
      | false => exact absurd ⟨rfl, rfl⟩ h
      | true => rfl

theorem insert_of_ends {table key : Utf16} {bucket : Bucket}
    (h : insertBody syncMutResponse (formatId table key) ⟨bucket, ⟨values, []⟩⟩ (replies 0) = .inl r) :
    insert syncMutResponse replies bucket table key values = (r.1.getD .error, r.2) := by
  rw [insert, insertKv_of_ends h]

/-- Of a call that has made one attempt it is left to say what is stored. -/
theorem sendsTheSame_once {s : Status × Call} {fields : List (Utf16 × Utf16)} (htexts : texts values = some fields)
    (hsent : s.2.attempts.sent = [fields]) : SendsTheSame values docId s ↔ (s.1 = .ok → s.2.bucket docId = some fields) := by
  constructor
  · intro h hok
    obtain ⟨fields', htexts', hstored⟩ := h.stored hok
    rwa [← Option.some.inj (htexts'.symm.trans htexts)]
  · intro h
    refine ⟨fun f hf => ?_, fun hok => ⟨fields, htexts, h hok⟩⟩
    rw [hsent, List.mem_singleton] at hf
    rw [hf, htexts]

/-- Of a call that has made two at least, that the values can be read again. -/
theorem sendsTheSame_again {s : Status × Call} (hsent : Sent values 2 s.2)
    (hstored : s.1 = .ok → ∃ fields ∈ s.2.attempts.sent, s.2.bucket docId = some fields) : SendsTheSame values docId s ↔ Rereadable values := by
  have hsame := hsent.1.sent_iff
  rw [or_iff_right (by have := hsent.2; omega)] at hsame
  constructor
  · exact fun h => hsame.mp h.sent
  · intro hread
    refine ⟨hsame.mpr hread, fun hok => ?_⟩
    obtain ⟨fields, hmem, heq⟩ := hstored hok
    exact ⟨fields, hsame.mpr hread fields hmem, heq⟩

/-- **When the attempts send the same**, and that is what is stored. -/
theorem insert_iff (hmade : ∀ e ∈ values, e.2.WellMade) (bucket : Bucket) (table key : Utf16) :
    SendsTheSame values (formatId table key) (insert syncMutResponse replies bucket table key values) ↔
      Steady syncMutResponse replies bucket (formatId table key) values := by
  have hstart : Follows values ⟨values, []⟩ := follows_start hmade
  cases htexts : texts values with
  | none =>
    obtain ⟨e, hnext⟩ := next_of_texts_none (c := ⟨values, []⟩) htexts
    rw [insert_of_ends (r := (none, ⟨bucket, ⟨values, []⟩⟩)) (by simp [insertBody, hnext])]
    exact iff_of_true ⟨fun f hf => (nomatch hf), fun h => (nomatch h)⟩ fun f hf => (nomatch htexts.symm.trans hf)
  | some fields =>
    obtain ⟨attempts, hnext⟩ := next_of_texts (c := ⟨values, []⟩) htexts
    have hsent : attempts.sent = [fields] := (next_eq_ok.mp hnext).2
    -- What is asked of the answers.
    have hsteady : Steady syncMutResponse replies bucket (formatId table key) values ↔
        (syncMutResponse = false → replies 0 = .done ∨ bucket (formatId table key) = some fields) ∧
          (syncMutResponse = true → replies 0 = .tmpfail false → Rereadable values) :=
      ⟨fun h => h fields htexts, fun h f hf => Option.some.inj (htexts.symm.trans hf) ▸ h⟩
    rw [hsteady]
    by_cases hagain : syncMutResponse = true ∧ replies 0 = .tmpfail false
    · obtain ⟨rfl, hreply⟩ := hagain
      cases hr : insertKv true (formatId table key) replies ⟨bucket, ⟨values, []⟩⟩ with
      | mk status c =>
        obtain ⟨htwo, hstored⟩ := insertKv_of_tmpfail ⟨hstart, Nat.zero_le _⟩ hnext hreply hr
        have hinsert : insert true replies bucket table key values = (status.getD .error, c) := by rw [insert, hr]
        have hok : status.getD .error = .ok → status = some .ok := by cases status <;> simp
        rw [hinsert, sendsTheSame_again htwo fun h => hstored (hok h)]
        simp [hreply]
    · rw [insert_of_ends (ends_of_next hnext hagain), sendsTheSame_once htexts hsent]
      have hafter : bucket.after (formatId table key) fields (replies 0) (formatId table key) = some fields ↔
          replies 0 = .done ∨ bucket (formatId table key) = some fields := by
        by_cases hdone : replies 0 = .done <;> simp [Bucket.after, hdone]
      dsimp only
      rw [hafter]
      cases syncMutResponse with
      | false => simp [waitForMutationResponse]
      | true =>
        by_cases hdone : replies 0 = .done
        · simp [waitForMutationResponse, hdone]
        · have hno : replies 0 ≠ .tmpfail false := fun h => hagain ⟨rfl, h⟩
          simp [waitForMutationResponse, hdone, hno]

end YcsbIvs.Couchbase2
