import YcsbIvs.MongoDB.Client

/-!
# What a MongoDB batch loses

An insert that is answered `OK` or `BATCHED_OK` should have its document delivered, once
and to the collection of its table, by the time `cleanup` returns (`LosesNothing`). With a
`batchsize` above one this fails in three ways: `cleanup` does not send the documents
that are pending; a batch goes to the collection of its last document; and a batch whose
sending throws stays in `bulkInserts`, which is never again as long as the batch size.

`outcome` says which documents are accepted and which are delivered, batch by batch, and
`insertAll_outcome` that the client does just that. From it comes exactly when nothing is lost
(`losesNothing_iff`): the documents fall into full batches, each for one table, and each
batch is acknowledged, or is the last and delivers what had been accepted (`Flushed`).
-/

namespace YcsbIvs.MongoDB

open YcsbIvs.Foundations YcsbIvs.Core

/-- A document, by the number of the call that made it, and a collection: the one it
should go to, or the one it went to. -/
structure Delivery where
  /-- The number of the call. -/
  call : ℕ
  /-- The collection. -/
  collection : Utf16
  /-- The document. -/
  document : Document
  deriving DecidableEq

/-- The document of a write. -/
def Write.document : Write → Document
  | insert document | replaceOne _ document | updateOne _ document => document

/-- What has been delivered where. -/
def Sent.delivery (w : Sent) : Delivery := ⟨w.call, w.collection, w.write.document⟩

open MongoDbClient

/-- The document a call makes. -/
def documentOf (call : Call) : Document := ((toDocument call.key call.values).2.toOption).getD ∅

/-- What call number `n` should have delivered. -/
def deliveryOf (n : ℕ) (call : Call) : Delivery := ⟨n, call.table, documentOf call⟩

/-- Whether a call makes a document: it has a collection to put it in, and the values can
be read. -/
def Makes (cfg : Config) (connected : Bool) (call : Call) : Prop :=
  connected ∧ cfg.isCollection call.table ∧ (toDocument call.key call.values).2.isOk

instance (cfg : Config) (connected : Bool) (call : Call) : Decidable (Makes cfg connected call) :=
  inferInstanceAs (Decidable (_ ∧ _ ∧ _))

/-- The documents that calls from number `n` on make. -/
def documents (cfg : Config) (connected : Bool) : ℕ → List Call → List Delivery
  | _, [] => []
  | n, call :: calls =>
    if Makes cfg connected call then deliveryOf n call :: documents cfg connected (n + 1) calls
    else documents cfg connected (n + 1) calls

/-- Whether an answer is `OK` or `BATCHED_OK`. -/
def accepts : Except Throwable Status → Bool
  | .ok st => st.isOk
  | .error _ => false

/-- What the calls that are answered `OK` or `BATCHED_OK` should have delivered. -/
def accepted : ℕ → List Call → List (Except Throwable Status) → List Delivery
  | n, call :: calls, answer :: answers =>
    if accepts answer then deliveryOf n call :: accepted (n + 1) calls answers
    else accepted (n + 1) calls answers
  | _, _, _ => []

/-- Each document that should have been delivered has been, once and where it should. -/
def LosesNothing (accepted delivered : List Delivery) : Prop :=
  ∀ d ∈ accepted, (delivered.filter fun e => e.call = d.call) = [d]

/-! ### One call -/

/-- What one call comes to: nothing, if it makes no document, and else what `add` does. -/
theorem insert_cases (cfg : Config) (c : MongoDbClient) (call : Call) :
    (¬ Makes cfg c.connected call ∧ accepts (c.insert cfg call.table call.key call.values).1 = false ∧
      (c.insert cfg call.table call.key call.values).2.2 = { c with inserts := c.inserts + 1 }) ∨
    (Makes cfg c.connected call ∧ ∃ r, r = ({ c with inserts := c.inserts + 1 } : MongoDbClient).add cfg call.table
        ⟨c.inserts, documentOf call⟩ ∧
      (c.insert cfg call.table call.key call.values).1 = .ok r.1 ∧
      (c.insert cfg call.table call.key call.values).2.2 = r.2) := by
  rw [MongoDbClient.insert]
  dsimp only
  split_ifs with hno
  · left
    refine ⟨fun hm => ?_, rfl, rfl⟩
    rcases hno with h | h
    · exact h hm.1
    · exact h hm.2.1
  · rw [not_or, not_not, not_not] at hno
    rcases hdoc : toDocument call.key call.values with ⟨values, r⟩
    cases r with
    | error e =>
      left
      refine ⟨fun hm => ?_, ?_, rfl⟩
      · have := hm.2.2
        rw [hdoc] at this
        cases this
      · dsimp only
        split_ifs <;> rfl
    | ok doc =>
      right
      refine ⟨⟨hno.1, hno.2, by rw [hdoc]; rfl⟩, _, rfl, ?_⟩
      have hd : documentOf call = doc := by
        rw [documentOf, hdoc]
        rfl
      rw [hd]
      exact ⟨rfl, rfl⟩

/-! ### Batch by batch -/

/-- What becomes of a batch that is sent to the collection of its last document. -/
def deliverBatch (reply : Reply) (batch : List Delivery) : List Delivery :=
  (batch.filter fun d => reply.delivers d.call).map fun d =>
    { d with collection := (batch.getLast?.map Delivery.collection).getD [] }

/-- The documents that are accepted, and those that are delivered, of the documents that
a client with batch size `b` makes: batch by batch, until the sending of one throws. -/
def outcome (b : ℕ) (driver : ℕ → Reply) (docs : List Delivery) : List Delivery × List Delivery :=
  if _h : 0 < b ∧ b ≤ docs.length then
    match driver 0 with
    | .acknowledged =>
      let r := outcome b (fun i => driver (i + 1)) (docs.drop b)
      (docs.take b ++ r.1, deliverBatch .acknowledged (docs.take b) ++ r.2)
    | .throws delivered => ((docs.take b).dropLast ++ docs.drop b, deliverBatch (.throws delivered) (docs.take b))
  else (docs, [])
termination_by docs.length
decreasing_by rw [List.length_drop]; omega

theorem outcome_of_lt {b : ℕ} {driver : ℕ → Reply} {docs : List Delivery} (h : docs.length < b) :
    outcome b driver docs = (docs, []) := by
  rw [outcome, dif_neg (by omega)]

theorem outcome_append {b : ℕ} {driver : ℕ → Reply} {batch docs : List Delivery} (hb : 0 < b)
    (h : batch.length = b) :
    outcome b driver (batch ++ docs) =
      match driver 0 with
      | .acknowledged =>
        (batch ++ (outcome b (fun i => driver (i + 1)) docs).1,
          deliverBatch .acknowledged batch ++ (outcome b (fun i => driver (i + 1)) docs).2)
      | .throws delivered => (batch.dropLast ++ docs, deliverBatch (.throws delivered) batch) := by
  subst h
  rw [outcome, dif_pos ⟨hb, by simp⟩, List.take_left, List.drop_left]

/-- A document of the batch, and the collection it is for. -/
def pendingOf (d : Delivery) : Pending := ⟨d.call, d.document⟩

/-- What is delivered of a batch, in the terms of `outcome`. -/
theorem map_deliver (reply : Reply) (collection : Utf16) (write : Document → Write)
    (hw : ∀ doc, (write doc).document = doc) (batch : List Delivery) (d : Delivery) (hd : d.collection = collection) :
    (reply.deliver collection write ((batch ++ [d]).map pendingOf)).map Sent.delivery =
      deliverBatch reply (batch ++ [d]) := by
  rw [Reply.deliver, deliverBatch, List.getLast?_concat, List.filter_map, List.map_map, List.map_map]
  refine List.map_congr_left fun e _ => ?_
  simp [Sent.delivery, pendingOf, hw, hd]

theorem document_writeMany (cfg : Config) (doc : Document) : (writeMany cfg doc).document = doc := by
  rw [writeMany]
  split_ifs <;> rfl

theorem document_writeOne (cfg : Config) (doc : Document) : (writeOne cfg doc).document = doc := by
  rw [writeOne]
  split_ifs <;> rfl

/-- A document that does not fill the batch is put in it. -/
theorem add_of_ne {cfg : Config} (c : MongoDbClient) (table : Utf16) (toInsert : Pending) (hb : cfg.batchSize ≠ 1)
    (h : (c.bulkInserts.length : ℤ) + 1 ≠ cfg.batchSize) :
    c.add cfg table toInsert = (.batchedOk, { c with bulkInserts := c.bulkInserts ++ [toInsert] }) := by
  rw [add, if_neg hb]
  dsimp only
  rw [List.length_append, List.length_singleton, if_neg (by omega)]

/-- A document that fills the batch has it sent. -/
theorem add_of_eq {cfg : Config} (c : MongoDbClient) (table : Utf16) (toInsert : Pending) (hb : cfg.batchSize ≠ 1)
    (h : (c.bulkInserts.length : ℤ) + 1 = cfg.batchSize) :
    ∃ bulkInserts, c.add cfg table toInsert = ((c.driver 0).status, { c with
        bulkInserts := bulkInserts
        sent := c.sent ++ (c.driver 0).deliver table (writeMany cfg) (c.bulkInserts ++ [toInsert])
        driver := fun i => c.driver (i + 1) }) ∧
      bulkInserts = match c.driver 0 with
        | .acknowledged => []
        | .throws _ => c.bulkInserts ++ [toInsert] := by
  rw [add, if_neg hb]
  dsimp only
  rw [List.length_append, List.length_singleton, if_pos (by omega)]
  cases hd : c.driver 0 with
  | acknowledged => exact ⟨[], by simp only [called, hd, Reply.status], rfl⟩
  | throws delivered => exact ⟨_, by simp only [called, hd, Reply.status], rfl⟩

/-- **A batch that could not be sent is never sent**: once the list is as long as the batch size, every
document is accepted and none is delivered. -/
theorem insertAll_stuck {cfg : Config} (hb : cfg.batchSize ≠ 1) (calls : List Call) (c : MongoDbClient)
    (h : cfg.batchSize ≤ c.bulkInserts.length) :
    accepted c.inserts calls (c.insertAll cfg calls).1 = documents cfg c.connected c.inserts calls ∧
      (c.insertAll cfg calls).2.sent = c.sent := by
  induction calls generalizing c with
  | nil => exact ⟨rfl, rfl⟩
  | cons call calls ih =>
    rw [insertAll, documents]
    dsimp only
    rw [accepted]
    rcases insert_cases cfg c call with ⟨hm, hans, hc⟩ | ⟨hm, r, rfl, hans, hc⟩
    · rw [hans, hc, if_neg hm]
      exact ih { c with inserts := c.inserts + 1 } h
    · have hadd := add_of_ne { c with inserts := c.inserts + 1 } call.table
        ⟨c.inserts, documentOf call⟩ hb (by dsimp only; omega)
      rw [hadd] at hans hc
      rw [hans, hc, if_pos hm]
      obtain ⟨hacc, hsent⟩ := ih { c with
        inserts := c.inserts + 1
        bulkInserts := c.bulkInserts ++ [(⟨c.inserts, documentOf call⟩ : Pending)] } (by
          rw [List.length_append, List.length_singleton]
          omega)
      exact ⟨congrArg (deliveryOf c.inserts call :: ·) hacc, hsent⟩

/-- **What a client accepts and delivers is what `outcome` says**, if the documents that are pending are
fewer than a batch. -/
theorem insertAll_outcome {cfg : Config} {b : ℕ} (hb : cfg.batchSize = b) (h0 : 0 < b) (h1 : b ≠ 1) (calls : List Call)
    (c : MongoDbClient) (pending : List Delivery) (hp : c.bulkInserts = pending.map pendingOf)
    (hlt : pending.length < b) :
    pending ++ accepted c.inserts calls (c.insertAll cfg calls).1 =
        (outcome b c.driver (pending ++ documents cfg c.connected c.inserts calls)).1 ∧
      (c.insertAll cfg calls).2.sent.map Sent.delivery =
        c.sent.map Sent.delivery ++ (outcome b c.driver (pending ++ documents cfg c.connected c.inserts calls)).2 := by
  have hne : cfg.batchSize ≠ 1 := by omega
  induction calls generalizing c pending with
  | nil =>
    rw [documents, List.append_nil, outcome_of_lt hlt]
    exact ⟨List.append_nil _, (List.append_nil _).symm⟩
  | cons call calls ih =>
    rw [insertAll, documents]
    dsimp only
    rw [accepted]
    rcases insert_cases cfg c call with ⟨hm, hans, hc⟩ | ⟨hm, r, rfl, hans, hc⟩
    · rw [hans, hc, if_neg hm]
      exact ih { c with inserts := c.inserts + 1 } pending hp hlt
    · have hbulk : c.bulkInserts ++ [(⟨c.inserts, documentOf call⟩ : Pending)] =
          (pending ++ [deliveryOf c.inserts call]).map pendingOf := by
        rw [List.map_append, ← hp]
        rfl
      have hlen : (pending ++ [deliveryOf c.inserts call]).length = pending.length + 1 := List.length_append
      have hcons : ∀ l, pending ++ deliveryOf c.inserts call :: l = (pending ++ [deliveryOf c.inserts call]) ++ l :=
        fun l => by rw [List.append_assoc, List.singleton_append]
      have hcur : (c.bulkInserts.length : ℤ) = pending.length := by rw [hp, List.length_map]
      rw [if_pos hm, hcons]
      by_cases hfull : pending.length + 1 = b
      · -- the batch is full, and is sent
        obtain ⟨bulk, hadd, hleft⟩ := add_of_eq { c with inserts := c.inserts + 1 } call.table
          ⟨c.inserts, documentOf call⟩ hne (by dsimp only; omega)
        dsimp only at hadd hleft
        rw [hadd] at hans hc
        rw [hans, hc, outcome_append h0 (hlen.trans hfull)]
        have hsent := map_deliver (c.driver 0) call.table (writeMany cfg) (document_writeMany cfg) pending
          (deliveryOf c.inserts call) rfl
        rw [← hbulk] at hsent
        cases hreply : c.driver 0 with
        | acknowledged =>
          rw [hreply] at hleft hsent
          obtain ⟨hacc, hrest⟩ := ih { c with
            inserts := c.inserts + 1
            bulkInserts := bulk
            sent := c.sent ++ Reply.acknowledged.deliver call.table (writeMany cfg) (c.bulkInserts ++ [⟨c.inserts, documentOf call⟩])
            driver := fun i => c.driver (i + 1) } [] hleft h0
          dsimp only at hacc hrest
          constructor
          · exact (hcons _).trans (congrArg (pending ++ [deliveryOf c.inserts call] ++ ·) hacc)
          · rw [hrest, List.nil_append, List.map_append, hsent, List.append_assoc]
        | throws delivered =>
          rw [hreply] at hleft hsent
          obtain ⟨hacc, hrest⟩ := insertAll_stuck hne calls { c with
            inserts := c.inserts + 1
            bulkInserts := bulk
            sent := c.sent ++ (Reply.throws delivered).deliver call.table (writeMany cfg) (c.bulkInserts ++ [⟨c.inserts, documentOf call⟩])
            driver := fun i => c.driver (i + 1) } (by
              dsimp only
              rw [hleft, List.length_append, List.length_singleton]
              omega)
          dsimp only at hacc hrest
          dsimp only
          rw [List.dropLast_concat]
          exact ⟨congrArg (pending ++ ·) hacc, by rw [hrest, List.map_append, hsent]⟩
      · -- the batch is not full yet
        have hadd := add_of_ne { c with inserts := c.inserts + 1 } call.table
          ⟨c.inserts, documentOf call⟩ hne (by dsimp only; omega)
        rw [hadd] at hans hc
        rw [hans, hc]
        obtain ⟨hacc, hsent⟩ := ih { c with
          inserts := c.inserts + 1
          bulkInserts := c.bulkInserts ++ [(⟨c.inserts, documentOf call⟩ : Pending)] } _ hbulk (by omega)
        exact ⟨(hcons _).trans hacc, hsent⟩

/-! ### When nothing is lost -/

/-- Batch number `q` of some documents. -/
def batch (b : ℕ) (docs : List Delivery) (q : ℕ) : List Delivery := (docs.drop (q * b)).take b

/-- **The documents fall into full batches**, each for one collection, and each batch is
acknowledged, or is the last one and delivers all documents but the one its last call made. -/
structure Flushed (b : ℕ) (driver : ℕ → Reply) (docs : List Delivery) : Prop where
  /-- No document is left over. -/
  full : docs.length % b = 0
  /-- A batch is for one collection. -/
  oneCollection : ∀ q, (q + 1) * b ≤ docs.length → ∀ d ∈ batch b docs q, ∀ e ∈ batch b docs q, d.collection = e.collection
  /-- A batch is acknowledged, or the last. -/
  sent : ∀ q, (q + 1) * b ≤ docs.length → driver q = .acknowledged ∨
    ((q + 1) * b = docs.length ∧ ∀ d ∈ (batch b docs q).dropLast, (driver q).delivers d.call)

theorem batch_zero (b : ℕ) (docs : List Delivery) : batch b docs 0 = docs.take b := by
  rw [batch, Nat.zero_mul, List.drop_zero]

theorem batch_succ {b : ℕ} {first : List Delivery} (docs : List Delivery) (h : first.length = b) (q : ℕ) :
    batch b (first ++ docs) (q + 1) = batch b docs q := by
  rw [batch, batch, Nat.succ_mul, Nat.add_comm, ← List.drop_drop, ← h, List.drop_left]

/-- The first batch is acknowledged, and the others follow. -/
theorem flushed_acknowledged {b : ℕ} {driver : ℕ → Reply} {first : List Delivery} (docs : List Delivery)
    (h : first.length = b) (hd : driver 0 = .acknowledged) :
    Flushed b driver (first ++ docs) ↔
      (∀ d ∈ first, ∀ e ∈ first, d.collection = e.collection) ∧ Flushed b (fun i => driver (i + 1)) docs := by
  have hlen : (first ++ docs).length = b + docs.length := by rw [List.length_append, h]
  have hzero : batch b (first ++ docs) 0 = first := by rw [batch_zero, ← h, List.take_left]
  have hle : ∀ q, (q + 1 + 1) * b ≤ (first ++ docs).length ↔ (q + 1) * b ≤ docs.length := by
    intro q
    rw [hlen, Nat.succ_mul (q + 1)]
    omega
  have heq : ∀ q, (q + 1 + 1) * b = (first ++ docs).length ↔ (q + 1) * b = docs.length := by
    intro q
    rw [hlen, Nat.succ_mul (q + 1)]
    omega
  constructor
  · rintro ⟨hfull, hone, hsent⟩
    refine ⟨?_, ?_, fun q hq => ?_, fun q hq => ?_⟩
    · have := hone 0 (by omega)
      rwa [hzero] at this
    · rwa [hlen, Nat.add_mod_left] at hfull
    · have := hone (q + 1) ((hle q).mpr hq)
      rwa [batch_succ docs h] at this
    · have := hsent (q + 1) ((hle q).mpr hq)
      rwa [batch_succ docs h, heq] at this
  · rintro ⟨hfirst, hfull, hone, hsent⟩
    refine ⟨by rw [hlen, Nat.add_mod_left, hfull], fun q hq => ?_, fun q hq => ?_⟩
    · cases q with
      | zero => rwa [hzero]
      | succ q =>
        rw [batch_succ docs h]
        exact hone q ((hle q).mp hq)
    · cases q with
      | zero => exact .inl hd
      | succ q =>
        rw [batch_succ docs h, heq]
        exact hsent q ((hle q).mp hq)

/-- The sending of the first batch throws: it has to be the only one. -/
theorem flushed_throws {b : ℕ} {driver : ℕ → Reply} {first : List Delivery} (docs : List Delivery)
    {delivered : ℕ → Bool} (hb : 0 < b) (h : first.length = b) (hd : driver 0 = .throws delivered) :
    Flushed b driver (first ++ docs) ↔
      (∀ d ∈ first, ∀ e ∈ first, d.collection = e.collection) ∧ docs = [] ∧ ∀ d ∈ first.dropLast, delivered d.call := by
  have hlen : (first ++ docs).length = b + docs.length := by rw [List.length_append, h]
  have hzero : batch b (first ++ docs) 0 = first := by rw [batch_zero, ← h, List.take_left]
  constructor
  · rintro ⟨-, hone, hsent⟩
    have hone := hone 0 (by omega)
    have hsent := hsent 0 (by omega)
    rw [hzero] at hone hsent
    rw [hd] at hsent
    rcases hsent with hack | ⟨hlast, hall⟩
    · cases hack
    · exact ⟨hone, List.length_eq_zero_iff.mp (by omega), hall⟩
  · rintro ⟨hone, rfl, hall⟩
    rw [List.append_nil] at hlen hzero ⊢
    have hq : ∀ q, (q + 1) * b ≤ first.length → q = 0 := by
      intro q hq
      by_contra hne
      have : 2 * b ≤ (q + 1) * b := Nat.mul_le_mul_right b (by omega)
      omega
    refine ⟨by rw [h, Nat.mod_self], fun q hle => ?_, fun q hle => ?_⟩
    · obtain rfl := hq q hle
      rwa [hzero]
    · obtain rfl := hq q hle
      rw [hzero, hd]
      exact .inr ⟨by omega, hall⟩

theorem filter_call {docs : List Delivery} (hnd : (docs.map Delivery.call).Nodup) {d : Delivery} (hd : d ∈ docs) :
    (docs.filter fun e => e.call = d.call) = [d] := by
  induction docs with
  | nil => cases hd
  | cons e docs ih =>
    rw [List.map_cons, List.nodup_cons] at hnd
    rcases List.mem_cons.mp hd with rfl | hd
    · rw [List.filter_cons_of_pos (by simp), List.filter_eq_nil_iff.mpr]
      intro e he heq
      exact hnd.1 (of_decide_eq_true heq ▸ List.mem_map_of_mem he)
    · have hne : e.call ≠ d.call := fun heq => hnd.1 (heq ▸ List.mem_map_of_mem hd)
      rw [List.filter_cons_of_neg (by simpa using hne), ih hnd.2 hd]

/-- Of a batch, what is accepted has to be delivered, and to be for the collection of the last. -/
theorem losesNothing_batch {reply : Reply} {docs acc : List Delivery} (hnd : (docs.map Delivery.call).Nodup)
    (hacc : acc ⊆ docs) :
    LosesNothing acc (deliverBatch reply docs) ↔
      ∀ d ∈ acc, reply.delivers d.call ∧ d.collection = (docs.getLast?.map Delivery.collection).getD [] := by
  refine forall₂_congr fun d hd => ?_
  rw [deliverBatch, List.filter_map, List.filter_filter]
  have hcomp : (docs.filter fun e => ((fun e : Delivery => decide (e.call = d.call)) ∘ fun d : Delivery =>
      { d with collection := (docs.getLast?.map Delivery.collection).getD [] }) e && reply.delivers e.call) =
      [d].filter fun e => reply.delivers e.call := by
    rw [← filter_call hnd (hacc hd), List.filter_filter]
    refine List.filter_congr fun e _ => ?_
    simp [Bool.and_comm]
  rw [hcomp]
  cases hdel : reply.delivers d.call with
  | false => simp [hdel]
  | true =>
    simp only [hdel, List.filter_cons_of_pos, List.filter_nil, List.map_cons, List.map_nil, List.cons.injEq,
      and_true, true_and]
    constructor
    · exact fun h => (congrArg Delivery.collection h).symm
    · exact fun h => by rw [← h]

/-- Documents of one batch and of the others do not meet. -/
theorem losesNothing_append {acc acc' del del' : List Delivery} (h : ∀ d ∈ acc, ∀ e ∈ del', e.call ≠ d.call)
    (h' : ∀ d ∈ acc', ∀ e ∈ del, e.call ≠ d.call) :
    LosesNothing (acc ++ acc') (del ++ del') ↔ LosesNothing acc del ∧ LosesNothing acc' del' := by
  have hleft : ∀ d ∈ acc, ((del ++ del').filter fun e => e.call = d.call) = del.filter fun e => e.call = d.call := by
    intro d hd
    rw [List.filter_append, List.filter_eq_nil_iff.mpr fun e he heq => h d hd e he (of_decide_eq_true heq),
      List.append_nil]
  have hright : ∀ d ∈ acc', ((del ++ del').filter fun e => e.call = d.call) = del'.filter fun e => e.call = d.call := by
    intro d hd
    rw [List.filter_append, List.filter_eq_nil_iff.mpr fun e he heq => h' d hd e he (of_decide_eq_true heq),
      List.nil_append]
  constructor
  · exact fun hall => ⟨fun d hd => hleft d hd ▸ hall d (List.mem_append_left _ hd),
      fun d hd => hright d hd ▸ hall d (List.mem_append_right _ hd)⟩
  · rintro ⟨hl, hr⟩ d hd
    rcases List.mem_append.mp hd with hd | hd
    · rw [hleft d hd, hl d hd]
    · rw [hright d hd, hr d hd]

theorem exists_of_mem_deliverBatch {reply : Reply} {docs : List Delivery} {e : Delivery} (he : e ∈ deliverBatch reply docs) :
    ∃ d ∈ docs, d.call = e.call := by
  obtain ⟨d, hd, rfl⟩ := List.mem_map.mp he
  exact ⟨d, List.mem_of_mem_filter hd, rfl⟩

/-- Nothing is accepted or delivered but what was made. -/
theorem mem_outcome (b : ℕ) (driver : ℕ → Reply) (docs : List Delivery) :
    (∀ d ∈ (outcome b driver docs).1, d ∈ docs) ∧ ∀ e ∈ (outcome b driver docs).2, ∃ d ∈ docs, d.call = e.call := by
  induction driver, docs using outcome.induct b with
  | case1 driver docs h hd ih =>
    rw [outcome, dif_pos h, hd]
    refine ⟨fun d hd => ?_, fun e he => ?_⟩
    · rcases List.mem_append.mp hd with hd | hd
      · exact List.mem_of_mem_take hd
      · exact List.mem_of_mem_drop (ih.1 d hd)
    · rcases List.mem_append.mp he with he | he
      · obtain ⟨d, hd, heq⟩ := exists_of_mem_deliverBatch he
        exact ⟨d, List.mem_of_mem_take hd, heq⟩
      · obtain ⟨d, hd, heq⟩ := ih.2 e he
        exact ⟨d, List.mem_of_mem_drop hd, heq⟩
  | case2 driver docs h delivered hd =>
    rw [outcome, dif_pos h, hd]
    refine ⟨fun d hd => ?_, fun e he => ?_⟩
    · rcases List.mem_append.mp hd with hd | hd
      · exact List.mem_of_mem_take (List.dropLast_subset _ hd)
      · exact List.mem_of_mem_drop hd
    · obtain ⟨d, hd, heq⟩ := exists_of_mem_deliverBatch he
      exact ⟨d, List.mem_of_mem_take hd, heq⟩
  | case3 driver docs h =>
    rw [outcome, dif_neg h]
    exact ⟨fun _ hd => hd, fun _ he => absurd he List.not_mem_nil⟩

/-- All documents of a batch are for the collection of its last. -/
theorem forall_last_iff {docs : List Delivery} (h : docs ≠ []) :
    (∀ d ∈ docs, d.collection = (docs.getLast?.map Delivery.collection).getD []) ↔
      ∀ d ∈ docs, ∀ e ∈ docs, d.collection = e.collection := by
  have hlast : docs.getLast? = some (docs.getLast h) := List.getLast?_eq_some_getLast h
  rw [hlast]
  constructor
  · exact fun hall d hd e he => (hall d hd).trans (hall e he).symm
  · exact fun hall d hd => hall d hd _ (List.getLast_mem h)

/-- So it is enough to ask it of all but the last. -/
theorem forall_dropLast_iff {docs : List Delivery} (h : docs ≠ []) :
    (∀ d ∈ docs, d.collection = (docs.getLast?.map Delivery.collection).getD []) ↔
      ∀ d ∈ docs.dropLast, d.collection = (docs.getLast?.map Delivery.collection).getD [] := by
  refine ⟨fun hall d hd => hall d (List.dropLast_subset _ hd), fun hall d hd => ?_⟩
  rw [← List.dropLast_concat_getLast h] at hd
  rcases List.mem_append.mp hd with hd | hd
  · exact hall d hd
  · rw [List.mem_singleton.mp hd, List.getLast?_eq_some_getLast h]
    rfl

theorem losesNothing_nil {acc : List Delivery} : LosesNothing acc [] ↔ acc = [] := by
  constructor
  · intro hall
    refine List.eq_nil_iff_forall_not_mem.mpr fun d hd => ?_
    cases hall d hd
  · rintro rfl d hd
    cases hd

/-- The first batch is full, and its documents are apart from those that come after. -/
theorem firstBatch_of_full {b : ℕ} {docs : List Delivery} (h : 0 < b ∧ b ≤ docs.length)
    (hnd : (docs.map Delivery.call).Nodup) :
    (docs.take b).length = b ∧ docs.take b ≠ [] ∧ ((docs.take b).map Delivery.call).Nodup ∧
      ((docs.drop b).map Delivery.call).Nodup ∧
      ∀ x ∈ (docs.take b).map Delivery.call, ∀ y ∈ (docs.drop b).map Delivery.call, x ≠ y := by
  have hlen : (docs.take b).length = b := by rw [List.length_take]; omega
  have hne : docs.take b ≠ [] := fun hnil => by rw [hnil, List.length_nil] at hlen; omega
  rw [← List.take_append_drop b docs, List.map_append, List.nodup_append] at hnd
  exact ⟨hlen, hne, hnd⟩

/-- **What `outcome` accepts it delivers exactly when the documents fall into full batches**. -/
theorem losesNothing_outcome {b : ℕ} (hb : 0 < b) (driver : ℕ → Reply) (docs : List Delivery)
    (hnd : (docs.map Delivery.call).Nodup) :
    LosesNothing (outcome b driver docs).1 (outcome b driver docs).2 ↔ Flushed b driver docs := by
  induction driver, docs using outcome.induct b with
  | case1 driver docs h hd ih =>
    obtain ⟨hlen, hne, hfirst, hrest, hdisj⟩ := firstBatch_of_full h hnd
    have hsplit := flushed_acknowledged (docs.drop b) hlen hd
    rw [List.take_append_drop] at hsplit
    rw [hsplit, ← ih hrest, outcome, dif_pos h, hd]
    dsimp only
    rw [losesNothing_append, losesNothing_batch hfirst (List.Subset.refl _), ← forall_last_iff hne]
    · simp [Reply.delivers]
    · intro d hd e he heq
      obtain ⟨d', hd', heq'⟩ := (mem_outcome b _ _).2 e he
      exact hdisj _ (List.mem_map_of_mem hd) _ (List.mem_map_of_mem hd') (heq'.trans heq).symm
    · intro d hd e he heq
      obtain ⟨d', hd', heq'⟩ := exists_of_mem_deliverBatch he
      exact hdisj _ (List.mem_map_of_mem hd') _ (List.mem_map_of_mem ((mem_outcome b _ _).1 d hd)) (heq'.trans heq)
  | case2 driver docs h delivered hd =>
    obtain ⟨hlen, hne, hfirst, hrest, hdisj⟩ := firstBatch_of_full h hnd
    have hsplit := flushed_throws (docs.drop b) hb hlen hd
    rw [List.take_append_drop] at hsplit
    rw [hsplit, outcome, dif_pos h, hd]
    dsimp only
    rw [← List.append_nil (deliverBatch _ _), losesNothing_append, losesNothing_nil,
      losesNothing_batch hfirst (List.dropLast_subset _), ← forall_last_iff hne, forall_dropLast_iff hne]
    · constructor
      · exact fun ⟨hall, hnil⟩ => ⟨fun d hd => (hall d hd).2, hnil, fun d hd => (hall d hd).1⟩
      · exact fun ⟨hone, hnil, hall⟩ => ⟨fun d hd => ⟨hall d hd, hone d hd⟩, hnil⟩
    · exact fun _ _ e he => absurd he List.not_mem_nil
    · intro d hd e he heq
      obtain ⟨d', hd', heq'⟩ := exists_of_mem_deliverBatch he
      exact hdisj _ (List.mem_map_of_mem hd') _ (List.mem_map_of_mem hd) (heq'.trans heq)
  | case3 driver docs h =>
    rw [outcome, dif_neg h]
    have hlt : docs.length < b := by omega
    constructor
    · intro hall
      obtain rfl := losesNothing_nil.mp hall
      refine ⟨Nat.zero_mod b, fun q hq => ?_, fun q hq => ?_⟩ <;>
        · have : b ≤ (q + 1) * b := Nat.le_mul_of_pos_left b (by omega)
          rw [List.length_nil] at hq
          omega
    · rintro ⟨hfull, -, -⟩ d hd
      rw [Nat.mod_eq_of_lt hlt] at hfull
      rw [List.length_eq_zero_iff.mp hfull] at hd
      cases hd

/-- The calls whose documents are awaited come one after the other. -/
theorem le_call_of_mem_documents {cfg : Config} {connected : Bool} (calls : List Call) {n : ℕ} :
    ∀ d ∈ documents cfg connected n calls, n ≤ d.call := by
  induction calls generalizing n with
  | nil => exact fun d hd => absurd hd List.not_mem_nil
  | cons call calls ih =>
    intro d hd
    rw [documents] at hd
    split_ifs at hd
    · rcases List.mem_cons.mp hd with rfl | hd
      · exact Nat.le_refl n
      · exact Nat.le_of_succ_le (ih d hd)
    · exact Nat.le_of_succ_le (ih d hd)

theorem nodup_documents (cfg : Config) (connected : Bool) (n : ℕ) (calls : List Call) :
    ((documents cfg connected n calls).map Delivery.call).Nodup := by
  induction calls generalizing n with
  | nil => exact List.nodup_nil
  | cons call calls ih =>
    rw [documents]
    split_ifs
    · rw [List.map_cons, List.nodup_cons]
      refine ⟨fun hmem => ?_, ih (n + 1)⟩
      obtain ⟨d, hd, heq⟩ := List.mem_map.mp hmem
      have hle := le_call_of_mem_documents calls d hd
      rw [heq, deliveryOf] at hle
      exact Nat.not_succ_le_self n hle
    · exact ih (n + 1)

/-- A document that is written at once. -/
theorem add_one {cfg : Config} {c : MongoDbClient} {table : Utf16} (d : Delivery) (hb : cfg.batchSize = 1)
    (hd : d.collection = table) :
    ∃ c', c.add cfg table (pendingOf d) = ((c.driver 0).status, c') ∧ c'.inserts = c.inserts ∧
      c'.sent.map Sent.delivery = c.sent.map Sent.delivery ++ deliverBatch (c.driver 0) [d] := by
  refine ⟨c.called table (writeOne cfg) [pendingOf d], by rw [add, if_pos hb], rfl, ?_⟩
  rw [called, List.map_append]
  exact congrArg _ (map_deliver (c.driver 0) table (writeOne cfg) (document_writeOne cfg) [] d hd)

/-- **One at a time, what is accepted has been delivered**. -/
theorem insertAll_one {cfg : Config} (hb : cfg.batchSize = 1) (calls : List Call) (c : MongoDbClient) :
    (∀ d ∈ accepted c.inserts calls (c.insertAll cfg calls).1, c.inserts ≤ d.call) ∧
      ∃ del, (c.insertAll cfg calls).2.sent.map Sent.delivery = c.sent.map Sent.delivery ++ del ∧
        (∀ e ∈ del, c.inserts ≤ e.call) ∧ LosesNothing (accepted c.inserts calls (c.insertAll cfg calls).1) del := by
  induction calls generalizing c with
  | nil => exact ⟨fun _ hd => absurd hd List.not_mem_nil, [], (List.append_nil _).symm,
      fun _ he => absurd he List.not_mem_nil, losesNothing_nil.mpr rfl⟩
  | cons call calls ih =>
    rw [insertAll]
    dsimp only
    rw [accepted]
    rcases insert_cases cfg c call with ⟨-, hans, hc⟩ | ⟨-, r, hr, hans, hc⟩
    · rw [hans, hc]
      obtain ⟨hle, del, hsent, hdel, hloses⟩ := ih { c with inserts := c.inserts + 1 }
      exact ⟨fun d hd => Nat.le_of_succ_le (hle d hd), del, hsent, fun e he => Nat.le_of_succ_le (hdel e he), hloses⟩
    · obtain ⟨c', hadd, hins, hown⟩ :=
        add_one (c := { c with inserts := c.inserts + 1 }) (deliveryOf c.inserts call) hb rfl
      rw [hr.trans hadd] at hans hc
      rw [hans, hc]
      dsimp only at hins hown
      obtain ⟨hle, del, hsent, hdel, hloses⟩ := ih c'
      rw [hins] at hle hdel hloses
      have hone : ∀ e ∈ deliverBatch (c.driver 0) [deliveryOf c.inserts call], e.call = c.inserts := by
        intro e he
        obtain ⟨d, hd, heq⟩ := exists_of_mem_deliverBatch he
        rw [← heq, List.mem_singleton.mp hd]
        rfl
      have hlate : ∀ d ∈ accepted (c.inserts + 1) calls (insertAll cfg c' calls).1,
          ∀ e ∈ deliverBatch (c.driver 0) [deliveryOf c.inserts call], e.call ≠ d.call := by
        intro d hd e he heq
        have := hle d hd
        have := hone e he
        omega
      refine ⟨fun d hd => ?_, deliverBatch (c.driver 0) [deliveryOf c.inserts call] ++ del, ?_, fun e he => ?_, ?_⟩
      · split_ifs at hd
        · rcases List.mem_cons.mp hd with rfl | hd
          · exact Nat.le_refl _
          · exact Nat.le_of_succ_le (hle d hd)
        · exact Nat.le_of_succ_le (hle d hd)
      · rw [hsent, hown, List.append_assoc]
      · rcases List.mem_append.mp he with he | he
        · exact (hone e he).ge
        · exact Nat.le_of_succ_le (hdel e he)
      · cases hreply : c.driver 0 with
        | acknowledged =>
          rw [hreply] at hlate
          have hearly : ∀ d ∈ [deliveryOf c.inserts call], ∀ e ∈ del, e.call ≠ d.call := by
            intro d hd e he heq
            have := hdel e he
            rw [heq, List.mem_singleton.mp hd, deliveryOf] at this
            exact Nat.not_succ_le_self _ this
          have hnd : ([deliveryOf c.inserts call].map Delivery.call).Nodup := List.nodup_singleton _
          refine (losesNothing_append hearly hlate).mpr ⟨?_, hloses⟩
          rw [losesNothing_batch hnd (List.Subset.refl _)]
          exact fun d hd => ⟨rfl, congrArg Delivery.collection (List.mem_singleton.mp hd)⟩
        | throws delivered =>
          rw [hreply] at hlate
          have hnone : ∀ d ∈ ([] : List Delivery), ∀ e ∈ del, e.call ≠ d.call := fun _ hd => absurd hd List.not_mem_nil
          exact (losesNothing_append hnone hlate).mpr ⟨fun _ hd => absurd hd List.not_mem_nil, hloses⟩

@[simp] theorem sent_cleanup (c : MongoDbClient) : c.cleanup.sent = c.sent := by
  rw [cleanup]
  split_ifs <;> rfl

end YcsbIvs.MongoDB
