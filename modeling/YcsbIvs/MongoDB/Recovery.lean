import YcsbIvs.MongoDB.Batches

/-!
# A MongoDB batch that is not sent

`insert` sends `bulkInserts` when it is as long as the batch size, and not when it is longer. A batch whose sending throws stays there: the
next document makes it longer, and no later insert sends anything (`insertAll_stuck`). So fewer documents than a batch are pending after each
insert, and enough more of them have it sent, just if the sending of every full batch is acknowledged (`recovers_iff`).
-/

namespace YcsbIvs.MongoDB

open YcsbIvs.Foundations YcsbIvs.Core MongoDbClient

/-- How many documents some calls make. -/
def made (cfg : Config) (connected : Bool) (calls : List Call) : ℕ := (calls.filter fun call => Makes cfg connected call).length

/-- How many of some calls, with a `batchsize` above one, send a batch. -/
def sends (cfg : Config) : MongoDbClient → List Call → ℕ
  | _, [] => 0
  | c, call :: calls =>
    (if Makes cfg c.connected call ∧ (c.bulkInserts.length : ℤ) + 1 = cfg.batchSize then 1 else 0) +
      sends cfg (c.insert cfg call.table call.key call.values).2.2 calls

/-- After each insert the documents that are pending are fewer than a batch, and as many more as are missing have it sent. -/
def Recovers (cfg : Config) (c : MongoDbClient) (calls : List Call) : Prop :=
  ∀ n, ((c.insertAll cfg (calls.take n)).2.bulkInserts.length : ℤ) < cfg.batchSize ∧
    ∀ more, cfg.batchSize ≤ (c.insertAll cfg (calls.take n)).2.bulkInserts.length + made cfg c.connected more →
      0 < sends cfg (c.insertAll cfg (calls.take n)).2 more

/-! ### One insert -/

@[simp] theorem connected_add (cfg : Config) (c : MongoDbClient) (table : Utf16) (toInsert : Pending) :
    (c.add cfg table toInsert).2.connected = c.connected := by
  rw [add]
  split_ifs
  · rfl
  · dsimp only
    split_ifs
    · cases c.driver 0 <;> rfl
    · rfl

theorem connected_insert (cfg : Config) (c : MongoDbClient) (call : Call) :
    (c.insert cfg call.table call.key call.values).2.2.connected = c.connected := by
  rcases insert_cases cfg c call with ⟨-, -, hc⟩ | ⟨-, r, rfl, -, hc⟩
  · rw [hc]
  · rw [hc, connected_add]

/-- An insert adds no document; or it adds one, which does not fill the batch; or that fills it, and what comes of it is the driver's
next reply. -/
theorem insert_pending {cfg : Config} (hb : cfg.batchSize ≠ 1) (c : MongoDbClient) (call : Call) :
    ∃ c', (c.insert cfg call.table call.key call.values).2.2 = c' ∧ c'.connected = c.connected ∧
      ((¬ Makes cfg c.connected call ∧ c'.bulkInserts = c.bulkInserts ∧ c'.driver = c.driver) ∨
       (Makes cfg c.connected call ∧ (c.bulkInserts.length : ℤ) + 1 ≠ cfg.batchSize ∧
          c'.bulkInserts.length = c.bulkInserts.length + 1 ∧ c'.driver = c.driver) ∨
       (Makes cfg c.connected call ∧ (c.bulkInserts.length : ℤ) + 1 = cfg.batchSize ∧ (c'.driver = fun i => c.driver (i + 1)) ∧
          ((c.driver 0 = .acknowledged ∧ c'.bulkInserts = []) ∨
           (c.driver 0 ≠ .acknowledged ∧ c'.bulkInserts.length = c.bulkInserts.length + 1)))) := by
  refine ⟨_, rfl, connected_insert cfg c call, ?_⟩
  rcases insert_cases cfg c call with ⟨hm, -, hc⟩ | ⟨hm, r, rfl, -, hc⟩
  · rw [hc]
    exact .inl ⟨hm, rfl, rfl⟩
  · rw [hc]
    by_cases hfull : (c.bulkInserts.length : ℤ) + 1 = cfg.batchSize
    · obtain ⟨bulk, hadd, hleft⟩ := add_of_eq { c with inserts := c.inserts + 1 } call.table ⟨c.inserts, documentOf call⟩ hb hfull
      rw [hadd]
      refine .inr (.inr ⟨hm, hfull, rfl, ?_⟩)
      dsimp only at hleft ⊢
      cases hd : c.driver 0 with
      | acknowledged =>
        rw [hd] at hleft
        exact .inl ⟨rfl, hleft⟩
      | throws delivered =>
        rw [hd] at hleft
        exact .inr ⟨Reply.noConfusion, by rw [hleft, List.length_append, List.length_singleton]⟩
    · rw [add_of_ne { c with inserts := c.inserts + 1 } call.table ⟨c.inserts, documentOf call⟩ hb hfull]
      exact .inr (.inl ⟨hm, hfull, List.length_append, rfl⟩)

theorem client_insertAll_cons (cfg : Config) (c : MongoDbClient) (call : Call) (calls : List Call) :
    (c.insertAll cfg (call :: calls)).2 = ((c.insert cfg call.table call.key call.values).2.2.insertAll cfg calls).2 :=
  rfl

theorem connected_insertAll (cfg : Config) (calls : List Call) (c : MongoDbClient) : (c.insertAll cfg calls).2.connected = c.connected := by
  induction calls generalizing c with
  | nil => rfl
  | cons call calls ih =>
    rw [client_insertAll_cons, ih, connected_insert]

/-- `sends` counts the calls of the driver. -/
theorem driver_insertAll {cfg : Config} (hb : cfg.batchSize ≠ 1) (calls : List Call) (c : MongoDbClient) :
    (c.insertAll cfg calls).2.driver = fun i => c.driver (i + sends cfg c calls) := by
  induction calls generalizing c with
  | nil => rfl
  | cons call calls ih =>
    rw [client_insertAll_cons, sends, ih]
    obtain ⟨c', hc, -, ⟨hm, -, hd⟩ | ⟨hm, hne, -, hd⟩ | ⟨hm, heq, hd, -⟩⟩ := insert_pending hb c call
    · rw [hc, hd, if_neg fun h => hm h.1, Nat.zero_add]
    · rw [hc, hd, if_neg fun h => hne h.2, Nat.zero_add]
    · rw [hc, hd, if_pos ⟨hm, heq⟩]
      funext i
      exact congrArg c.driver (by omega)

/-! ### Runs -/

theorem made_cons (cfg : Config) (connected : Bool) (call : Call) (calls : List Call) :
    made cfg connected (call :: calls) = made cfg connected calls + if Makes cfg connected call then 1 else 0 := by
  rw [made, List.filter_cons]
  simp only [decide_eq_true_eq]
  split_ifs <;> rfl

/-- Documents that fill the batch have it sent, if it is not too long already. -/
theorem sends_pos {cfg : Config} (hb : 1 < cfg.batchSize) (more : List Call) (c : MongoDbClient)
    (hlt : (c.bulkInserts.length : ℤ) < cfg.batchSize) (h : cfg.batchSize ≤ c.bulkInserts.length + made cfg c.connected more) :
    0 < sends cfg c more := by
  induction more generalizing c with
  | nil =>
    rw [made, List.filter_nil, List.length_nil] at h
    omega
  | cons call more ih =>
    rw [sends]
    rw [made_cons] at h
    have hne1 : cfg.batchSize ≠ 1 := by omega
    obtain ⟨c', hc, hconn, hcases⟩ := insert_pending hne1 c call
    rw [hc]
    rcases hcases with ⟨hm, hbulk, -⟩ | ⟨hm, hne, hbulk, -⟩ | ⟨hm, heq, -⟩
    · rw [if_neg hm, ← hconn, ← hbulk] at h
      have := ih c' (hbulk ▸ hlt) h
      omega
    · rw [if_pos hm, ← hconn] at h
      have := ih c' (by omega) (by omega)
      omega
    · rw [if_pos ⟨hm, heq⟩]
      omega

/-- **Fewer documents than a batch are pending after each insert** just if no full batch fails. -/
theorem pending_lt_iff {cfg : Config} {b : ℕ} (hb : cfg.batchSize = b) (h1 : 1 < b) (calls : List Call) (c : MongoDbClient)
    (hlt : c.bulkInserts.length < b) :
    (∀ n, (c.insertAll cfg (calls.take n)).2.bulkInserts.length < b) ↔
      ∀ q, (q + 1) * b ≤ c.bulkInserts.length + made cfg c.connected calls → c.driver q = .acknowledged := by
  induction calls generalizing c with
  | nil =>
    refine iff_of_true (fun n => ?_) fun q hq => ?_
    · rw [List.take_nil]
      exact hlt
    · have hle : b ≤ (q + 1) * b := Nat.le_mul_of_pos_left b (Nat.succ_pos q)
      rw [made, List.filter_nil, List.length_nil] at hq
      omega
  | cons call calls ih =>
    have hne1 : cfg.batchSize ≠ 1 := by omega
    obtain ⟨c', hc, hconn, hcases⟩ := insert_pending hne1 c call
    have hsplit : (∀ n, (c.insertAll cfg ((call :: calls).take n)).2.bulkInserts.length < b) ↔
        ∀ n, (c'.insertAll cfg (calls.take n)).2.bulkInserts.length < b := by
      constructor
      · intro h n
        have := h (n + 1)
        rwa [List.take_succ_cons, client_insertAll_cons, hc] at this
      · intro h n
        cases n with
        | zero => exact hlt
        | succ n =>
          rw [List.take_succ_cons, client_insertAll_cons, hc]
          exact h n
    rw [hsplit, made_cons]
    rcases hcases with ⟨hm, hbulk, hd⟩ | ⟨hm, hne, hbulk, hd⟩ | ⟨hm, heq, hd, hreply⟩
    · rw [ih c' (hbulk ▸ hlt), hbulk, hconn, hd, if_neg hm, Nat.add_zero]
    · rw [ih c' (by omega), hbulk, hconn, hd, if_pos hm, Nat.add_right_comm, Nat.add_assoc]
    · rw [if_pos hm]
      rcases hreply with ⟨hack, hbulk⟩ | ⟨hack, hbulk⟩
      · rw [ih c' (by rw [hbulk, List.length_nil]; omega), hbulk, hconn, hd, List.length_nil]
        constructor
        · intro h q hq
          cases q with
          | zero => exact hack
          | succ q =>
            rw [Nat.succ_mul (q + 1)] at hq
            exact h q (by omega)
        · intro h q hq
          exact h (q + 1) (by rw [Nat.succ_mul (q + 1)]; omega)
      · -- the batch stays, and is too long from the start
        refine iff_of_false (fun h => ?_) fun h => hack (h 0 (by omega))
        have hfull : c'.bulkInserts.length < b := h 0
        omega

/-- **A client goes on sending** just if the sending of every full batch is acknowledged. -/
theorem recovers_iff (cfg : Config) (hb : 1 < cfg.batchSize) (initCount : ℤ) (connected : Bool) (driver : ℕ → Reply) (calls : List Call) :
    Recovers cfg (newClient initCount connected driver) calls ↔
      ∀ q : ℕ, (q + 1) * cfg.batchSize ≤ made cfg connected calls → driver q = .acknowledged := by
  obtain ⟨b, hcast⟩ : ∃ b : ℕ, cfg.batchSize = b := ⟨cfg.batchSize.toNat, by omega⟩
  have hpending := pending_lt_iff hcast (by omega) calls (newClient initCount connected driver) (show 0 < b by omega)
  have hmade : (∀ q : ℕ, (q + 1) * cfg.batchSize ≤ made cfg connected calls → driver q = .acknowledged) ↔
      ∀ n, ((newClient initCount connected driver).insertAll cfg (calls.take n)).2.bulkInserts.length < b := by
    rw [hpending, hcast]
    refine forall_congr' fun q => imp_congr_left ?_
    show ((q : ℤ) + 1) * b ≤ made cfg connected calls ↔ (q + 1) * b ≤ 0 + made cfg connected calls
    rw [Nat.zero_add]
    norm_cast
  rw [hmade]
  constructor
  · intro h n
    have := (h n).1
    omega
  · intro h n
    have hlt : (((newClient initCount connected driver).insertAll cfg (calls.take n)).2.bulkInserts.length : ℤ) < cfg.batchSize := by
      have := h n
      omega
    refine ⟨hlt, fun more hmore => sends_pos hb more _ hlt ?_⟩
    rwa [connected_insertAll]


/-- Two documents, batches of two. -/
theorem recovers_iff_two :
    Recovers ⟨2, false, fun _ => true⟩ (newClient 1 true fun _ => .acknowledged) [⟨[], [], ∅⟩, ⟨[], [0], ∅⟩] :=
  (recovers_iff ⟨2, false, fun _ => true⟩ (by decide) 1 true (fun _ => .acknowledged) [⟨[], [], ∅⟩, ⟨[], [0], ∅⟩]).mpr fun _ _ => rfl

/-- **A batch that could not be sent stays**: of batches of two, the first fails, and is as long as a batch. -/
theorem not_recovers :
    ¬ Recovers ⟨2, false, fun _ => true⟩ (newClient 1 true fun _ => .throws fun _ => false) [⟨[], [], ∅⟩, ⟨[], [0], ∅⟩] := by
  intro h
  exact absurd (h 2).1 (by decide)

end YcsbIvs.MongoDB
