import YcsbIvs.Foundations.Runs
import YcsbIvs.Redis.Client

/-!
# The index of the Redis binding

A run is a list of calls of `insert`, `update` and `delete` on an empty database, whose commands succeed. Beside the database it
has the keys that have been inserted, and not been deleted since.

`delete` takes a key from the index only if `DEL` has found nothing: where there is a record it leaves the key in the index. And the index
is itself deleted as the record of the key `_indices`. **The index contains exactly the keys that have a record and were
inserted, and a scan reads only keys that have a record, just as long as no key is deleted that is in the index, and `_indices` is not
deleted while there is a key in it** (`inStep_iff`).
-/

namespace YcsbIvs.Redis

open YcsbIvs.Foundations YcsbIvs.Core

namespace Keyspace

/-- The key has a record. -/
def HasRecord (db : Keyspace) (key : Bytes) : Prop := ∃ fields, db.get key = some (.hash fields)

/-- The sorted set at a key contains the member. -/
def Contains (db : Keyspace) (key member : Bytes) : Prop :=
  ∃ scores, db.get key = some (.zset scores) ∧ (scores.map.get member).isSome = true

/-- The index contains the key. -/
def Indexed (db : Keyspace) (key : Bytes) : Prop := db.Contains (encode indexKey) key

/-- A scan reads keys that have a record. -/
def ScansRecords (db : Keyspace) : Prop :=
  ∀ startkey recordcount keys, RedisClient.scanKeys db startkey recordcount = .ok keys → ∀ key ∈ keys, db.HasRecord (encode key)

end Keyspace

/-! ### Runs -/

/-- A call of the client. -/
inductive Call where
  /-- `insert`. -/
  | insert (key : Utf16) (values : Values Utf16)
  /-- `update`. -/
  | update (key : Utf16) (values : Values Utf16)
  /-- `delete`. -/
  | delete (key : Utf16)

/-- A database, and what has been inserted into it. -/
structure Session where
  /-- The database. -/
  db : Keyspace
  /-- The keys, in UTF-8, that have been inserted, and not been deleted since. -/
  inserted : List Bytes

/-- The empty database. -/
def Session.init : Session := ⟨.empty, []⟩

/-- A call. One whose values can not be read sends no command; one whose command is answered by an error is not of these runs. -/
def step (s : Session) : Call → Option Session
  | .insert key values =>
    match RedisClient.insert s.db key values with
    | .ok (status, db) => some ⟨db, if status = .ok then encode key :: s.inserted else s.inserted⟩
    | .error (.value _) => some s
    | .error .reply => none
  | .update key values =>
    match RedisClient.update s.db key values with
    | .ok (_, db) => some { s with db := db }
    | .error (.value _) => some s
    | .error .reply => none
  | .delete key =>
    match RedisClient.delete s.db key with
    | .ok (_, db) => some ⟨db, s.inserted.filter fun k => k ≠ encode key⟩
    | .error _ => none

/-- The index contains exactly the keys that have a record and were inserted. -/
def Session.InStep (s : Session) : Prop := ∀ k, s.db.Indexed k ↔ s.db.HasRecord k ∧ k ∈ s.inserted

/-- A call does not delete a key that is in the index, nor an index with a key in it. -/
def Keeps (s : Session) : Call → Prop
  | .delete key => ¬ s.db.Indexed (encode key) ∧ (encode key = encode indexKey → ∀ k, ¬ s.db.Indexed k)
  | _ => True

/-! ### What commands do -/

namespace Keyspace

variable {db : Keyspace} {k k' i m : Bytes}

theorem hasRecord_put_hash {fields : Filled Bytes} : HasRecord (db.put k (.hash fields)) k' ↔ k' = k ∨ db.HasRecord k' := by
  rw [HasRecord, SortedMap.get_put]
  by_cases h : k' = k
  · rw [if_pos h]
    exact iff_of_true ⟨fields, rfl⟩ (.inl h)
  · rw [if_neg h]
    exact ⟨.inr, fun hor => hor.resolve_left h⟩

theorem hasRecord_put_zset {scores : Filled ℤ} : HasRecord (db.put k (.zset scores)) k' ↔ k' ≠ k ∧ db.HasRecord k' := by
  rw [HasRecord, SortedMap.get_put]
  by_cases h : k' = k
  · rw [if_pos h]
    refine iff_of_false ?_ fun hand => hand.1 h
    rintro ⟨fields, hfields⟩
    cases hfields
  · rw [if_neg h]
    exact ⟨fun hrec => ⟨h, hrec⟩, And.right⟩

theorem hasRecord_delete : HasRecord (SortedMap.delete db k) k' ↔ k' ≠ k ∧ db.HasRecord k' := by
  rw [HasRecord, SortedMap.get_delete]
  by_cases h : k' = k
  · simp [h]
  · simp [h, HasRecord]

theorem contains_put_hash {fields : Filled Bytes} : Contains (db.put k (.hash fields)) i m ↔ i ≠ k ∧ db.Contains i m := by
  rw [Contains, SortedMap.get_put]
  by_cases h : i = k
  · simp [h]
  · simp [h, Contains]

theorem contains_put_zset {scores : Filled ℤ} : Contains (db.put i (.zset scores)) i m ↔ (scores.map.get m).isSome = true := by
  rw [Contains, SortedMap.get_put_self]
  constructor
  · rintro ⟨scores', heq, h⟩
    cases heq
    exact h
  · exact fun h => ⟨scores, rfl, h⟩

theorem contains_delete : Contains (SortedMap.delete db k) i m ↔ i ≠ k ∧ db.Contains i m := by
  rw [Contains, SortedMap.get_delete]
  by_cases h : i = k
  · simp [h]
  · simp [h, Contains]

/-- `HMSET` is for a key that does not hold a sorted set. -/
theorem hmset_ok {entries : List (Bytes × Bytes)} {r : Utf16 × Keyspace} (h : db.hmset k entries = .ok r) :
    (∀ m, ¬ db.Contains k m) ∧ ∃ fields, r = (okReply, db.put k (.hash fields)) := by
  cases entries with
  | nil => cases h
  | cons e entries =>
    simp only [hmset] at h
    split at h
    · next hnone =>
      cases h
      exact ⟨by simp [Contains, hnone], _, rfl⟩
    · next fields hhash =>
      cases h
      exact ⟨by simp [Contains, hhash], _, rfl⟩
    · cases h

/-- `ZADD` is for a key that does not hold a hash. -/
theorem zadd_ok {score : ℤ} {r : ℤ × Keyspace} (h : db.zadd i score m = .ok r) :
    ¬ db.HasRecord i ∧ ∃ scores, r.2 = db.put i (.zset scores) ∧ ∀ m', (scores.map.get m').isSome = true ↔ m' = m ∨ db.Contains i m' := by
  have hput : ∀ (old : SortedMap Bytes ℤ) (m' : Bytes), ((old.put m score).get m').isSome = true ↔ m' = m ∨ (old.get m').isSome = true := by
    intro old m'
    rw [SortedMap.get_put]
    by_cases hm : m' = m
    · simp [hm]
    · simp [hm]
  rw [zadd] at h
  split at h
  · next hnone =>
    cases h
    refine ⟨by simp [HasRecord, hnone], _, rfl, fun m' => ?_⟩
    rw [Filled.put, hput]
    simp [Contains, hnone]
  · next scores hzset =>
    cases h
    refine ⟨by simp [HasRecord, hzset], _, rfl, fun m' => ?_⟩
    rw [Filled.put, hput]
    simp [Contains, hzset]
  · cases h

/-- `ZREM` takes the member from the sorted set, and leaves what other keys hold. -/
theorem zrem_ok {r : ℤ × Keyspace} (h : db.zrem i m = .ok r) :
    (∀ m', Contains r.2 i m' ↔ m' ≠ m ∧ db.Contains i m') ∧ (∀ k', HasRecord r.2 k' ↔ db.HasRecord k') ∧
      ∀ k' scores, r.2.get k' = some (.zset scores) → k' = i ∨ db.get k' = some (.zset scores) := by
  rw [zrem] at h
  split at h
  · next hnone =>
    cases h
    exact ⟨by simp [Contains, hnone], fun _ => Iff.rfl, fun _ _ hz => .inr hz⟩
  · next scores hzset =>
    have hno : ¬ db.HasRecord i := by simp [HasRecord, hzset]
    have hold : ∀ m', db.Contains i m' ↔ (scores.map.get m').isSome = true := by simp [Contains, hzset]
    have hdel : ∀ m', ((scores.map.delete m).get m').isSome = true ↔ m' ≠ m ∧ (scores.map.get m').isSome = true := by
      intro m'
      rw [SortedMap.get_delete]
      by_cases hm : m' = m
      · simp [hm]
      · simp [hm]
    have hrec : ∀ k', k' ≠ i ∧ db.HasRecord k' ↔ db.HasRecord k' :=
      fun k' => ⟨And.right, fun hrec => ⟨fun heq => hno (heq ▸ hrec), hrec⟩⟩
    split_ifs at h with hin hempty
    · cases h
      refine ⟨fun m' => ?_, fun k' => hasRecord_delete.trans (hrec k'), fun k' scores' hz => ?_⟩
      · -- the last member is gone
        have hgone : (scores.map.delete m).get m' = none := by
          rw [SortedMap.get, hempty]
          rfl
        rw [contains_delete, hold, ← hdel, hgone]
        simp
      · rw [SortedMap.get_delete] at hz
        by_cases heq : k' = i
        · exact .inl heq
        · rw [if_neg heq] at hz
          exact .inr hz
    · cases h
      refine ⟨fun m' => ?_, fun k' => hasRecord_put_zset.trans (hrec k'), fun k' scores' hz => ?_⟩
      · rw [contains_put_zset, hold, hdel]
      · rw [SortedMap.get_put] at hz
        by_cases heq : k' = i
        · exact .inl heq
        · rw [if_neg heq] at hz
          exact .inr hz
    · cases h
      refine ⟨fun m' => ⟨fun hc => ⟨fun hm => ?_, hc⟩, And.right⟩, fun _ => Iff.rfl, fun _ _ hz => .inr hz⟩
      exact hin ((hold m).mp (hm ▸ hc))
  · cases h

end Keyspace

/-! ### What the calls do -/

section

variable {db db' : Keyspace} {key : Utf16} {values : Values Utf16} {st : Status}

/-- Only `_indices` holds a sorted set. -/
def OnlyIndex (db : Keyspace) : Prop := ∀ k scores, db.get k = some (.zset scores) → k = encode indexKey

theorem OnlyIndex.put_hash (h : OnlyIndex db) (k : Bytes) (fields : Filled Bytes) : OnlyIndex (db.put k (.hash fields)) := by
  intro k' scores hz
  rw [SortedMap.get_put] at hz
  by_cases heq : k' = k
  · rw [if_pos heq] at hz
    cases hz
  · rw [if_neg heq] at hz
    exact h k' scores hz

theorem OnlyIndex.put_zset (h : OnlyIndex db) (scores : Filled ℤ) : OnlyIndex (db.put (encode indexKey) (.zset scores)) := by
  intro k' scores' hz
  rw [SortedMap.get_put] at hz
  by_cases heq : k' = encode indexKey
  · exact heq
  · rw [if_neg heq] at hz
    exact h k' scores' hz

theorem OnlyIndex.delete (h : OnlyIndex db) (k : Bytes) : OnlyIndex (SortedMap.delete db k) := by
  intro k' scores hz
  rw [SortedMap.get_delete] at hz
  by_cases heq : k' = k
  · rw [if_pos heq] at hz
    cases hz
  · rw [if_neg heq] at hz
    exact h k' scores hz

/-- What the calls have in common: the fields are set. -/
theorem hmset_indexed {entries : List (Bytes × Bytes)} {r : Utf16 × Keyspace} (h : db.hmset (encode key) entries = .ok r) :
    r.1 = okReply ∧ (∀ k, r.2.HasRecord k ↔ k = encode key ∨ db.HasRecord k) ∧ (∀ k, r.2.Indexed k ↔ db.Indexed k) ∧
      (OnlyIndex db → OnlyIndex r.2) := by
  obtain ⟨hno, fields, rfl⟩ := Keyspace.hmset_ok h
  refine ⟨rfl, fun k => Keyspace.hasRecord_put_hash, fun k => Keyspace.contains_put_hash.trans ?_, fun hindex => hindex.put_hash _ _⟩
  exact ⟨And.right, fun hk => ⟨fun heq => hno k (heq ▸ hk), hk⟩⟩

/-- `update` sets the record, and leaves the index. -/
theorem update_ok (h : RedisClient.update db key values = .ok (st, db')) :
    (∀ k, db'.HasRecord k ↔ k = encode key ∨ db.HasRecord k) ∧ (∀ k, db'.Indexed k ↔ db.Indexed k) ∧ (OnlyIndex db → OnlyIndex db') := by
  obtain ⟨strings, -, h⟩ := bind_inv h
  obtain ⟨r, hset, h⟩ := bind_inv h
  cases h
  exact (hmset_indexed hset).2

/-- `insert` sets the record, and adds the key to the index. -/
theorem insert_ok (h : RedisClient.insert db key values = .ok (st, db')) :
    st = .ok ∧ (∀ k, db'.HasRecord k ↔ k = encode key ∨ db.HasRecord k) ∧ (∀ k, db'.Indexed k ↔ k = encode key ∨ db.Indexed k) ∧
      (OnlyIndex db → OnlyIndex db') := by
  obtain ⟨strings, -, h⟩ := bind_inv h
  obtain ⟨r, hset, h⟩ := bind_inv h
  obtain ⟨hreply, hrec, hindexed, honly⟩ := hmset_indexed hset
  dsimp only at h
  rw [if_pos hreply] at h
  obtain ⟨r', hadd, h⟩ := bind_inv h
  cases h
  obtain ⟨hno, scores, heq, hmem⟩ := Keyspace.zadd_ok hadd
  rw [heq]
  refine ⟨rfl, fun k => ?_, fun k => ?_, fun hindex => (honly hindex).put_zset scores⟩
  · -- the index is not a record before, and not the record that has been set
    rw [Keyspace.hasRecord_put_zset, hrec]
    refine ⟨And.right, fun hk => ⟨fun hindex => hno ?_, hk⟩⟩
    rw [hrec, ← hindex]
    exact hk
  · exact Keyspace.contains_put_zset.trans ((hmem k).trans (or_congr_right (hindexed k)))

/-- `delete` where there is something to delete: it is gone, and what the index contains stays, if it was not the index. -/
theorem delete_of_isSome (hsome : (db.get (encode key)).isSome = true) (h : RedisClient.delete db key = .ok (st, db')) :
    (∀ k, db'.HasRecord k ↔ k ≠ encode key ∧ db.HasRecord k) ∧ (∀ k, db'.Indexed k ↔ encode indexKey ≠ encode key ∧ db.Indexed k) ∧
      (OnlyIndex db → OnlyIndex db') := by
  rw [RedisClient.delete, Keyspace.del, if_pos hsome] at h
  cases h
  exact ⟨fun k => Keyspace.hasRecord_delete, fun k => Keyspace.contains_delete, fun hindex => hindex.delete _⟩

/-- `delete` where there is nothing: the key is taken from the index. -/
theorem delete_of_none (hnone : db.get (encode key) = none) (h : RedisClient.delete db key = .ok (st, db')) :
    (∀ k, db'.HasRecord k ↔ db.HasRecord k) ∧ (∀ k, db'.Indexed k ↔ k ≠ encode key ∧ db.Indexed k) ∧ (OnlyIndex db → OnlyIndex db') := by
  have hno : ¬ db.HasRecord (encode key) := by simp [Keyspace.HasRecord, hnone]
  rw [RedisClient.delete, Keyspace.del, hnone] at h
  obtain ⟨r, hrem, h⟩ := bind_inv h
  cases h
  obtain ⟨hindexed, hrec, hzset⟩ := Keyspace.zrem_ok hrem
  refine ⟨fun k => ?_, fun k => ?_, fun hindex k scores hz => ?_⟩
  · rw [hrec, Keyspace.hasRecord_delete]
    exact ⟨And.right, fun hk => ⟨fun heq => hno (heq ▸ hk), hk⟩⟩
  · refine (hindexed k).trans (and_congr_right fun _ => Keyspace.contains_delete.trans ?_)
    refine ⟨And.right, fun hk => ⟨fun heq => ?_, hk⟩⟩
    obtain ⟨scores, hscores, -⟩ := hk
    rw [heq, hnone] at hscores
    cases hscores
  · rcases hzset k scores hz with heq | hold
    · exact heq
    · exact hindex.delete _ k scores hold

end

/-! ### The index in a run -/

/-- What holds in every run. -/
structure Session.Sound (s : Session) : Prop where
  /-- The index is the one sorted set. -/
  onlyIndex : OnlyIndex s.db
  /-- It contains strings. -/
  strings : ∀ k, s.db.Indexed k → ∃ key, k = encode key
  /-- What has been inserted, and not been deleted since, has a record. -/
  recorded : ∀ k ∈ s.inserted, s.db.HasRecord k

theorem sound_init : Session.init.Sound where
  onlyIndex k scores hz := by cases hz
  strings k hk := by
    obtain ⟨scores, hz, -⟩ := hk
    cases hz
  recorded k hk := absurd hk List.not_mem_nil

section

variable {s s' : Session} {c : Call}

/-- **What a call does.** -/
theorem step_cases (h : step s c = some s') :
    ((∀ key, c ≠ .delete key) ∧ s' = s) ∨
    (∃ key values db, c = .insert key values ∧ RedisClient.insert s.db key values = .ok (.ok, db) ∧ s' = ⟨db, encode key :: s.inserted⟩) ∨
    (∃ key values st db, c = .update key values ∧ RedisClient.update s.db key values = .ok (st, db) ∧ s' = ⟨db, s.inserted⟩) ∨
    ∃ key st db, c = .delete key ∧ RedisClient.delete s.db key = .ok (st, db) ∧ s' = ⟨db, s.inserted.filter fun k => k ≠ encode key⟩ := by
  cases c with
  | insert key values =>
    rw [step] at h
    split at h
    · next status db hinsert =>
      obtain rfl := (insert_ok hinsert).1
      exact .inr (.inl ⟨key, values, db, rfl, hinsert, (Option.some.inj h).symm⟩)
    · exact .inl ⟨fun _ hc => (nomatch hc), (Option.some.inj h).symm⟩
    · cases h
  | update key values =>
    rw [step] at h
    split at h
    · next status db hupdate => exact .inr (.inr (.inl ⟨key, values, status, db, rfl, hupdate, (Option.some.inj h).symm⟩))
    · exact .inl ⟨fun _ hc => (nomatch hc), (Option.some.inj h).symm⟩
    · cases h
  | delete key =>
    rw [step] at h
    split at h
    · next status db hdelete => exact .inr (.inr (.inr ⟨key, status, db, rfl, hdelete, (Option.some.inj h).symm⟩))
    · cases h

theorem sound_step (hs : s.Sound) (h : step s c = some s') : s'.Sound := by
  rcases step_cases h with ⟨-, rfl⟩ | ⟨key, values, db, rfl, hinsert, rfl⟩ | ⟨key, values, st, db, rfl, hupdate, rfl⟩ | ⟨key, st, db, rfl, hdelete, rfl⟩
  · exact hs
  · obtain ⟨-, hrec, hindexed, honly⟩ := insert_ok hinsert
    refine ⟨honly hs.onlyIndex, fun k hk => ?_, fun k hk => ?_⟩
    · rcases (hindexed k).mp hk with rfl | hk
      · exact ⟨key, rfl⟩
      · exact hs.strings k hk
    · exact (hrec k).mpr ((List.mem_cons.mp hk).imp_right (hs.recorded k))
  · obtain ⟨hrec, hindexed, honly⟩ := update_ok hupdate
    exact ⟨honly hs.onlyIndex, fun k hk => hs.strings k ((hindexed k).mp hk), fun k hk => (hrec k).mpr (.inr (hs.recorded k hk))⟩
  · -- what is still inserted is not what has been deleted
    have hleft : ∀ k ∈ s.inserted.filter fun k => k ≠ encode key, k ≠ encode key ∧ s.db.HasRecord k := by
      intro k hk
      obtain ⟨hmem, hne⟩ := List.mem_filter.mp hk
      exact ⟨of_decide_eq_true hne, hs.recorded k hmem⟩
    cases hget : s.db.get (encode key) with
    | none =>
      obtain ⟨hrec, hindexed, honly⟩ := delete_of_none hget hdelete
      exact ⟨honly hs.onlyIndex, fun k hk => hs.strings k ((hindexed k).mp hk).2, fun k hk => (hrec k).mpr (hleft k hk).2⟩
    | some v =>
      obtain ⟨hrec, hindexed, honly⟩ := delete_of_isSome (by rw [hget]; rfl) hdelete
      exact ⟨honly hs.onlyIndex, fun k hk => hs.strings k ((hindexed k).mp hk).2, fun k hk => (hrec k).mpr (hleft k hk)⟩

/-- What a deletion leaves of a database and an index in step. -/
theorem inStep_delete {key : Utf16} {st : Status} {db : Keyspace} (hin : s.InStep) (h : RedisClient.delete s.db key = .ok (st, db)) :
    Session.InStep ⟨db, s.inserted.filter fun k => k ≠ encode key⟩ ↔ Keeps s (.delete key) := by
  have hmem : ∀ k, k ∈ (s.inserted.filter fun k => k ≠ encode key) ↔ k ∈ s.inserted ∧ k ≠ encode key := by
    intro k
    rw [List.mem_filter, decide_eq_true_iff]
  cases hget : s.db.get (encode key) with
  | none =>
    -- nothing has a record there, so the index does not contain it
    obtain ⟨hrec, hindexed, -⟩ := delete_of_none hget h
    have hno : ¬ s.db.HasRecord (encode key) := by simp [Keyspace.HasRecord, hget]
    refine iff_of_true (fun k => ?_) ⟨fun hk => hno ((hin _).mp hk).1, fun heq k hk => ?_⟩
    · rw [hindexed, hrec, hmem, hin k]
      tauto
    · obtain ⟨scores, hz, -⟩ := hk
      rw [← heq, hget] at hz
      cases hz
  | some v =>
    obtain ⟨hrec, hindexed, -⟩ := delete_of_isSome (by rw [hget]; rfl) h
    have hiff : Session.InStep ⟨db, s.inserted.filter fun k => k ≠ encode key⟩ ↔
        ∀ k, s.db.Indexed k → encode indexKey ≠ encode key ∧ k ≠ encode key := by
      refine forall_congr' fun k => ?_
      -- the index is not a record, and so not in the index
      have hindex : s.db.HasRecord k → k ∈ s.inserted → encode indexKey = encode key → k ≠ encode key := by
        intro hk hmem heq hkey
        obtain ⟨scores, hz, -⟩ := (hin k).mpr ⟨hk, hmem⟩
        obtain ⟨fields, hhash⟩ := hk
        rw [hkey, ← heq, hz] at hhash
        cases hhash
      rw [hindexed, hrec, hmem, hin k]
      tauto
    rw [hiff, Keeps]
    constructor
    · intro hall
      exact ⟨fun hk => (hall _ hk).2 rfl, fun heq k hk => (hall k hk).1 heq.symm⟩
    · rintro ⟨hkey, hindex⟩ k hk
      exact ⟨fun heq => hindex heq.symm k hk, fun heq => hkey (heq ▸ hk)⟩

/-- **A call keeps database and index in step just if it does not delete what is in the index.** -/
theorem inStep_step (hs : s.Sound) (hin : s.InStep) (h : step s c = some s') : s'.InStep ↔ Keeps s c := by
  rcases step_cases h with ⟨hc, rfl⟩ | ⟨key, values, db, rfl, hinsert, rfl⟩ | ⟨key, values, st, db, rfl, hupdate, rfl⟩ | ⟨key, st, db, rfl, hdelete, rfl⟩
  · refine iff_of_true hin ?_
    cases c with
    | delete key => exact absurd rfl (hc key)
    | insert key values => trivial
    | update key values => trivial
  · obtain ⟨-, hrec, hindexed, -⟩ := insert_ok hinsert
    refine iff_of_true (fun k => ?_) trivial
    rw [hindexed, hrec, List.mem_cons, hin k]
    tauto
  · -- a record that `update` makes has not been inserted
    obtain ⟨hrec, hindexed, -⟩ := update_ok hupdate
    refine iff_of_true (fun k => ?_) trivial
    rw [hindexed, hrec, hin k]
    have := hs.recorded k
    tauto
  · exact inStep_delete hin hdelete

/-- Where database and index are in step, a scan reads keys that have a record. -/
theorem Session.InStep.scansRecords (hs : s.Sound) (hin : s.InStep) : s.db.ScansRecords := by
  intro startkey recordcount keys hscan key hkey
  obtain ⟨members, hrange, rfl⟩ := map_inv hscan
  obtain ⟨m, hm, rfl⟩ := List.mem_map.mp hkey
  have hindexed : s.db.Indexed m := by
    rw [Keyspace.zrangeByScore] at hrange
    split at hrange
    · cases hrange
      cases hm
    · next scores hz =>
      obtain rfl := Except.ok.inj hrange
      have hall : m ∈ ((scores.map.entries.insertionSort fun a b => a.2 ≤ b.2).filter fun e => hash startkey ≤ e.2).map Prod.fst := by
        split_ifs at hm
        · exact hm
        · exact List.mem_of_mem_take hm
      obtain ⟨e, he, rfl⟩ := List.mem_map.mp hall
      have hentry : (e.1, e.2) ∈ scores.map.entries := (List.mem_insertionSort _).mp (List.mem_filter.mp he).1
      exact ⟨scores, hz, by rw [SortedMap.mem_entries.mp hentry]; rfl⟩
    · cases hrange
  obtain ⟨key, rfl⟩ := hs.strings m hindexed
  -- a member comes back from UTF-8 as a string with the same encoding
  obtain ⟨hwell, hsame⟩ := encode_scrub key
  rw [← hsame, decode_encode hwell, hsame]
  exact ((hin _).mp hindexed).1

end

/-! ### What a scan returns -/

section

variable {db : Keyspace} {key : Utf16}

theorem entries_foldl_insert {l : List (Utf16 × Option Utf16)} {r : Result} (h : l ≠ [] ∨ r.entries ≠ []) :
    (l.foldl (fun r e => r.insert e.1 e.2) r).entries ≠ [] := by
  induction l generalizing r with
  | nil => exact h.resolve_left fun hne => hne rfl
  | cons e l ih => exact ih (.inr (List.cons_ne_nil _ _))

/-- Reading all fields of a record finds one. -/
theorem read_of_hasRecord (h : db.HasRecord (encode key)) : ∃ result, RedisClient.read db key none ∅ = .ok (.ok, result) ∧ result.entries ≠ [] := by
  obtain ⟨fields, hget⟩ := h
  have hall : db.hgetAll (encode key) = .ok fields.map.entries := by
    rw [Keyspace.hgetAll, hget]
  have hne := entries_foldl_insert (r := ∅) (.inl (mt List.map_eq_nil_iff.mp fields.filled) :
    fields.map.entries.map (fun e => (decode e.1, some (decode e.2))) ≠ [] ∨ _)
  refine ⟨_, ?_, hne⟩
  rw [RedisClient.read]
  dsimp only
  rw [bind_ok hall]
  exact congrArg Except.ok (Prod.ext (if_neg (mt List.isEmpty_iff.mp hne)) rfl)

theorem scanLoop_of_hasRecord {keys : List Utf16} (h : ∀ key ∈ keys, db.HasRecord (encode key)) :
    ∃ results, RedisClient.scanLoop db none keys = .ok results ∧ ∀ result ∈ results, result.entries ≠ [] := by
  induction keys with
  | nil => exact ⟨[], rfl, fun r hr => absurd hr List.not_mem_nil⟩
  | cons key keys ih =>
    obtain ⟨hkey, hkeys⟩ := List.forall_mem_cons.mp h
    obtain ⟨result, hread, hne⟩ := read_of_hasRecord hkey
    obtain ⟨results, hloop, hall⟩ := ih hkeys
    refine ⟨result :: results, ?_, List.forall_mem_cons.mpr ⟨hne, hall⟩⟩
    rw [RedisClient.scanLoop, bind_ok hread]
    dsimp only
    rw [bind_ok hloop]

/-- A scan that reads keys with a record returns no empty record. -/
theorem scan_of_scansRecords (h : db.ScansRecords) {startkey : Utf16} {recordcount : ℤ} {keys : List Utf16}
    (hkeys : RedisClient.scanKeys db startkey recordcount = .ok keys) :
    ∃ results, RedisClient.scan db startkey recordcount none = .ok (.ok, results) ∧ ∀ result ∈ results, result.entries ≠ [] := by
  obtain ⟨results, hloop, hall⟩ := scanLoop_of_hasRecord (h startkey recordcount keys hkeys)
  refine ⟨results, ?_, hall⟩
  rw [RedisClient.scan, bind_ok hkeys, bind_ok hloop]

end

/-- **In a run of calls on an empty database the index contains exactly the keys that have a record and were inserted, and a scan reads only keys
that have a record**, just if no call deletes a key in the index, or an index with a key in it. -/
theorem inStep_iff {calls : List Call} {t : Session} (h : exec step .init calls = some t) :
    Always step (fun s => s.InStep ∧ s.db.ScansRecords) .init calls ↔ Meets step Keeps .init calls := by
  have hinit : Session.init.InStep := by
    intro k
    refine iff_of_false (fun hk => ?_) fun hk => absurd hk.2 List.not_mem_nil
    obtain ⟨scores, hz, -⟩ := hk
    cases hz
  refine always_iff_meets (I := Session.Sound) (fun s c s' => sound_step) ?_ sound_init ⟨hinit, hinit.scansRecords sound_init⟩ h
  intro s c s' hs hP hstep
  rw [← inStep_step hs hP.1 hstep]
  exact ⟨And.left, fun hin => ⟨hin, hin.scansRecords (sound_step hs hstep)⟩⟩

/-- A key that is updated, deleted, and then inserted. -/
theorem inStep_iff_inserted :
    ∃ t, exec step .init [.update [0x6B] (AList.singleton [0x66] (.string (.ofString []))), .delete [0x6B],
        .insert [0x6B] (AList.singleton [0x66] (.string (.ofString [])))] = some t ∧
      Always step (fun s => s.InStep ∧ s.db.ScansRecords) .init [.update [0x6B] (AList.singleton [0x66] (.string (.ofString []))), .delete [0x6B],
        .insert [0x6B] (AList.singleton [0x66] (.string (.ofString [])))] := by
  obtain ⟨t, ht⟩ : ∃ t, exec step .init [.update [0x6B] (AList.singleton [0x66] (.string (.ofString []))), .delete [0x6B],
      .insert [0x6B] (AList.singleton [0x66] (.string (.ofString [])))] = some t := ⟨_, rfl⟩
  refine ⟨t, ht, (inStep_iff ht).mpr ⟨trivial, fun s₁ h₁ => ⟨⟨?_, ?_⟩, fun s₂ h₂ => ⟨trivial, fun _ _ => trivial⟩⟩⟩⟩
  · cases h₁
    rintro ⟨scores, hz, -⟩
    cases hz
  · intro heq
    exact absurd heq (by decide)

/-- A record that has been inserted and deleted is still in the index. -/
theorem not_inStep :
    ¬ ∀ (calls : List Call) (t : Session), exec step .init calls = some t → t.InStep := by
  intro h
  have hstep := h [.insert [0x6B] (AList.singleton [0x66] (.string (.ofString []))), .delete [0x6B]] _ rfl
  obtain ⟨⟨fields, hrec⟩, -⟩ := (hstep (encode [0x6B])).mp ⟨_, rfl, rfl⟩
  cases hrec

end YcsbIvs.Redis
