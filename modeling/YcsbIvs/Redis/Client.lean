import YcsbIvs.Core.Consumption
import YcsbIvs.Core.DB
import YcsbIvs.Foundations.SortedMap
import YcsbIvs.Workloads.Values
import Mathlib.Data.List.Sort

/-!
# The Redis binding

`RedisClient` keeps a record as a hash, under its key alone: the table is not used. Beside the records there is one sorted
set, `_indices`, with the hash code of each key as its score. `insert` sets the hash and adds the key to the index; `update` sets the hash;
`delete` removes the hash, and the key from the index **only if there was no hash to remove**. `scan` takes keys from
the index by their scores, and reads the record of each.

Strings are sent as UTF-8. Redis has no empty hash and no empty sorted set (`Filled`): what would become empty is removed. A command for
another type of value is answered by an error, and so is `HMSET` or `HMGET` without fields; the client throws then.
-/

namespace YcsbIvs.Redis

open YcsbIvs.Foundations YcsbIvs.Core
open YcsbIvs.Workloads (hashCode)

/-! ### Redis -/

/-- The entries of a hash or a sorted set: there is at least one. -/
structure Filled (β : Type) where
  /-- The entries. -/
  map : SortedMap Bytes β
  /-- There is one. -/
  filled : map.entries ≠ []

/-- What a key of Redis holds. -/
inductive Value where
  /-- A hash. -/
  | hash (fields : Filled Bytes)
  /-- A sorted set: members and their scores. -/
  | zset (scores : Filled ℤ)

/-- The keys of a database. -/
abbrev Keyspace := SortedMap Bytes Value

/-- What a call throws. -/
inductive Thrown where
  /-- What `toString` of a value throws. -/
  | value (t : Throwable)
  /-- `JedisDataException`: the reply to a command is an error. -/
  | reply

/-- A map with another entry. -/
def Filled.put {β : Type} (m : SortedMap Bytes β) (k : Bytes) (v : β) : Filled β :=
  ⟨m.put k v, SortedMap.entries_ne_nil (m.get_put_self k v)⟩

/-- The reply `OK`. -/
def okReply : Utf16 := [0x4F, 0x4B]

namespace Keyspace

/-- `HMSET key field value …`. -/
def hmset (db : Keyspace) (key : Bytes) : List (Bytes × Bytes) → Except Thrown (Utf16 × Keyspace)
  | [] => .error .reply
  | e :: entries =>
    let set (m : SortedMap Bytes Bytes) : Value :=
      .hash (entries.foldl (fun m e => .put m.map e.1 e.2) (.put m e.1 e.2))
    match db.get key with
    | none => .ok (okReply, db.put key (set .empty))
    | some (.hash fields) => .ok (okReply, db.put key (set fields.map))
    | some (.zset _) => .error .reply

/-- `ZADD key score member`: how many members are new. -/
def zadd (db : Keyspace) (key : Bytes) (score : ℤ) (member : Bytes) : Except Thrown (ℤ × Keyspace) :=
  match db.get key with
  | none => .ok (1, db.put key (.zset (.put .empty member score)))
  | some (.zset scores) => .ok (if (scores.map.get member).isSome then 0 else 1, db.put key (.zset (.put scores.map member score)))
  | some (.hash _) => .error .reply

/-- `ZREM key member`: how many members are removed. -/
def zrem (db : Keyspace) (key member : Bytes) : Except Thrown (ℤ × Keyspace) :=
  match db.get key with
  | none => .ok (0, db)
  | some (.zset scores) =>
    if (scores.map.get member).isSome then
      if h : (scores.map.delete member).entries = [] then .ok (1, db.delete key)
      else .ok (1, db.put key (.zset ⟨scores.map.delete member, h⟩))
    else .ok (0, db)
  | some (.hash _) => .error .reply

/-- `DEL key`: how many keys are removed. -/
def del (db : Keyspace) (key : Bytes) : ℤ × Keyspace := (if (db.get key).isSome then 1 else 0, db.delete key)

/-- `HGETALL key`. -/
def hgetAll (db : Keyspace) (key : Bytes) : Except Thrown (List (Bytes × Bytes)) :=
  match db.get key with
  | none => .ok []
  | some (.hash fields) => .ok fields.map.entries
  | some (.zset _) => .error .reply

/-- `HMGET key field …`. -/
def hmget (db : Keyspace) (key : Bytes) : List Bytes → Except Thrown (List (Option Bytes))
  | [] => .error .reply
  | f :: fs =>
    match db.get key with
    | none => .ok ((f :: fs).map fun _ => none)
    | some (.hash fields) => .ok ((f :: fs).map fields.map.get)
    | some (.zset _) => .error .reply

/-- `ZRANGEBYSCORE key min +inf LIMIT 0 count`: members by score, then by their bytes. A negative `count` is no limit. -/
def zrangeByScore (db : Keyspace) (key : Bytes) (min count : ℤ) : Except Thrown (List Bytes) :=
  match db.get key with
  | none => .ok []
  | some (.zset scores) =>
    let range := ((scores.map.entries.insertionSort fun a b => a.2 ≤ b.2).filter fun e => min ≤ e.2).map Prod.fst
    .ok (if count < 0 then range else range.take count.toNat)
  | some (.hash _) => .error .reply

end Keyspace

/-! ### The client -/

/-- `INDEX_KEY`, the name `_indices`. -/
def indexKey : Utf16 := [0x5F, 0x69, 0x6E, 0x64, 0x69, 0x63, 0x65, 0x73]

/-- `hash(key)`. It is an `int`, and so exact as a `double`. -/
def hash (key : Utf16) : ℤ := hashCode key

namespace RedisClient

/-- `insert(table, key, values)`. -/
def insert (db : Keyspace) (key : Utf16) (values : Values Utf16) : Except Thrown (Status × Keyspace) := do
  let (strings, _) ← (getStringMap values.entries).mapError .value
  let (reply, db) ← db.hmset (encode key) (strings.map fun e => (encode e.1, encode e.2))
  if reply = okReply then
    let (_, db) ← db.zadd (encode indexKey) (hash key) (encode key)
    .ok (.ok, db)
  else .ok (.error, db)

/-- `delete(table, key)`. -/
def delete (db : Keyspace) (key : Utf16) : Except Thrown (Status × Keyspace) :=
  let (deleted, db) := db.del (encode key)
  if deleted = 0 then do
    let (removed, db) ← db.zrem (encode indexKey) (encode key)
    .ok (if removed = 0 then .error else .ok, db)
  else .ok (.ok, db)

/-- `update(table, key, values)`. -/
def update (db : Keyspace) (key : Utf16) (values : Values Utf16) : Except Thrown (Status × Keyspace) := do
  let (strings, _) ← (getStringMap values.entries).mapError .value
  let (reply, db) ← db.hmset (encode key) (strings.map fun e => (encode e.1, encode e.2))
  .ok (if reply = okReply then .ok else .error, db)

/-- `read(table, key, fields, result)`; without fields it reads all of them. -/
def read (db : Keyspace) (key : Utf16) (fields : Option (List Utf16)) (result : Result) : Except Thrown (Status × Result) := do
  let entries ←
    match fields with
    | none => do
      let all ← db.hgetAll (encode key)
      .ok (all.map fun e => (decode e.1, some (decode e.2)))
    | some fields => do
      let values ← db.hmget (encode key) (fields.map encode)
      .ok (fields.zip (values.map (Option.map decode)))
  let result := entries.foldl (fun r e => r.insert e.1 e.2) result
  .ok (if result.entries.isEmpty then .error else .ok, result)

/-- The keys that `scan` goes through. -/
def scanKeys (db : Keyspace) (startkey : Utf16) (recordcount : ℤ) : Except Thrown (List Utf16) :=
  (db.zrangeByScore (encode indexKey) (hash startkey) recordcount).map (List.map decode)

/-- The loop of `scan`: whatever `read` returns, its map is added. -/
def scanLoop (db : Keyspace) (fields : Option (List Utf16)) : List Utf16 → Except Thrown (List Result)
  | [] => .ok []
  | key :: keys => do
    let (_, values) ← read db key fields ∅
    let rest ← scanLoop db fields keys
    .ok (values :: rest)

/-- `scan(table, startkey, recordcount, fields, result)`: what it adds to `result`. -/
def scan (db : Keyspace) (startkey : Utf16) (recordcount : ℤ) (fields : Option (List Utf16)) : Except Thrown (Status × List Result) := do
  let keys ← scanKeys db startkey recordcount
  let results ← scanLoop db fields keys
  .ok (.ok, results)

end RedisClient

end YcsbIvs.Redis
