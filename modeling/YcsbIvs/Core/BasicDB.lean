import YcsbIvs.Core.Hashing
import YcsbIvs.Foundations.Pool
import Mathlib.Algebra.Order.BigOperators.Group.List
import Mathlib.Algebra.Order.Group.Int
import Mathlib.Algebra.Order.Ring.Int
import Mathlib.Data.List.Dedup

/-!
# The database that only counts

`BasicDB` does nothing with its operations. With `basicdb.count` it counts them by their hash codes, in five static maps that all its clients
share, and the last client that is cleaned up prints how many hash codes there have been of each kind of operation. The maps are made by an `init` that
finds no client counted in `counter`; so if all clients that there are have been cleaned up before the next one is initialized, there is a report for those, and one for the others.

`init` and `cleanup` hold one lock, and `incCounter` that of its map; before it the operation reads the static field, and makes its hash code (`move`). An operation that throws ends its
thread, whose client is not cleaned up. What is printed of an operation with `basicdb.verbose`, and the simulated delay, are left out.

**Each report is of all the operations of its clients** (`reports_run`), in any interleaving: for each kind it has the number of different hash codes. And no increment is
lost: when no client is in an operation, the maps have the number of operations with each hash code (`counts_run`).
-/

namespace YcsbIvs.Core.BasicDB

open YcsbIvs.Foundations

/-! ### Clients -/

/-- A static map. -/
inductive Kind where
  | reads | scans | updates | inserts | deletes
  deriving DecidableEq, Repr

/-- The map that an operation is counted in. -/
def Operation.kind : Operation → Kind
  | .read .. => .reads
  | .scan .. => .scans
  | .update .. => .updates
  | .insert .. => .inserts
  | .delete .. => .deletes

/-- The five numbers that `cleanup` prints. -/
structure Report where
  /-- `[READS], Uniques`. -/
  reads : ℕ
  /-- `[SCANS], Uniques`. -/
  scans : ℕ
  /-- `[UPDATES], Uniques`. -/
  updates : ℕ
  /-- `[INSERTS], Uniques`. -/
  inserts : ℕ
  /-- `[DELETES], Uniques`. -/
  deletes : ℕ
  deriving DecidableEq, Repr

/-- The static fields, and what has been printed. -/
structure Statics where
  /-- `counter`. -/
  counter : ℤ
  /-- The maps that have been made for each field. -/
  heap : Kind → List (SortedMap ℤ ℤ)
  /-- The fields: null, or one of those. -/
  fields : Kind → Option ℕ
  /-- The reports, in the order in which they have been printed. -/
  reports : List Report

/-- Before any client is initialized. -/
def Statics.initial : Statics := ⟨0, fun _ => [], fun _ => none, []⟩

/-- What the thread of a client does with it. -/
inductive Client where
  /-- It has not called `init`. -/
  | new
  /-- It is between two operations. -/
  | ready
  /-- It is about to call `incCounter(map, hash)`. -/
  | counting (kind : Kind) (map : ℕ) (hash : ℤ)
  /-- It has thrown, and ended. -/
  | thrown
  /-- It has called `cleanup`. -/
  | cleaned
  deriving DecidableEq, Repr

/-- What a client does next. -/
inductive Event where
  /-- `init()`. -/
  | init
  /-- An operation begins. -/
  | call (op : Operation)
  /-- `incCounter`, and the operation ends. -/
  | incCounter
  /-- `cleanup()`. -/
  | cleanup

/-- The block of `init` that is locked. -/
def Statics.init (count : Bool) (s : Statics) : Statics :=
  let s := if s.counter = 0 ∧ count then
    { s with heap := fun kind => s.heap kind ++ [.empty], fields := fun kind => some (s.heap kind).length } else s
  { s with counter := asInt (s.counter + 1) }

/-- An operation up to `incCounter`. -/
def Statics.call (count : Bool) (s : Statics) (op : Operation) : Client :=
  if count then
    match op.hash with
    | .ok hash =>
      match s.fields op.kind with
      | some map => .counting op.kind map hash
      -- `synchronized` of null
      | none => .thrown
    | .error _ => .thrown
  else .ready

/-- `incCounter(map, hash)`. -/
def incCounter (map : SortedMap ℤ ℤ) (hash : ℤ) : SortedMap ℤ ℤ :=
  match map.get hash with
  | none => map.put hash 1
  | some ctr => map.put hash (asInt (ctr + 1))

/-- `incCounter` of a map that is known by its place. -/
def Statics.increment (s : Statics) (kind : Kind) (map : ℕ) (hash : ℤ) : Statics :=
  { s with heap := Function.update s.heap kind ((s.heap kind).modify map (incCounter · hash)) }

/-- `size()` of a static map. -/
def Statics.size (s : Statics) (kind : Kind) : Option ℕ :=
  (s.fields kind).bind fun map => ((s.heap kind)[map]?).map fun m => m.entries.length

/-- What `cleanup` prints; nothing if a field is null. -/
def Statics.report (s : Statics) : Option Report := do
  some ⟨← s.size .reads, ← s.size .scans, ← s.size .updates, ← s.size .inserts, ← s.size .deletes⟩

/-- The block of `cleanup` that is locked. -/
def Statics.cleanup (count : Bool) (s : Statics) : Statics × Client :=
  let countDown := asInt (s.counter - 1)
  let s := { s with counter := countDown }
  if count ∧ countDown < 1 then
    match s.report with
    | some report => ({ s with reports := s.reports ++ [report] }, .cleaned)
    | none => (s, .thrown)
  else (s, .cleaned)

/-- A step of a client. -/
def move (count : Bool) (s : Statics) : Client → Event → Option (Statics × Client)
  | .new, .init => some (s.init count, .ready)
  | .ready, .call op => some (s, s.call count op)
  | .counting kind map hash, .incCounter => some (s.increment kind map hash, .ready)
  | .ready, .cleanup => some (s.cleanup count)
  | _, _ => none

/-- The clients of a process, before any of them is initialized. -/
def start (threads : ℕ) : Pool Statics Client := ⟨.initial, List.replicate threads .new⟩

/-! ### Generations -/

/-- What has been done, in the clients' own terms. -/
structure Log where
  /-- How many clients have been initialized and not cleaned up. -/
  live : ℕ
  /-- The operations since there were none. -/
  operations : List Operation
  /-- The operations of the clients before. -/
  generations : List (List Operation)

/-- An event goes down in the log. -/
def Log.next (log : Log) : ℕ × Event → Log
  | (_, .init) => { log with live := log.live + 1, operations := if log.live = 0 then [] else log.operations }
  | (_, .call op) => { log with operations := log.operations ++ [op] }
  | (_, .incCounter) => log
  | (_, .cleanup) =>
    { log with live := log.live - 1, generations := if log.live = 1 then log.generations ++ [log.operations] else log.generations }

/-- The log of a run. -/
def logOf (run : List (ℕ × Event)) : Log := run.foldl Log.next ⟨0, [], []⟩

/-- The hash codes of the operations of a kind. -/
def hashes (kind : Kind) (operations : List Operation) : List ℤ :=
  operations.filterMap fun op => if op.kind = kind then op.hash.toOption else none

/-- How many there are that are different. -/
def uniques (operations : List Operation) (kind : Kind) : ℕ := (hashes kind operations).dedup.length

/-- The report of some operations. -/
def Report.of (operations : List Operation) : Report :=
  ⟨uniques operations .reads, uniques operations .scans, uniques operations .updates, uniques operations .inserts, uniques operations .deletes⟩

/-! ### The invariant -/

/-- A number of increments, as a map has it. -/
def tally (n : ℕ) : Option ℤ := if n = 0 then none else some (asInt n)

/-- One for a client that is counted in `counter`. -/
def Client.counted : Client → ℤ
  | .ready | .counting .. | .thrown => 1
  | .new | .cleaned => 0

/-- One for a client that is about to increment this. -/
def Client.holds (kind : Kind) (map : ℕ) (hash : ℤ) (c : Client) : ℤ := if c = .counting kind map hash then 1 else 0

/-- How many clients are counted. -/
def counted (clients : List Client) : ℤ := (clients.map Client.counted).sum

/-- How many are about to increment this. -/
def holding (kind : Kind) (map : ℕ) (hash : ℤ) (clients : List Client) : ℤ := (clients.map (Client.holds kind map hash)).sum

/-- A static map has the increments of some operations, but for those that are still held. -/
def HasCounts (s : Statics) (clients : List Client) (operations : List Operation) (kind : Kind) : Prop :=
  ∃ map m, s.fields kind = some map ∧ (s.heap kind)[map]? = some m ∧
    ∀ hash, ∃ n, m.get hash = tally n ∧ n + holding kind map hash clients = (hashes kind operations).count hash

/-- What holds of the clients and of what has been done. -/
structure Invariant (p : Pool Statics Client) (log : Log) : Prop where
  /-- `counter` can not overflow. -/
  few : p.threads.length < 2 ^ 31
  /-- The clients in the log. -/
  live : counted p.threads = log.live
  /-- `counter` counts them. -/
  counter : p.shared.counter = log.live
  /-- Each generation has been reported. -/
  reports : p.shared.reports = log.generations.map Report.of
  /-- A map that is about to be incremented is that of the field. -/
  held : ∀ kind map hash, .counting kind map hash ∈ p.threads → p.shared.fields kind = some map
  /-- The maps have the operations of this generation. -/
  maps : log.live ≠ 0 → ∀ kind, HasCounts p.shared p.threads log.operations kind

theorem get_incCounter (m : SortedMap ℤ ℤ) {hash : ℤ} {n : ℕ} (h : m.get hash = tally n) (hash' : ℤ) :
    (incCounter m hash).get hash' = if hash' = hash then tally (n + 1) else m.get hash' := by
  rw [incCounter, h, tally, tally, if_neg (Nat.succ_ne_zero n)]
  split_ifs with hzero heq heq
  · rw [SortedMap.get_put, if_pos heq, hzero]
    rfl
  · rw [SortedMap.get_put, if_neg heq]
  · rw [SortedMap.get_put, if_pos heq, asInt_asInt_add, Nat.cast_succ]
  · rw [SortedMap.get_put, if_neg heq]

section Counting

variable {clients : List Client} {i : ℕ} {c c' : Client} {kind : Kind} {map : ℕ} {hash : ℤ}

theorem counted_nonneg (c : Client) : 0 ≤ c.counted := by
  unfold Client.counted
  split <;> decide

theorem counted_le_one (c : Client) : c.counted ≤ 1 := by
  unfold Client.counted
  split <;> decide

theorem holds_nonneg (c : Client) : 0 ≤ c.holds kind map hash := by
  rw [Client.holds]
  split_ifs <;> decide

theorem holds_le_counted (c : Client) : c.holds kind map hash ≤ c.counted := by
  rw [Client.holds]
  split_ifs with h
  · rw [h]
    exact le_refl 1
  · exact counted_nonneg c

theorem holding_nonneg (clients : List Client) : 0 ≤ holding kind map hash clients := by
  refine List.sum_nonneg fun x hx => ?_
  obtain ⟨c, -, rfl⟩ := List.mem_map.mp hx
  exact holds_nonneg c

/-- Who is about to increment is counted. -/
theorem holding_le_counted (clients : List Client) : holding kind map hash clients ≤ counted clients :=
  List.sum_le_sum fun c _ => holds_le_counted c

theorem counted_le_length (clients : List Client) : counted clients ≤ clients.length := by
  have hle := List.sum_le_card_nsmul (clients.map Client.counted) 1 fun x hx => by
    obtain ⟨c, -, rfl⟩ := List.mem_map.mp hx
    exact counted_le_one c
  rwa [List.length_map, nsmul_eq_mul, mul_one] at hle

/-- A client that is counted is one of those that are. -/
theorem counted_pos (h : c ∈ clients) (hc : c.counted = 1) : 1 ≤ counted clients := by
  have hle := List.single_le_sum (l := clients.map Client.counted) (fun x hx => by
    obtain ⟨c, -, rfl⟩ := List.mem_map.mp hx
    exact counted_nonneg c) _ (List.mem_map_of_mem h)
  rwa [hc] at hle

theorem counted_set (h : clients[i]? = some c) (c' : Client) : counted (clients.set i c') = counted clients + (c'.counted - c.counted) :=
  sum_map_set Client.counted h c'

theorem holding_set (h : clients[i]? = some c) (c' : Client) :
    holding kind map hash (clients.set i c') = holding kind map hash clients + (c'.holds kind map hash - c.holds kind map hash) :=
  sum_map_set (Client.holds kind map hash) h c'

/-- A client that is in no operation before and after its step changes nothing. -/
theorem holding_set_eq (h : clients[i]? = some c) (hc : ∀ kind map hash, c ≠ .counting kind map hash) (hc' : ∀ kind map hash, c' ≠ .counting kind map hash) :
    holding kind map hash (clients.set i c') = holding kind map hash clients := by
  rw [holding_set h, Client.holds, Client.holds, if_neg (hc' kind map hash), if_neg (hc kind map hash), sub_self, add_zero]

end Counting

/-! ### The steps -/

section Steps

variable {p : Pool Statics Client} {log : Log} {i : ℕ} {kind : Kind}

theorem hashes_concat (kind : Kind) (operations : List Operation) {op : Operation} {hash : ℤ} (h : op.hash = .ok hash) :
    hashes kind (operations ++ [op]) = hashes kind operations ++ if op.kind = kind then [hash] else [] := by
  rw [hashes, List.filterMap_append, ← hashes]
  by_cases hkind : op.kind = kind
  · simp [hkind, h, Except.toOption]
  · simp [hkind]

theorem hashes_concat_of_error (kind : Kind) (operations : List Operation) {op : Operation} {e : Throwable} (h : op.hash = .error e) :
    hashes kind (operations ++ [op]) = hashes kind operations := by
  rw [hashes, List.filterMap_append, ← hashes]
  simp [h, Except.toOption]

/-- The counts are right when an operation more is held, or none is. -/
theorem HasCounts.congr {s s' : Statics} {clients clients' : List Client} {operations operations' : List Operation}
    (h : HasCounts s clients operations kind) (hfields : s'.fields kind = s.fields kind) (hheap : s'.heap kind = s.heap kind)
    (hsame : ∀ map, s.fields kind = some map → ∀ hash, holding kind map hash clients' - holding kind map hash clients =
      (hashes kind operations').count hash - (hashes kind operations).count hash) : HasCounts s' clients' operations' kind := by
  obtain ⟨map, m, hfield, hm, hcounts⟩ := h
  refine ⟨map, m, hfields.trans hfield, (congrArg (·[map]?) hheap).trans hm, fun hash => ?_⟩
  obtain ⟨n, hn, hsum⟩ := hcounts hash
  have hchange := hsame map hfield hash
  exact ⟨n, hn, by omega⟩

/-- The reported sizes are right when nothing is held. -/
theorem HasCounts.size_eq {s : Statics} {clients : List Client} {operations : List Operation} (h : HasCounts s clients operations kind)
    (hnone : ∀ map hash, holding kind map hash clients = 0) : s.size kind = some (uniques operations kind) := by
  obtain ⟨map, m, hfield, hm, hcounts⟩ := h
  rw [Statics.size, hfield, Option.bind_some, hm, Option.map_some]
  refine congrArg some (SortedMap.length_entries (List.nodup_dedup _) fun hash => ?_)
  obtain ⟨n, hn, hsum⟩ := hcounts hash
  rw [hnone, add_zero, Nat.cast_inj] at hsum
  rw [List.mem_dedup, hn, hsum, tally, ← List.count_pos_iff]
  split_ifs with hzero
  · simp [hzero]
  · simp [Nat.pos_of_ne_zero hzero]

theorem Invariant.live_lt (h : Invariant p log) : log.live < 2 ^ 31 := by
  have hle := counted_le_length p.threads
  have hfew := h.few
  rw [h.live] at hle
  omega

/-- If no client is counted, none is in an operation. -/
theorem Invariant.not_holding (h : Invariant p log) (hzero : log.live = 0) (map : ℕ) (hash : ℤ) : holding kind map hash p.threads = 0 := by
  have hle : holding kind map hash p.threads ≤ counted p.threads := holding_le_counted p.threads
  rw [h.live, hzero] at hle
  exact le_antisymm hle (holding_nonneg p.threads)

theorem Invariant.live_pos (h : Invariant p log) {c : Client} (hi : p.threads[i]? = some c) (hc : c.counted = 1) : 1 ≤ log.live := by
  have hpos := counted_pos (List.mem_of_getElem? hi) hc
  rw [h.live] at hpos
  omega

/-- A client that is in no operation after its step holds no map. -/
theorem Invariant.held_set (h : Invariant p log) {c' : Client} (hc' : ∀ kind map hash, c' ≠ .counting kind map hash) :
    ∀ kind map hash, .counting kind map hash ∈ p.threads.set i c' → p.shared.fields kind = some map := by
  intro kind map hash hmem
  rcases List.mem_or_eq_of_mem_set hmem with hmem | heq
  · exact h.held kind map hash hmem
  · exact absurd heq.symm (hc' kind map hash)

theorem invariant_init (h : Invariant p log) (hi : p.threads[i]? = some .new) :
    Invariant ⟨p.shared.init true, p.threads.set i .ready⟩ (log.next (i, .init)) := by
  have hsame : ∀ kind map hash, holding kind map hash (p.threads.set i .ready) = holding kind map hash p.threads :=
    fun kind map hash => holding_set_eq hi (fun _ _ _ => by simp) fun _ _ _ => by simp
  have hlive : counted (p.threads.set i .ready) = log.live + 1 := by
    rw [counted_set hi, h.live]
    rfl
  have hlt : counted (p.threads.set i .ready) < 2 ^ 31 := by
    have hle := counted_le_length (p.threads.set i .ready)
    have hfew := h.few
    rw [List.length_set] at hle
    omega
  have hcounter : asInt (p.shared.counter + 1) = log.live + 1 := by
    rw [h.counter, asInt_of_fits]
    unfold FitsInt
    omega
  have hheld : ∀ kind map hash, .counting kind map hash ∈ p.threads.set i .ready → p.shared.fields kind = some map :=
    h.held_set fun _ _ _ => by simp
  by_cases hzero : log.live = 0
  · have hnew : p.shared.counter = 0 ∧ true = true := ⟨by rw [h.counter, hzero, Nat.cast_zero], rfl⟩
    rw [Statics.init, if_pos hnew]
    -- nobody is in an operation, so nobody holds one of the maps before
    have hnobody : ∀ kind map hash, .counting kind map hash ∉ p.threads.set i .ready := by
      intro kind map hash hmem
      have hle := List.single_le_sum (l := (p.threads.set i .ready).map (Client.holds kind map hash)) (fun x hx => by
        obtain ⟨c, -, rfl⟩ := List.mem_map.mp hx
        exact holds_nonneg c) _ (List.mem_map_of_mem hmem)
      rw [← holding, hsame, h.not_holding hzero, Client.holds, if_pos rfl] at hle
      exact absurd hle (by decide)
    refine ⟨(List.length_set ..).trans_lt h.few, ?_, ?_, h.reports, fun kind map hash hmem => absurd hmem (hnobody kind map hash), fun _ kind => ?_⟩
    · rw [hlive, Log.next, Nat.cast_succ]
    · exact hcounter
    · refine ⟨(p.shared.heap kind).length, .empty, rfl, List.getElem?_concat_length .., fun hash => ⟨0, rfl, ?_⟩⟩
      rw [hsame, h.not_holding hzero, Log.next]
      dsimp only
      rw [if_pos hzero]
      rfl
  · have hold : ¬ (p.shared.counter = 0 ∧ true = true) := fun hnew => hzero (by have := h.counter; omega)
    rw [Statics.init, if_neg hold]
    refine ⟨(List.length_set ..).trans_lt h.few, ?_, hcounter, h.reports, hheld, fun _ kind => ?_⟩
    · rw [hlive, Log.next, Nat.cast_succ]
    · refine (h.maps hzero kind).congr rfl rfl fun map _ hash => ?_
      rw [hsame, Log.next]
      dsimp only
      rw [if_neg hzero, sub_self, sub_self]

theorem invariant_call (h : Invariant p log) (hi : p.threads[i]? = some .ready) (op : Operation) :
    Invariant ⟨p.shared, p.threads.set i (p.shared.call true op)⟩ (log.next (i, .call op)) := by
  have hlive := h.live_pos hi rfl
  have hcounted : ∀ {c : Client}, c.counted = 1 → counted (p.threads.set i c) = log.live := by
    intro c hc
    rw [counted_set hi, h.live, hc]
    exact add_zero _
  have hfew : (p.threads.set i (p.shared.call true op)).length < 2 ^ 31 := (List.length_set ..).trans_lt h.few
  cases hop : op.hash with
  | error e =>
    have hcall : p.shared.call true op = .thrown := by rw [Statics.call, if_pos rfl, hop]
    rw [hcall] at hfew ⊢
    refine ⟨hfew, hcounted rfl, h.counter, h.reports, h.held_set fun _ _ _ => by simp, fun hne kind => ?_⟩
    refine (h.maps hne kind).congr rfl rfl fun map _ hash => ?_
    rw [holding_set_eq hi (fun _ _ _ => by simp) fun _ _ _ => by simp, Log.next]
    dsimp only
    rw [hashes_concat_of_error kind log.operations hop, sub_self, sub_self]
  | ok hash =>
    obtain ⟨map, m, hfield, hm, hcounts⟩ := h.maps (by omega) op.kind
    have hcall : p.shared.call true op = .counting op.kind map hash := by rw [Statics.call, if_pos rfl, hop, hfield]
    rw [hcall] at hfew ⊢
    refine ⟨hfew, hcounted rfl, h.counter, h.reports, fun kind map' hash' hmem => ?_, fun hne kind => ?_⟩
    · rcases List.mem_or_eq_of_mem_set hmem with hmem | heq
      · exact h.held kind map' hash' hmem
      · cases heq
        exact hfield
    · refine (h.maps hne kind).congr rfl rfl fun map' hfield' hash' => ?_
      have hholds : Client.holds kind map' hash' .ready = 0 := if_neg (by simp)
      rw [holding_set hi, hholds, Log.next]
      dsimp only
      rw [hashes_concat kind log.operations hop, List.count_append, Client.holds]
      by_cases hkind : op.kind = kind
      · subst hkind
        obtain rfl := Option.some.inj (hfield.symm.trans hfield')
        rw [if_pos rfl, List.count_singleton]
        by_cases heq : hash = hash'
        · simp [heq]
        · simp [heq]
      · simp [hkind]

theorem invariant_incCounter (h : Invariant p log) {kind : Kind} {map : ℕ} {hash : ℤ} (hi : p.threads[i]? = some (.counting kind map hash)) :
    Invariant ⟨p.shared.increment kind map hash, p.threads.set i .ready⟩ (log.next (i, .incCounter)) := by
  have hcounted : counted (p.threads.set i .ready) = log.live := by
    rw [counted_set hi, h.live]
    exact add_zero _
  have hfield := h.held kind map hash (List.mem_of_getElem? hi)
  have hready : ∀ kind map hash, Client.holds kind map hash .ready = 0 := fun _ _ _ => if_neg (by simp)
  refine ⟨(List.length_set ..).trans_lt h.few, hcounted, h.counter, h.reports, h.held_set fun _ _ _ => by simp, fun hne kind' => ?_⟩
  by_cases hkind : kind' = kind
  · subst hkind
    obtain ⟨map', m, hfield', hm, hcounts⟩ := h.maps hne kind'
    obtain rfl := Option.some.inj (hfield.symm.trans hfield')
    refine ⟨map, incCounter m hash, hfield, ?_, fun hash' => ?_⟩
    · have hheap : (p.shared.increment kind' map hash).heap kind' = (p.shared.heap kind').modify map (incCounter · hash) := Function.update_self ..
      rw [hheap, List.getElem?_modify_eq, hm]
      rfl
    · obtain ⟨n, hn, hsum⟩ := hcounts hash
      obtain ⟨n', hn', hsum'⟩ := hcounts hash'
      rw [get_incCounter m hn, holding_set hi, hready, Client.holds]
      by_cases heq : hash' = hash
      · subst heq
        refine ⟨n + 1, if_pos rfl, ?_⟩
        rw [if_pos rfl, Log.next]
        push_cast
        omega
      · refine ⟨n', (if_neg heq).trans hn', ?_⟩
        have hother : ¬ Client.counting kind' map hash = .counting kind' map hash' := fun hc => by
          cases hc
          exact heq rfl
        rw [if_neg hother, Log.next]
        omega
  · refine (h.maps hne kind').congr rfl (Function.update_of_ne hkind ..) fun map' _ hash' => ?_
    have hother : ¬ Client.counting kind map hash = .counting kind' map' hash' := fun hc => by
      cases hc
      exact hkind rfl
    rw [holding_set hi, hready, Client.holds, if_neg hother, Log.next]
    omega

theorem report_eq (h : Invariant p log) (hlive : log.live ≠ 0) (hnone : ∀ kind map hash, holding kind map hash p.threads = 0) :
    p.shared.report = some (Report.of log.operations) := by
  have hsize : ∀ kind, p.shared.size kind = some (uniques log.operations kind) := fun kind => (h.maps hlive kind).size_eq (hnone kind)
  rw [Statics.report]
  simp only [hsize]
  rfl

theorem invariant_cleanup (h : Invariant p log) (hi : p.threads[i]? = some .ready) :
    Invariant ⟨(p.shared.cleanup true).1, p.threads.set i (p.shared.cleanup true).2⟩ (log.next (i, .cleanup)) := by
  have hpos := h.live_pos hi rfl
  have hlt := h.live_lt
  have hcountDown : asInt (p.shared.counter - 1) = log.live - 1 := by
    rw [h.counter, asInt_of_fits]
    unfold FitsInt
    omega
  have hcounted : counted (p.threads.set i .cleaned) = log.live - 1 := by
    rw [counted_set hi, h.live]
    rfl
  have hsame : ∀ kind map hash, holding kind map hash (p.threads.set i .cleaned) = holding kind map hash p.threads :=
    fun kind map hash => holding_set_eq hi (fun _ _ _ => by simp) fun _ _ _ => by simp
  have hheld : ∀ kind map hash, .counting kind map hash ∈ p.threads.set i .cleaned → p.shared.fields kind = some map :=
    h.held_set fun _ _ _ => by simp
  have hfew : (p.threads.set i .cleaned).length < 2 ^ 31 := (List.length_set ..).trans_lt h.few
  by_cases hone : log.live = 1
  · -- it is the last one that is counted, so nobody is in an operation
    have hnone : ∀ kind map hash, holding kind map hash p.threads = 0 := by
      intro kind map hash
      have hle : holding kind map hash (p.threads.set i .cleaned) ≤ counted (p.threads.set i .cleaned) := holding_le_counted _
      rw [hsame, hcounted, hone] at hle
      exact le_antisymm hle (holding_nonneg p.threads)
    have hreport : ({ p.shared with counter := asInt (p.shared.counter - 1) } : Statics).report = some (Report.of log.operations) :=
      report_eq h (by omega) hnone
    have hcleanup : p.shared.cleanup true =
        ({ p.shared with counter := asInt (p.shared.counter - 1), reports := p.shared.reports ++ [Report.of log.operations] }, .cleaned) := by
      rw [Statics.cleanup]
      dsimp only
      rw [if_pos ⟨rfl, by omega⟩, hreport]
    rw [hcleanup]
    refine ⟨hfew, ?_, ?_, ?_, hheld, fun hne => absurd hone fun h1 => hne ?_⟩
    · rw [hcounted, Log.next]
      dsimp only
      omega
    · rw [Log.next]
      dsimp only
      omega
    · rw [Log.next]
      dsimp only
      rw [if_pos hone, List.map_append, h.reports]
      rfl
    · rw [Log.next]
      dsimp only
      omega
  · have hcleanup : p.shared.cleanup true = ({ p.shared with counter := asInt (p.shared.counter - 1) }, .cleaned) := by
      rw [Statics.cleanup]
      dsimp only
      rw [if_neg fun hlast => by omega]
    rw [hcleanup]
    refine ⟨hfew, ?_, ?_, ?_, hheld, fun _ kind => ?_⟩
    · rw [hcounted, Log.next]
      dsimp only
      omega
    · rw [Log.next]
      dsimp only
      omega
    · rw [Log.next]
      dsimp only
      rw [if_neg hone]
      exact h.reports
    · refine (h.maps (by omega) kind).congr rfl rfl fun map _ hash => ?_
      rw [hsame, Log.next]
      dsimp only
      rw [sub_self, sub_self]

/-- **One step.** -/
theorem invariant_step {p' : Pool Statics Client} {l : ℕ × Event} (h : Invariant p log) (hs : p.step (move true) l = some p') :
    Invariant p' (log.next l) := by
  obtain ⟨c, s', c', hc, hmove, rfl⟩ := Pool.step_eq_some hs
  obtain ⟨i, e⟩ := l
  match c, e with
  | .new, .init =>
    cases hmove
    exact invariant_init h hc
  | .ready, .call op =>
    cases hmove
    exact invariant_call h hc op
  | .counting kind map hash, .incCounter =>
    cases hmove
    exact invariant_incCounter h hc
  | .ready, .cleanup =>
    have heq : p.shared.cleanup true = (s', c') := Option.some.inj hmove
    have hI := invariant_cleanup h hc
    rwa [heq] at hI

end Steps

theorem invariant_start {threads : ℕ} (h : threads < 2 ^ 31) : Invariant (start threads) ⟨0, [], []⟩ := by
  refine ⟨(List.length_replicate ..).trans_lt h, ?_, rfl, rfl, fun kind map hash hmem => ?_, fun hne => absurd rfl hne⟩
  · rw [counted, start, List.map_replicate, Client.counted, List.sum_replicate, nsmul_zero]
    rfl
  · cases List.eq_of_mem_replicate hmem

theorem invariant_run {threads : ℕ} (h : threads < 2 ^ 31) {run : List (ℕ × Event)} {p : Pool Statics Client}
    (hrun : exec (Pool.step (move true)) (start threads) run = some p) : Invariant p (logOf run) := by
  rw [logOf]
  exact exec_simulates (fun _ _ l _ hI hs => invariant_step (l := l) hI hs) (invariant_start h) hrun

/-! ### Reports -/

/-- Every operation of the kind is the same as one of these. -/
def Among (kind : Kind) (operations known : List Operation) : Prop := ∀ op ∈ operations, op.kind = kind → ∃ op' ∈ known, op.Same op'

/-- Operations that are the same are counted as one. -/
theorem uniques_le {kind : Kind} {operations known : List Operation} (h : Among kind operations known) : uniques operations kind ≤ known.length := by
  have hsub : (hashes kind operations).dedup ⊆ known.filterMap fun op => op.hash.toOption := by
    intro hash hmem
    obtain ⟨op, hop, heq⟩ := List.mem_filterMap.mp (List.mem_dedup.mp hmem)
    split_ifs at heq with hkind
    obtain ⟨op', hop', hsame⟩ := h op hop hkind
    exact List.mem_filterMap.mpr ⟨op', hop', hash_same hsame ▸ heq⟩
  calc uniques operations kind ≤ (known.filterMap fun op => op.hash.toOption).length := (List.nodup_dedup _).length_le_of_subset hsub
    _ ≤ known.length := List.length_filterMap_le _ _

/-- **Each report is of all the operations of its clients**: in the order of the generations, it has for each kind the number of different hash codes, which is at most
that of the different operations. -/
theorem reports_run {threads : ℕ} (h : threads < 2 ^ 31) {run : List (ℕ × Event)} {p : Pool Statics Client}
    (hrun : exec (Pool.step (move true)) (start threads) run = some p) :
    p.shared.reports = (logOf run).generations.map Report.of ∧
      ∀ operations ∈ (logOf run).generations, ∀ kind known, Among kind operations known → uniques operations kind ≤ known.length :=
  ⟨(invariant_run h hrun).reports, fun _ _ _ _ => uniques_le⟩

/-- Two clients, the first of which is cleaned up before the second is initialized: a report for each. -/
def oneByOne : List (ℕ × Event) :=
  [(0, .init), (0, .call (.delete [0x74] [0x61])), (0, .incCounter), (0, .call (.delete [0x74] [0x61])), (0, .incCounter), (0, .cleanup),
    (1, .init), (1, .call (.read [0x74] [0x61] none)), (1, .incCounter), (1, .cleanup)]

theorem reports_run_oneByOne :
    (exec (Pool.step (move true)) (start 2) oneByOne).map (fun p => p.shared.reports) = some [⟨0, 0, 0, 0, 1⟩, ⟨1, 0, 0, 0, 0⟩] := by
  have hsome : (exec (Pool.step (move true)) (start 2) oneByOne).isSome = true := by decide
  obtain ⟨p, hp⟩ := Option.isSome_iff_exists.mp hsome
  rw [hp, Option.map_some, (reports_run (by decide) hp).1]
  decide

/-- **No increment is lost**: when no client is in an operation, each map has the number of operations with each hash code, of the clients that are counted. -/
theorem counts_run {threads : ℕ} (h : threads < 2 ^ 31) {run : List (ℕ × Event)} {p : Pool Statics Client}
    (hrun : exec (Pool.step (move true)) (start threads) run = some p) (hlive : ∃ c ∈ p.threads, c.counted = 1)
    (hidle : ∀ kind map hash, .counting kind map hash ∉ p.threads) (kind : Kind) :
    ∃ map m, p.shared.fields kind = some map ∧ (p.shared.heap kind)[map]? = some m ∧
      ∀ hash, m.get hash = tally ((hashes kind (logOf run).operations).count hash) := by
  have hI := invariant_run h hrun
  obtain ⟨c, hc, hone⟩ := hlive
  have hpos := counted_pos hc hone
  rw [hI.live] at hpos
  obtain ⟨map, m, hfield, hm, hcounts⟩ := hI.maps (by omega) kind
  refine ⟨map, m, hfield, hm, fun hash => ?_⟩
  obtain ⟨n, hn, hsum⟩ := hcounts hash
  have hnone : holding kind map hash p.threads = 0 := by
    refine List.sum_eq_zero fun x hx => ?_
    obtain ⟨c, hc, rfl⟩ := List.mem_map.mp hx
    exact if_neg fun heq : c = .counting kind map hash => hidle kind map hash (heq ▸ hc)
  rw [hnone, add_zero, Nat.cast_inj] at hsum
  rw [hn, hsum]

theorem counts_run_twice :
    ∃ p m, exec (Pool.step (move true)) (start 2) (oneByOne.take 5) = some p ∧ (p.shared.heap .deletes)[0]? = some m ∧
      m.get (Workloads.hashCode [0x74, 0x61]) = some 2 := by
  have hends : (exec (Pool.step (move true)) (start 2) (oneByOne.take 5)).map (fun p => (p.threads, p.shared.fields .deletes)) =
      some ([.ready, .new], some 0) := by decide
  obtain ⟨p, hp, heq⟩ := Option.map_eq_some_iff.mp hends
  obtain ⟨hthreads, hfield⟩ := Prod.mk.inj heq
  obtain ⟨map, m, hmap, hm, hcounts⟩ := counts_run (by decide) hp ⟨.ready, by simp [hthreads], rfl⟩ (by simp [hthreads]) .deletes
  obtain rfl := Option.some.inj (hfield.symm.trans hmap)
  exact ⟨p, m, hp, hm, (hcounts _).trans (by decide)⟩

end YcsbIvs.Core.BasicDB
