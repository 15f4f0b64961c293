import YcsbIvs.Core.Consumption
import YcsbIvs.Core.DB
import YcsbIvs.Foundations.Runs

/-!
# The Elasticsearch 5 REST binding

A change of a document can be searched for only after the index has been refreshed. `ElasticsearchRestClient` keeps a flag,
`isRefreshNeeded`, that each change it makes sets; and each search looks at the flag first, and if it is set clears it and then asks for a refresh. If this request fails the
search fails, and the flag is clear, though nothing has been refreshed.

The server carries out changes in order (`log`), and searches see those up to the last refresh (`shown`). What it
answers is given with each call: any status and any body, or an exception, after the request has been carried out or not.

**Every `read`, `update` or `delete` that returns `OK` or `NOT_FOUND` has searched an index with all the changes whose calls have
returned `OK` before, if no refresh fails** (`readsOwnWrites_of_meets`).
-/

namespace YcsbIvs.Elasticsearch5

open YcsbIvs.Foundations YcsbIvs.Core

/-- `KEY`, the name `key`. -/
def keyName : Utf16 := [0x6B, 0x65, 0x79]

/-- A value of a document. -/
inductive Json where
  /-- A string. -/
  | string (s : Utf16)
  /-- `null`. -/
  | null
  /-- Anything else: it can not be cast to a string. -/
  | other

/-- `(String) value`. -/
def Json.cast : Json → Option (Option Utf16)
  | string s => some (some s)
  | null => some none
  | other => none

/-- A document. -/
abbrev Source := AList fun _ : Utf16 => Json

/-- A document with the strings of a map put into it. -/
def Source.putAll (source : Source) (strings : List (Utf16 × Utf16)) : Source :=
  strings.foldl (fun source e => source.insert e.1 (.string e.2)) source

/-- A change that is asked for. -/
inductive Change where
  /-- A new document, whose identifier the server makes up. -/
  | post (table : Utf16) (source : Source)
  /-- A document in place of the one with this identifier. -/
  | put (table id : Utf16) (source : Option Source)
  /-- The document with this identifier is deleted. -/
  | delete (table id : Utf16)

/-- What `restClient.performRequest` comes to. -/
inductive Reply (α : Type) where
  /-- A response. -/
  | response (statusCode : ℕ) (body : α)
  /-- It throws, and the request has been carried out or not. -/
  | throws (applied : Bool)

/-- The request has been carried out. -/
def Reply.applied {α : Type} : Reply α → Bool
  | response statusCode _ => statusCode < 300
  | throws applied => applied

/-- A document that a search has found. -/
structure Hit where
  /-- `_id`. -/
  id : Utf16
  /-- `_source`. -/
  source : Option Source

/-- The body of the response to a search. -/
structure Body where
  /-- `hits.total`, if it can be read. -/
  total : Option ℤ
  /-- The first of `hits.hits`, if it can be read. -/
  hit : Option Hit

/-- The client, and its index. -/
structure ElasticsearchRestClient where
  /-- `isRefreshNeeded`. -/
  isRefreshNeeded : Bool
  /-- The changes that have been carried out, in order. -/
  log : List Change
  /-- How many of them a search sees. -/
  shown : ℕ

/-- What `read`, `update` and `delete` make of the response to their search: a status to return, or the first document. -/
def firstHit : Reply Body → Except Status Hit
  | .throws _ => .error .error
  | .response statusCode body =>
    if statusCode = 404 then .error .notFound
    else if statusCode ≠ 200 then .error .error
    else
      match body.total with
      | none => .error .error
      | some total =>
        if total = 0 then .error .notFound
        else
          match body.hit with
          | none => .error .error
          | some hit => .ok hit

/-- The loop over the fields that are asked for: whether it is done, and the result. -/
def putFields (source : Option Source) : List Utf16 → Result → Bool × Result
  | [], result => (true, result)
  | field :: fields, result =>
    match source with
    | none => (false, result)
    | some source =>
      match Json.cast ((source.lookup field).getD .null) with
      | none => (false, result)
      | some s => putFields source fields (result.insert field s)

/-- The loop over all fields but the key. -/
def putEntries : List (Sigma fun _ : Utf16 => Json) → Result → Bool × Result
  | [], result => (true, result)
  | e :: entries, result =>
    if e.1 = keyName then putEntries entries result
    else
      match e.2.cast with
      | none => (false, result)
      | some s => putEntries entries (result.insert e.1 s)

namespace ElasticsearchRestClient

/-- A change is asked for. -/
def request (change : Change) (reply : Reply Unit) (c : ElasticsearchRestClient) : ElasticsearchRestClient :=
  { c with log := if reply.applied then c.log ++ [change] else c.log }

/-- The end of a change: its status is checked, and the flag set. -/
def finish (expected : ℕ) (reply : Reply Unit) (c : ElasticsearchRestClient) : Status × ElasticsearchRestClient :=
  match reply with
  | .throws _ => (.error, c)
  | .response statusCode _ => if statusCode ≠ expected then (.error, c) else (.ok, { c with isRefreshNeeded := true })

/-- `refreshIfNeeded()`: whether it returns. The flag is cleared before the request. -/
def refreshIfNeeded (reply : Reply Unit) (c : ElasticsearchRestClient) : Bool × ElasticsearchRestClient :=
  if c.isRefreshNeeded then
    let c := { c with isRefreshNeeded := false, shown := if reply.applied then c.log.length else c.shown }
    match reply with
    | .throws _ => (false, c)
    | .response _ _ => (true, c)
  else (true, c)

/-- `search(table, key)`. -/
def search (refresh : Reply Unit) (found : Reply Body) (c : ElasticsearchRestClient) : Reply Body × ElasticsearchRestClient :=
  match c.refreshIfNeeded refresh with
  | (true, c) => (found, c)
  | (false, c) => (.throws false, c)

/-- `insert(table, key, values)`. -/
def insert (reply : Reply Unit) (c : ElasticsearchRestClient) (table key : Utf16) (values : Values Utf16) :
    Status × ElasticsearchRestClient :=
  match getStringMap values.entries with
  | .error _ => (.error, c)
  | .ok (strings, _) =>
    let data := (Source.putAll ∅ strings).insert keyName (.string key)
    (c.request (.post table data) reply).finish 201 reply

/-- `delete(table, key)`. -/
def delete (refresh : Reply Unit) (found : Reply Body) (reply : Reply Unit) (c : ElasticsearchRestClient) (table : Utf16) :
    Status × ElasticsearchRestClient :=
  let (found, c) := c.search refresh found
  match firstHit found with
  | .error st => (st, c)
  | .ok hit => (c.request (.delete table hit.id) reply).finish 200 reply

/-- `read(table, key, fields, result)`. -/
def read (refresh : Reply Unit) (found : Reply Body) (c : ElasticsearchRestClient) (fields : Option (List Utf16)) (result : Result) :
    Status × Result × ElasticsearchRestClient :=
  let (found, c) := c.search refresh found
  match firstHit found with
  | .error st => (st, result, c)
  | .ok hit =>
    let (done, result) :=
      match fields, hit.source with
      | some fields, source => putFields source fields result
      | none, some source => putEntries source.entries result
      | none, none => (false, result)
    (if done then .ok else .error, result, c)

/-- `update(table, key, values)`. -/
def update (refresh : Reply Unit) (found : Reply Body) (reply : Reply Unit) (c : ElasticsearchRestClient) (table : Utf16)
    (values : Values Utf16) : Status × ElasticsearchRestClient :=
  let (found, c) := c.search refresh found
  match firstHit found with
  | .error st => (st, c)
  | .ok hit =>
    match getStringMap values.entries, hit.source with
    | .error _, _ => (.error, c)
    | .ok (_ :: _, _), none => (.error, c)
    | .ok (strings, _), source => (c.request (.put table hit.id (source.map fun source => source.putAll strings)) reply).finish 200 reply

end ElasticsearchRestClient

/-! ### Runs -/

/-- A call of the client, and what its requests come to. -/
inductive Call where
  /-- `insert`. -/
  | insert (table key : Utf16) (values : Values Utf16) (reply : Reply Unit)
  /-- `read`. -/
  | read (fields : Option (List Utf16)) (result : Result) (refresh : Reply Unit) (found : Reply Body)
  /-- `update`. -/
  | update (table : Utf16) (values : Values Utf16) (refresh : Reply Unit) (found : Reply Body) (reply : Reply Unit)
  /-- `delete`. -/
  | delete (table : Utf16) (refresh : Reply Unit) (found : Reply Body) (reply : Reply Unit)

/-- The status of a call, and the client after it. -/
def Call.run (c : ElasticsearchRestClient) : Call → Status × ElasticsearchRestClient
  | insert table key values reply => c.insert reply table key values
  | read fields result refresh found =>
    let (st, _, c) := c.read refresh found fields result
    (st, c)
  | update table values refresh found reply => c.update refresh found reply table values
  | delete table refresh found reply => c.delete refresh found reply table

/-- What the refresh comes to that a call makes if it is needed. An `insert` makes none. -/
def Call.refresh : Call → Option (Reply Unit)
  | insert .. => none
  | read _ _ refresh _ | update _ _ refresh _ _ | delete _ refresh _ _ => some refresh

/-- The client, and which changes it has been told of. -/
structure Session where
  /-- The client. -/
  client : ElasticsearchRestClient
  /-- Where in `log` the changes are whose calls have returned `OK`. -/
  acked : List ℕ

/-- A client of an empty index. -/
def Session.init : Session := ⟨⟨false, [], 0⟩, []⟩

/-- A call. -/
def step (s : Session) (c : Call) : Option Session :=
  let (st, client) := c.run s.client
  match c with
  | .read .. => some ⟨client, s.acked⟩
  | .insert .. | .update .. | .delete .. => some ⟨client, if st = .ok then s.acked ++ [s.client.log.length] else s.acked⟩

/-- If the call returns `OK` or `NOT_FOUND` it has searched an index with all changes whose calls have returned `OK`. -/
def ReadsOwnWrites (s : Session) (c : Call) : Prop :=
  ∀ refresh, c.refresh = some refresh → (c.run s.client).1 = .ok ∨ (c.run s.client).1 = .notFound →
    ∀ i ∈ s.acked, i < (s.client.refreshIfNeeded refresh).2.shown

/-- If the call makes a refresh it is carried out. -/
def Refreshes (s : Session) (c : Call) : Prop :=
  ∀ refresh, c.refresh = some refresh → s.client.isRefreshNeeded = true → refresh.applied = true

/-! ### The flag and the index -/

/-- The changes have been carried out, and searches see them if the flag is clear. -/
structure Kept (c : ElasticsearchRestClient) (acked : List ℕ) : Prop where
  /-- They are in the log. -/
  logged : ∀ i ∈ acked, i < c.log.length
  /-- Searches see them. -/
  seen : c.isRefreshNeeded = false → ∀ i ∈ acked, i < c.shown

/-- They are kept by a call that makes a change, and the change is one of them if it returns `OK`. -/
def KeptBy (c : ElasticsearchRestClient) (acked : List ℕ) (r : Status × ElasticsearchRestClient) : Prop :=
  Kept r.2 (if r.1 = .ok then acked ++ [c.log.length] else acked)

section

variable {c : ElasticsearchRestClient} {acked : List ℕ} {refresh reply : Reply Unit} {found : Reply Body} {table : Utf16} {values : Values Utf16}

/-- **After a refresh that is carried out, or none, a search sees all of them.** -/
theorem Kept.refreshIfNeeded (h : Kept c acked) (hrefresh : c.isRefreshNeeded = true → refresh.applied = true) :
    Kept (c.refreshIfNeeded refresh).2 acked ∧ (∀ i ∈ acked, i < (c.refreshIfNeeded refresh).2.shown) ∧
      (c.refreshIfNeeded refresh).2.log = c.log := by
  by_cases hflag : c.isRefreshNeeded = true
  · have hafter : (c.refreshIfNeeded refresh).2 = ⟨false, c.log, c.log.length⟩ := by
      rw [ElasticsearchRestClient.refreshIfNeeded, if_pos hflag, hrefresh hflag]
      cases refresh with
      | response statusCode body => rfl
      | throws applied => rfl
    rw [hafter]
    exact ⟨⟨h.logged, fun _ => h.logged⟩, h.logged, rfl⟩
  · have hafter : (c.refreshIfNeeded refresh).2 = c := by rw [ElasticsearchRestClient.refreshIfNeeded, if_neg hflag]
    rw [hafter]
    exact ⟨h, h.seen (Bool.eq_false_iff.mpr hflag), rfl⟩

theorem snd_search : (c.search refresh found).2 = (c.refreshIfNeeded refresh).2 := by
  rw [ElasticsearchRestClient.search]
  split
  · next heq => rw [heq]
  · next heq => rw [heq]

/-- **A change sets the flag if it returns `OK`**; it has been carried out then. -/
theorem Kept.finish (h : Kept c acked) (change : Change) {expected : ℕ} (hexpected : expected < 300) :
    KeptBy c acked ((c.request change reply).finish expected reply) := by
  have hfailed : Kept (c.request change reply) acked := by
    refine ⟨fun i hi => (h.logged i hi).trans_le ?_, h.seen⟩
    rw [ElasticsearchRestClient.request]
    split_ifs
    · exact (List.sublist_append_left _ _).length_le
    · exact le_refl _
  cases reply with
  | throws applied => exact hfailed
  | response statusCode body =>
    by_cases hstatus : statusCode = expected
    · have hok : (c.request change (.response statusCode body)).finish expected (.response statusCode body) =
          (.ok, ⟨true, c.log ++ [change], c.shown⟩) := by
        rw [ElasticsearchRestClient.finish, if_neg (not_not.mpr hstatus), ElasticsearchRestClient.request, Reply.applied, hstatus,
          decide_eq_true hexpected]
        rfl
      rw [hok, KeptBy, if_pos rfl]
      refine ⟨fun i hi => ?_, fun hflag => nomatch hflag⟩
      rw [List.length_append, List.length_singleton]
      rcases List.mem_append.mp hi with hi | hi
      · exact (h.logged i hi).trans (Nat.lt_succ_self _)
      · exact List.mem_singleton.mp hi ▸ Nat.lt_succ_self _
    · have herror : (c.request change (.response statusCode body)).finish expected (.response statusCode body) =
          (.error, c.request change (.response statusCode body)) := if_pos hstatus
      rw [herror]
      exact hfailed

/-- A call whose search gives no document has the status of the search, which is not `OK`. -/
theorem firstHit_ne_ok {st : Status} (h : firstHit found = .error st) : st ≠ .ok := by
  revert h
  fun_cases firstHit found <;> intro h <;> cases h <;> decide

theorem Kept.insert (h : Kept c acked) (key : Utf16) : KeptBy c acked (c.insert reply table key values) := by
  rw [ElasticsearchRestClient.insert]
  split
  · exact h
  · exact h.finish _ (by decide)

/-- A change that is made after a search. -/
theorem Kept.after_search (h : Kept c acked) (hrefresh : c.isRefreshNeeded = true → refresh.applied = true)
    {r : Status × ElasticsearchRestClient}
    (hr : (r.1 ≠ .ok ∧ r.2 = (c.search refresh found).2) ∨ ∃ change, r = ((c.search refresh found).2.request change reply).finish 200 reply) :
    KeptBy c acked r := by
  obtain ⟨hkept, -, hlog⟩ := h.refreshIfNeeded hrefresh
  rw [snd_search] at hr
  rcases hr with ⟨hst, hsame⟩ | ⟨change, rfl⟩
  · rw [KeptBy, if_neg hst, hsame]
    exact hkept
  · rw [KeptBy, ← hlog]
    exact hkept.finish change (by decide)

theorem delete_cases : ((c.delete refresh found reply table).1 ≠ .ok ∧ (c.delete refresh found reply table).2 = (c.search refresh found).2) ∨
    ∃ change, c.delete refresh found reply table = ((c.search refresh found).2.request change reply).finish 200 reply := by
  rcases hsearch : c.search refresh found with ⟨found', c'⟩
  rw [ElasticsearchRestClient.delete, hsearch]
  dsimp only
  split
  · next hfirst => exact .inl ⟨firstHit_ne_ok hfirst, rfl⟩
  · exact .inr ⟨_, rfl⟩

theorem update_cases : ((c.update refresh found reply table values).1 ≠ .ok ∧
      (c.update refresh found reply table values).2 = (c.search refresh found).2) ∨
    ∃ change, c.update refresh found reply table values = ((c.search refresh found).2.request change reply).finish 200 reply := by
  rcases hsearch : c.search refresh found with ⟨found', c'⟩
  rw [ElasticsearchRestClient.update, hsearch]
  dsimp only
  split
  · next hfirst => exact .inl ⟨firstHit_ne_ok hfirst, rfl⟩
  · split
    · exact .inl ⟨fun hok => (nomatch hok), rfl⟩
    · exact .inl ⟨fun hok => (nomatch hok), rfl⟩
    · exact .inr ⟨_, rfl⟩

theorem read_client {fields : Option (List Utf16)} {result : Result} :
    (c.read refresh found fields result).2.2 = (c.search refresh found).2 := by
  rcases hsearch : c.search refresh found with ⟨found', c'⟩
  rw [ElasticsearchRestClient.read, hsearch]
  dsimp only
  split
  · rfl
  · rfl

end

/-- **What a call keeps.** -/
theorem kept_step {s s' : Session} {c : Call} (h : Kept s.client s.acked) (hrefresh : Refreshes s c) (hstep : step s c = some s') :
    Kept s'.client s'.acked := by
  cases c with
  | insert table key values reply =>
    cases hstep
    exact h.insert key
  | read fields result refresh found =>
    cases hstep
    have hclient : (s.client.read refresh found fields result).2.2 = (s.client.refreshIfNeeded refresh).2 := read_client.trans snd_search
    have hkept : Kept (s.client.read refresh found fields result).2.2 s.acked := by
      rw [hclient]
      exact (h.refreshIfNeeded (hrefresh refresh rfl)).1
    exact hkept
  | update table values refresh found reply =>
    cases hstep
    exact h.after_search (hrefresh refresh rfl) update_cases
  | delete table refresh found reply =>
    cases hstep
    exact h.after_search (hrefresh refresh rfl) delete_cases

/-- **In a run in which every refresh is carried out each `read`, `update` and `delete` that returns `OK` or `NOT_FOUND` has searched
an index with all changes whose calls have returned `OK`.** -/
theorem readsOwnWrites_of_meets {calls : List Call} (h : Meets step Refreshes .init calls) : Meets step ReadsOwnWrites .init calls := by
  refine Meets.mono (I := fun s => Kept s.client s.acked) (fun s c s' => kept_step) (fun s c hkept hrefresh refresh hcall _ => ?_)
    ⟨fun i hi => absurd hi List.not_mem_nil, fun _ i hi => absurd hi List.not_mem_nil⟩ h
  exact (hkept.refreshIfNeeded (hrefresh refresh hcall)).2.1

/-- An `insert`, and a `read` that refreshes the index. -/
theorem readsOwnWrites_of_meets_refreshed :
    Meets step ReadsOwnWrites .init [.insert [0x74] [0x6B] ∅ (.response 201 ()),
      .read none ∅ (.response 200 ()) (.response 200 ⟨some 1, some ⟨[0x30], some ∅⟩⟩)] := by
  refine readsOwnWrites_of_meets ⟨fun refresh h => (nomatch h), fun s _ => ⟨fun refresh h _ => ?_, fun _ _ => trivial⟩⟩
  cases h
  rfl

/-- After a refresh that fails the next search is made without one, and does not see the change. -/
theorem not_readsOwnWrites : ¬ ∀ calls : List Call, Meets step ReadsOwnWrites .init calls := by
  intro h
  have hmeets := h [.insert [0x74] [0x6B] ∅ (.response 201 ()), .read none ∅ (.throws false) (.throws false),
    .read none ∅ (.throws false) (.response 200 ⟨some 0, none⟩)]
  have hread := ((hmeets.2 _ rfl).2 _ rfl).1
  exact absurd (hread _ rfl (.inr rfl) 0 List.mem_cons_self) (Nat.not_lt_zero 0)

end YcsbIvs.Elasticsearch5
