import YcsbIvs.Core.DB
import YcsbIvs.Foundations.Loops
import YcsbIvs.Foundations.SortedMap

/-!
# The DynamoDB binding: scanning

The start key of a DynamoDB scan is exclusive, so `scan` gets the item of its start key first, and counts it, whether there is one or not. Then
it asks for the pages after it, each from where the one before has stopped, until it has counted as many items as are asked for.

After the last page the service says no key, and a request without a key is for the beginning of the table: there `scan` goes on, if there are
not as many items as are asked for.

A table is in the order that the service scans it in, which may be any. A page may be short, or empty, but there is always one to come that
is not, or is the last.

**A scan ends, and returns no item twice, none before the start key and not more than are asked for, just if so many items follow the start key
that it need not go past the end of the table** (`scans_iff`).
-/

namespace YcsbIvs.DynamoDB

open YcsbIvs.Foundations YcsbIvs.Core

variable {κ : Type} [LinearOrder κ]

/-- An item: its attributes, which are strings. -/
abbrev Item := AList fun _ : Utf16 => Utf16

/-- What a request comes to. -/
inductive Reply (α : Type) where
  /-- The service replies. -/
  | result (a : α)
  /-- `AmazonServiceException`. -/
  | serviceException
  /-- Another `AmazonClientException`. -/
  | clientException

/-- `ScanRequest`. -/
structure ScanRequest (κ : Type) where
  /-- `AttributesToGet`. -/
  attributesToGet : Option (List Utf16)
  /-- `ExclusiveStartKey`. -/
  exclusiveStartKey : Option κ
  /-- `Limit`. -/
  limit : ℤ

/-- `ScanResult`: what it has of each item, and the key of the item. -/
structure ScanResult (κ : Type) where
  /-- `Items`. -/
  items : List (κ × Item)
  /-- `LastEvaluatedKey`. -/
  lastEvaluatedKey : Option κ

/-- The attributes that are asked for. -/
def Item.select (fields : Option (List Utf16)) (item : Item) : Item :=
  match fields with
  | none => item
  | some fields => ⟨item.entries.filter fun attr => fields.contains attr.1, item.nodupKeys.sublist List.filter_sublist⟩

/-- The items after a key, or from the first one on, up to a key, or to the last one. -/
def page (table : SortedMap κ Item) (esk lek : Option κ) : List (κ × Item) :=
  table.entries.filter fun e => esk.all (· < e.1) && lek.all (e.1 ≤ ·)

/-- A reply to a request is a page of the table. -/
structure IsPage (table : SortedMap κ Item) (req : ScanRequest κ) (res : ScanResult κ) : Prop where
  /-- It has the items from the key of the request on, up to its own. -/
  items_eq : res.items = (page table req.exclusiveStartKey res.lastEvaluatedKey).map fun e => (e.1, e.2.select req.attributesToGet)
  /-- It is not longer than the limit. -/
  length_le : res.items.length ≤ req.limit
  /-- It stops where it starts or further on. -/
  le : ∀ k ∈ req.exclusiveStartKey, ∀ k' ∈ res.lastEvaluatedKey, k ≤ k'

/-- What the service does with a request to scan a table. -/
structure Service (table : SortedMap κ Item) where
  /-- `dynamoDB.scan(req)`. -/
  scan : ScanRequest κ → Reply (ScanResult κ)
  /-- It replies with a page. -/
  isPage : ∀ req res, 1 ≤ req.limit → scan req = .result res → IsPage table req res

/-- The page that it replies with is the last, or has an item. -/
def Service.Advances {table : SortedMap κ Item} (service : Service table) : Prop :=
  ∀ req res, service.scan req = .result res → res.lastEvaluatedKey ≠ none → res.items ≠ []

/-- It does reply. -/
def Service.Replies {table : SortedMap κ Item} (service : Service table) : Prop := ∀ req, ∃ res, service.scan req = .result res

/-- How the service splits a table into pages. -/
structure Paging (table : SortedMap κ Item) where
  /-- What `dynamoDB.getItem` comes to. -/
  gets : Reply Unit
  /-- The service, at each request. -/
  rounds : ℕ → Service table
  /-- Pages without items come to an end. -/
  advances : ∀ n, ∃ m, n ≤ m ∧ (rounds m).Advances

/-- What `scan` returns. -/
inductive ScanStatus where
  /-- `OK`. -/
  | ok
  /-- `ERROR`. -/
  | error
  /-- `CLIENT_ERROR`. -/
  | clientError
  deriving DecidableEq

/-- `scan`, in its loop. -/
structure Scan (κ : Type) where
  /-- `count`. -/
  count : ℕ
  /-- `startKey`. -/
  startKey : Option κ
  /-- `result`, and the keys of the items. -/
  result : List (κ × Values Utf16)

/-- `extractResult(item)`. -/
def extractResult (item : Item) : Values Utf16 :=
  item.entries.foldl (fun rItems attr => rItems.insert attr.1 (.string (.ofString attr.2))) ∅

/-- The loop of `scan`: a round of it. -/
def scanBody {table : SortedMap κ Item} (recordcount : ℤ) (fields : Option (List Utf16)) (s : Scan κ) (service : Service table) :
    (ScanStatus × List (κ × Values Utf16)) ⊕ Scan κ :=
  if s.count < recordcount then
    match service.scan ⟨fields, s.startKey, recordcount - s.count⟩ with
    | .serviceException => .inl (.error, s.result)
    | .clientException => .inl (.clientError, s.result)
    | .result res => .inr ⟨s.count + res.items.length, res.lastEvaluatedKey, s.result ++ res.items.map fun e => (e.1, extractResult e.2)⟩
  else .inl (.ok, s.result)

/-- `dynamoDB.getItem(greq)`, where it replies. -/
def getItem (table : SortedMap κ Item) (fields : Option (List Utf16)) (key : κ) : Option Item := (table.get key).map (·.select fields)

/-- `scan`, where its loop begins. -/
def start (table : SortedMap κ Item) (startkey : κ) (fields : Option (List Utf16)) : Scan κ where
  count := 1
  startKey := some startkey
  result := (getItem table fields startkey).toList.map fun item => (startkey, extractResult item)

/-- `dynamoDB.scan` again and again, after `getItem`: what `scan(table, startkey, recordcount, fields, result)` returns, or where it is. -/
def scan {table : SortedMap κ Item} (gets : Reply Unit) (recordcount : ℤ) (fields : Option (List Utf16)) (startkey : κ)
    (services : List (Service table)) : (ScanStatus × List (κ × Values Utf16)) ⊕ Scan κ :=
  match gets with
  | .serviceException => .inl (.error, [])
  | .clientException => .inl (.clientError, [])
  | .result () => loop (scanBody recordcount fields) (start table startkey fields) services

/-- No item is returned twice, none before the start key, and not more than are asked for. -/
structure Within (startkey : κ) (recordcount : ℤ) (result : List (κ × Values Utf16)) : Prop where
  /-- None twice. -/
  nodup : (result.map Prod.fst).Nodup
  /-- None before the start key. -/
  le : ∀ e ∈ result, startkey ≤ e.1
  /-- Not more than are asked for. -/
  length_le : result.length ≤ recordcount

/-- The scan ends, and returns such items. -/
def Paging.Scans {table : SortedMap κ Item} (p : Paging table) (recordcount : ℤ) (fields : Option (List Utf16)) (startkey : κ) : Prop :=
  ∃ n status result, scan p.gets recordcount fields startkey (firstRounds p.rounds n) = .inl (status, result) ∧
    Within startkey recordcount result

/-- No request fails. -/
def Paging.Replies {table : SortedMap κ Item} (p : Paging table) : Prop := p.gets = .result () ∧ ∀ n, (p.rounds n).Replies

/-! ### Pages -/

section

variable {table : SortedMap κ Item} {esk lek : Option κ} {startkey k : κ}

/-- Two pages are one, if the second starts where the first stops. -/
theorem page_append (hk : startkey ≤ k) (hle : ∀ k' ∈ lek, k ≤ k') :
    page table (some startkey) (some k) ++ page table (some k) lek = page table (some startkey) lek := by
  rw [page, page, filter_append_filter]
  · refine List.filter_congr fun e _ => ?_
    cases lek with
    | none =>
      rw [Bool.eq_iff_iff]
      simp only [Option.all_some, Option.all_none, Bool.and_true, Bool.or_eq_true, Bool.and_eq_true, decide_eq_true_eq]
      constructor
      · rintro (⟨h, -⟩ | h)
        · exact h
        · exact hk.trans_lt h
      · intro h
        exact (le_or_gt e.1 k).imp (fun hek => ⟨h, hek⟩) id
    | some k' =>
      have hkk' := hle k' rfl
      rw [Bool.eq_iff_iff]
      simp only [Option.all_some, Bool.or_eq_true, Bool.and_eq_true, decide_eq_true_eq]
      constructor
      · rintro (⟨h, hek⟩ | ⟨h, hek⟩)
        · exact ⟨h, hek.trans hkk'⟩
        · exact ⟨hk.trans_lt h, hek⟩
      · rintro ⟨h, hek⟩
        exact (le_or_gt e.1 k).imp (fun hle => ⟨h, hle⟩) fun hlt => ⟨hlt, hek⟩
  · intro e _ h
    simp only [Option.all_some, Bool.and_eq_true, decide_eq_true_eq] at h
    exact absurd h.2.1 (not_lt.mpr h.1.2)
  · refine table.sorted.imp fun {a b} hab hq => ?_
    simp only [Option.all_some, Bool.and_eq_true, decide_eq_true_eq] at hq
    simp only [Option.all_some, Bool.and_eq_false_iff, decide_eq_false_iff_not, not_lt, not_le]
    exact .inr (hq.1.trans hab)

/-- A page from a key on begins after it. -/
theorem mem_page {e : κ × Item} : e ∈ page table esk lek ↔ e ∈ table.entries ∧ (∀ k ∈ esk, k < e.1) ∧ ∀ k ∈ lek, e.1 ≤ k := by
  cases esk <;> cases lek <;> simp [page]

@[simp] theorem page_self : page table (some k) (some k) = [] := List.eq_nil_iff_forall_not_mem.mpr fun e he => by
  obtain ⟨-, hlt, hle⟩ := mem_page.mp he
  exact absurd (hlt k rfl) (not_lt.mpr (hle k rfl))

theorem nodup_page : ((page table esk lek).map Prod.fst).Nodup := by
  have hsorted : (page table esk lek).Pairwise fun a b => a.1 < b.1 := table.sorted.filter _
  exact List.pairwise_map.mpr (hsorted.imp ne_of_lt)

/-- No page that starts at a key or after it is longer than what follows the key. -/
theorem length_page_le : (page table (some startkey) lek).length ≤ (page table (some startkey) none).length := by
  refine (List.monotone_filter_right _ fun e he => ?_).length_le
  simp only [Option.all_some, Option.all_none, Bool.and_eq_true, Bool.and_true] at he ⊢
  exact he.1

end

/-! ### A round of the loop -/

section

variable {table : SortedMap κ Item} {recordcount : ℤ} {fields : Option (List Utf16)} {startkey : κ} {s s' : Scan κ} {service : Service table}

/-- A round that goes on has asked for a page, and adds it. -/
theorem scanBody_again (h : scanBody recordcount fields s service = .inr s') :
    ∃ res, s.count < recordcount ∧ service.scan ⟨fields, s.startKey, recordcount - s.count⟩ = .result res ∧
      s' = ⟨s.count + res.items.length, res.lastEvaluatedKey, s.result ++ res.items.map fun e => (e.1, extractResult e.2)⟩ := by
  rw [scanBody] at h
  split_ifs at h with hlt
  split at h
  · cases h
  · cases h
  · next res hres => exact ⟨res, hlt, hres, (Sum.inr.inj h).symm⟩

/-- A round that ends the loop adds nothing. It has counted as many as are asked for, or a request fails. -/
theorem scanBody_ends {out : ScanStatus × List (κ × Values Utf16)} (h : scanBody recordcount fields s service = .inl out) :
    out.2 = s.result ∧ (recordcount ≤ s.count ∨ ¬ service.Replies) := by
  rw [scanBody] at h
  split_ifs at h with hlt
  · split at h
    · next hreply =>
      cases h
      refine ⟨rfl, .inr fun hreplies => ?_⟩
      obtain ⟨res, hres⟩ := hreplies _
      cases hreply.symm.trans hres
    · next hreply =>
      cases h
      refine ⟨rfl, .inr fun hreplies => ?_⟩
      obtain ⟨res, hres⟩ := hreplies _
      cases hreply.symm.trans hres
    · cases h
  · cases h
    exact ⟨rfl, .inl (not_lt.mp hlt)⟩

/-- The page that a round adds. -/
theorem scanBody_page (h : scanBody recordcount fields s service = .inr s') :
    ∃ res, IsPage table ⟨fields, s.startKey, recordcount - s.count⟩ res ∧
      service.scan ⟨fields, s.startKey, recordcount - s.count⟩ = .result res ∧
      s' = ⟨s.count + (page table s.startKey res.lastEvaluatedKey).length, res.lastEvaluatedKey,
        s.result ++ (page table s.startKey res.lastEvaluatedKey).map fun e => (e.1, extractResult (e.2.select fields))⟩ := by
  obtain ⟨res, hlt, hres, rfl⟩ := scanBody_again h
  have hpage := service.isPage ⟨fields, s.startKey, recordcount - s.count⟩ res (by simp only; omega) hres
  refine ⟨res, hpage, hres, ?_⟩
  rw [hpage.items_eq, List.length_map, List.map_map]
  rfl

end

/-! ### A scan that need not go past the end -/

section

variable {table : SortedMap κ Item} {recordcount : ℤ} {fields : Option (List Utf16)} {startkey : κ}

/-- The items between the start key and where the scan is are in its result, once each, and nothing else is. -/
structure Seen (table : SortedMap κ Item) (recordcount : ℤ) (fields : Option (List Utf16)) (startkey : κ) (s : Scan κ) : Prop where
  /-- It is not before the start key. -/
  le : ∀ k ∈ s.startKey, startkey ≤ k
  /-- It has counted them, and the start key. -/
  count_eq : s.count = 1 + (page table (some startkey) s.startKey).length
  /-- It has returned them, after the item of the start key. -/
  result_eq : s.result = (start table startkey fields).result ++
    (page table (some startkey) s.startKey).map fun e => (e.1, extractResult (e.2.select fields))
  /-- They are not more than are asked for. -/
  count_le : s.count ≤ recordcount

theorem seen_start (h : 1 ≤ recordcount) : Seen table recordcount fields startkey (start table startkey fields) where
  le k hk := (Option.some.inj hk).le
  count_eq := by rw [start, page_self, List.length_nil]
  result_eq := by rw [start, page_self, List.map_nil, List.append_nil]
  count_le := h

/-- A round that finds a key goes on from it. -/
theorem Seen.again {s s' : Scan κ} {service : Service table} (hs : Seen table recordcount fields startkey s)
    (henough : recordcount ≤ 1 + (page table (some startkey) none).length) (h : scanBody recordcount fields s service = .inr s') :
    Seen table recordcount fields startkey s' := by
  obtain ⟨-, hlt, -, -⟩ := scanBody_again h
  obtain ⟨res, hpage, -, rfl⟩ := scanBody_page h
  cases hkey : s.startKey with
  | none =>
    -- it has counted all there are
    have hcount := hs.count_eq
    rw [hkey] at hcount
    omega
  | some k =>
    have hk := hs.le k hkey
    have happend : page table (some startkey) (some k) ++ page table (some k) res.lastEvaluatedKey = page table (some startkey) res.lastEvaluatedKey :=
      page_append hk fun k' hk' => hpage.le k hkey k' hk'
    refine ⟨fun k' hk' => hk.trans (hpage.le k hkey k' hk'), ?_, ?_, ?_⟩
    · rw [← happend, List.length_append, ← Nat.add_assoc, ← hkey, ← hs.count_eq]
    · rw [← happend, List.map_append, ← List.append_assoc, ← hkey, ← hs.result_eq]
    · have hle := hpage.length_le
      rw [hpage.items_eq, List.length_map] at hle
      simp only at hle ⊢
      rw [← hkey]
      omega

/-- How much there is to count, and whether there is a key to go on from. -/
def toCount (recordcount : ℤ) (s : Scan κ) : ℕ := 2 * (recordcount.toNat - s.count) + if s.startKey.isSome then 1 else 0

/-- A round leaves no more, and less if its page has an item or is the last. -/
theorem Seen.toCount_le {s s' : Scan κ} {service : Service table} (hs : Seen table recordcount fields startkey s)
    (henough : recordcount ≤ 1 + (page table (some startkey) none).length) (h : scanBody recordcount fields s service = .inr s') :
    toCount recordcount s' ≤ toCount recordcount s ∧ (service.Advances → toCount recordcount s' < toCount recordcount s) := by
  have hcount := (hs.again henough h).count_le
  obtain ⟨res, hlt, hres, rfl⟩ := scanBody_again h
  have hsome : s.startKey.isSome := by
    cases hkey : s.startKey with
    | none =>
      have hall := hs.count_eq
      rw [hkey] at hall
      omega
    | some k => rfl
  simp only at hcount
  simp only [toCount, hsome, if_true]
  constructor
  · split_ifs <;> omega
  · intro hadvances
    cases hlek : res.lastEvaluatedKey with
    | none =>
      simp only [Option.isSome_none, Bool.false_eq_true, if_false]
      omega
    | some k =>
      have hne := List.length_pos_iff.mpr (hadvances _ res hres (by simp [hlek]))
      simp only [Option.isSome_some, if_true]
      omega

/-- What it has returned is as it should be. -/
theorem Seen.within {s : Scan κ} (hs : Seen table recordcount fields startkey s) : Within startkey recordcount s.result where
  nodup := by
    rw [hs.result_eq, List.map_append, List.map_map, start, List.map_map, List.nodup_append]
    refine ⟨?_, nodup_page, ?_⟩
    · cases getItem table fields startkey <;> simp
    · rintro k hk k' hk' rfl
      obtain ⟨item, -, rfl⟩ := List.mem_map.mp hk
      obtain ⟨e, he, heq⟩ := List.mem_map.mp hk'
      exact absurd heq ((mem_page.mp he).2.1 startkey rfl).ne'
  le e he := by
    rw [hs.result_eq] at he
    rcases List.mem_append.mp he with he | he
    · obtain ⟨item, -, rfl⟩ := List.mem_map.mp he
      exact le_rfl
    · obtain ⟨e', he', rfl⟩ := List.mem_map.mp he
      exact ((mem_page.mp he').2.1 startkey rfl).le
  length_le := by
    have hcount := hs.count_eq
    have hle := hs.count_le
    have hfirst : (start table startkey fields).result.length ≤ 1 := by
      rw [start, List.length_map]
      cases getItem table fields startkey <;> simp
    rw [hs.result_eq, List.length_append, List.length_map]
    omega

/-- **A scan that need not go past the end of the table is as it should be**, also if a request fails. -/
theorem Paging.scans_of_le (p : Paging table) (h : 1 ≤ recordcount) (henough : recordcount ≤ 1 + (page table (some startkey) none).length) :
    p.Scans recordcount fields startkey := by
  have hempty : Within startkey recordcount ([] : List (κ × Values Utf16)) := ⟨List.nodup_nil, fun e he => absurd he List.not_mem_nil, by simp; omega⟩
  unfold Paging.Scans
  cases hgets : p.gets with
  | serviceException => exact ⟨0, .error, [], rfl, hempty⟩
  | clientException => exact ⟨0, .clientError, [], rfl, hempty⟩
  | result u =>
    have hkeeps : ∀ (s : Scan κ) (l : Service table) (s' : Scan κ), Seen table recordcount fields startkey s →
        scanBody recordcount fields s l = .inr s' → Seen table recordcount fields startkey s' := fun s l s' hs hbody => hs.again henough hbody
    have hends : ∃ out, Ends (scanBody recordcount fields) (start table startkey fields) p.rounds out := by
      refine ends_of_measure (m := toCount recordcount) hkeeps (fun s l s' hs hbody => (hs.toCount_le henough hbody).1) (fun n => ?_) (seen_start h)
      obtain ⟨k, hk, hadvances⟩ := p.advances n
      exact ⟨k, hk, fun s s' hs hbody => (hs.toCount_le henough hbody).2 hadvances⟩
    obtain ⟨⟨status, result⟩, n, hn⟩ := hends
    refine ⟨n, status, result, hn, ?_⟩
    refine loop_result (Q := fun out => Within startkey recordcount out.2) hkeeps (fun s l out hs hbody => ?_) (seen_start h) hn
    rw [(scanBody_ends hbody).1]
    exact hs.within

end

/-! ### A scan that goes past the end -/

section

variable {table : SortedMap κ Item} {recordcount : ℤ} {fields : Option (List Utf16)} {startkey : κ}

/-- What a scan has added to its result are items of the table, and it has counted them. -/
structure Counted (table : SortedMap κ Item) (fields : Option (List Utf16)) (startkey : κ) (s : Scan κ) where
  /-- What it has added. -/
  added : List (κ × Item)
  /-- It is in the table. -/
  mem : ∀ e ∈ added, e ∈ table.entries
  /-- It has been added to the item of the start key. -/
  result_eq : s.result = (start table startkey fields).result ++ added.map fun e => (e.1, extractResult (e.2.select fields))
  /-- It has been counted. -/
  count_eq : s.count = 1 + added.length

theorem counted_again {s s' : Scan κ} {service : Service table} (hs : Nonempty (Counted table fields startkey s))
    (h : scanBody recordcount fields s service = .inr s') : Nonempty (Counted table fields startkey s') := by
  obtain ⟨c⟩ := hs
  obtain ⟨res, -, -, rfl⟩ := scanBody_page h
  refine ⟨⟨c.added ++ page table s.startKey res.lastEvaluatedKey, fun e he => ?_, ?_, ?_⟩⟩
  · exact (List.mem_append.mp he).elim (c.mem e) fun he => (mem_page.mp he).1
  · rw [List.map_append, ← List.append_assoc, ← c.result_eq]
  · rw [List.length_append, ← Nat.add_assoc, ← c.count_eq]

/-- If it has added no item twice, nor one before the start key, it has counted no more than follow the start key. -/
theorem Counted.count_le {s : Scan κ} (c : Counted table fields startkey s) (h : Within startkey recordcount s.result) :
    s.count ≤ 1 + (page table (some startkey) none).length := by
  have hnodup := h.nodup
  rw [c.result_eq, List.map_append, List.map_map, List.nodup_append] at hnodup
  obtain ⟨-, hadded, hapart⟩ := hnodup
  have hsub : c.added.map Prod.fst ⊆ (page table (some startkey) none).map Prod.fst := by
    intro k hk
    obtain ⟨e, he, rfl⟩ := List.mem_map.mp hk
    have hmem := c.mem e he
    have hle : startkey ≤ e.1 := h.le (e.1, extractResult (e.2.select fields)) (by
      rw [c.result_eq]
      exact List.mem_append_right _ (List.mem_map_of_mem he))
    have hne : startkey ≠ e.1 := by
      rintro rfl
      have hget : table.get e.1 = some e.2 := SortedMap.mem_entries.mp hmem
      refine hapart e.1 ?_ e.1 (List.mem_map_of_mem he) rfl
      rw [start, getItem, hget]
      exact List.mem_singleton_self _
    exact List.mem_map_of_mem (mem_page.mpr ⟨hmem, fun k hk => Option.some.inj hk ▸ lt_of_le_of_ne hle hne, fun k hk => nomatch hk⟩)
  have hlength := (List.subperm_of_subset hadded hsub).length_le
  rw [List.length_map, List.length_map] at hlength
  rw [c.count_eq]
  omega

/-- A scan that should be as it is need not go past the end. -/
theorem Paging.le_of_scans {p : Paging table} (hreplies : p.Replies) (h : p.Scans recordcount fields startkey) :
    recordcount ≤ 1 + (page table (some startkey) none).length := by
  obtain ⟨n, status, result, hscan, hwithin⟩ := h
  rw [hreplies.1, scan] at hscan
  have hstart : Nonempty (Counted table fields startkey (start table startkey fields)) :=
    ⟨⟨[], fun e he => absurd he List.not_mem_nil, by simp, by simp [start]⟩⟩
  obtain ⟨done, l, rest, s, hsplit, hdone, hl⟩ := loop_ends hscan
  obtain ⟨c⟩ := loop_again (fun s l s' => counted_again) hstart hdone
  obtain ⟨m, -, rfl⟩ := List.mem_map.mp (show l ∈ firstRounds p.rounds n from hsplit ▸ List.mem_append_right _ List.mem_cons_self)
  obtain ⟨hresult, hcount⟩ := scanBody_ends hl
  dsimp only at hresult
  rw [hresult] at hwithin
  have hle := c.count_le hwithin
  have hfull := hcount.resolve_right fun hnot => hnot (hreplies.2 m)
  omega

/-- **A scan ends, and returns no item twice, none before the start key and not more than are asked for**, just if it need not go past the
end of the table. -/
theorem Paging.scans_iff (p : Paging table) (hreplies : p.Replies) (h : 1 ≤ recordcount) :
    p.Scans recordcount fields startkey ↔ recordcount ≤ 1 + (page table (some startkey) none).length :=
  ⟨Paging.le_of_scans hreplies, p.scans_of_le h⟩

end

/-- A service that replies with all that is left of a table of one item. -/
def onePage (table : SortedMap κ Item) (h : table.entries.length ≤ 1) : Paging table where
  gets := .result ()
  rounds _ :=
    { scan := fun req => .result ⟨(page table req.exclusiveStartKey none).map fun e => (e.1, e.2.select req.attributesToGet), none⟩
      isPage := fun req res hlimit hres => by
        cases hres
        refine ⟨rfl, ?_, fun k _ k' hk' => nomatch hk'⟩
        have hle : (page table req.exclusiveStartKey none).length ≤ table.entries.length := List.length_filter_le _ _
        rw [List.length_map]
        omega }
  advances n := ⟨n, le_rfl, fun req res hres hlek => by
    cases hres
    exact absurd rfl hlek⟩

theorem replies_onePage (table : SortedMap κ Item) (h : table.entries.length ≤ 1) : (onePage table h).Replies := ⟨rfl, fun _ _ => ⟨_, rfl⟩⟩

/-- A table of one item, of the key `1`. -/
def tableOfOne : SortedMap ℕ Item := SortedMap.empty.put 1 ∅

/-- Two items from its key on: the scan comes round to it again. -/
theorem not_scans_past : ¬ (onePage tableOfOne (by decide)).Scans 2 none 1 := fun h =>
  absurd (Paging.le_of_scans (replies_onePage _ _) h) (by decide)

theorem scans_iff_one : (onePage tableOfOne (by decide)).Scans 2 none 0 ↔ (2 : ℤ) ≤ 1 + (page tableOfOne (some 0) none).length :=
  Paging.scans_iff _ (replies_onePage _ _) (by decide)

end YcsbIvs.DynamoDB
