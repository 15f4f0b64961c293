import YcsbIvs.Core.DB
import YcsbIvs.Foundations.SortedMap

/-!
# The S3 binding: scanning

`scanFromStorage` lists all objects of a bucket, page after page, sorts their keys and looks the start key up. Then it reads the objects
from the position of the start key to the one of `recordcount`, or of the last object: it counts from the first key, not from the start key.

**A scan returns the objects from the start key on, as many as are asked for**, just if the start key is the least, or not more objects than that are
in the bucket, or none is asked for (`scansRight_iff_least`).
-/

namespace YcsbIvs.S3

open YcsbIvs.Foundations YcsbIvs.Core

/-- `ObjectListing`: the keys of its summaries, and the listing after it, if it is truncated. -/
inductive ObjectListing where
  /-- It is the last. -/
  | last (summaries : List Utf16)
  /-- It is truncated. -/
  | truncated (summaries : List Utf16) (next : ObjectListing)

/-- The summaries of a listing and of those after it: the loop while `listing.isTruncated()`. -/
def ObjectListing.summaries : ObjectListing → List Utf16
  | last summaries => summaries
  | truncated summaries next => summaries ++ next.summaries

/-- The loop that gets `startkeyNumber`. -/
def findStart (startkey : Utf16) : List Utf16 → ℕ → ℕ → ℕ
  | [], _, startkeyNumber => startkeyNumber
  | key :: keys, counter, startkeyNumber =>
    if key = startkey then findStart startkey keys counter counter else findStart startkey keys (counter + 1) startkeyNumber

/-- `readFromStorage(bucket, key, resultTemp, ssecLocal)`, into an empty map: what the object holds, or nothing if it cannot be got. -/
def readFromStorage (objects : Utf16 → Option Bytes) (key : Utf16) : Status × Values Utf16 :=
  match objects key with
  | none => (.error, ∅)
  | some bytes => (.ok, AList.singleton key (.byteArray (.ofArray bytes)))

/-- The loop that reads the files, from the `i`-th on. -/
def readFiles (objects : Utf16 → Option Bytes) (keyList : List Utf16) : ℕ → ℕ → Except Throwable (List (Values Utf16))
  | _, 0 => .ok []
  | i, rounds + 1 =>
    match keyList[i]? with
    | none => .error .arrayIndexOutOfBounds
    | some key => do
      let result ← readFiles objects keyList (i + 1) rounds
      .ok ((readFromStorage objects key).2 :: result)

/-- `Collections.sort(keyList)`. -/
def sort (keyList : List Utf16) : List Utf16 := keyList.mergeSort fun a b => a ≤ b

/-- `scanFromStorage(bucket, startkey, recordcount, result, ssecLocal)`. -/
def scanFromStorage (objects : Utf16 → Option Bytes) (listing : ObjectListing) (startkey : Utf16) (recordcount : ℕ) :
    Except Throwable (Status × List (Values Utf16)) := do
  let keyList := sort listing.summaries
  let startkeyNumber := findStart startkey keyList 0 0
  let numberOfIteration := if recordcount < keyList.length then recordcount else keyList.length
  let result ← readFiles objects keyList startkeyNumber (numberOfIteration - startkeyNumber)
  .ok (.ok, result)

/-- It returns the objects from the start key on, in the order of their keys, as many as are asked for. -/
def ScansRight (objects : Utf16 → Option Bytes) (listing : ObjectListing) (startkey : Utf16) (recordcount : ℕ) : Prop :=
  let keys := sort listing.summaries
  scanFromStorage objects listing startkey recordcount =
    .ok (.ok, ((keys.drop (keys.idxOf startkey)).take recordcount).map fun key => (readFromStorage objects key).2)

section

variable {objects : Utf16 → Option Bytes} {listing : ObjectListing} {startkey : Utf16} {recordcount : ℕ} {keys : List Utf16}

/-! ### The keys -/

theorem sort_perm (keys : List Utf16) : (sort keys).Perm keys := List.mergeSort_perm _ _

theorem sort_sorted (keys : List Utf16) : (sort keys).Pairwise (· ≤ ·) := by
  have h : (sort keys).Pairwise fun a b => decide (a ≤ b) = true := by
    refine List.pairwise_mergeSort (fun a b c hab hbc => ?_) (fun a b => ?_) keys
    · simp only [decide_eq_true_eq] at hab hbc ⊢
      exact hab.trans hbc
    · simp only [Bool.or_eq_true, decide_eq_true_eq]
      exact le_total a b
  exact h.imp of_decide_eq_true

/-- Where the start key is not, the loop finds nothing. -/
theorem findStart_of_notMem (h : startkey ∉ keys) (counter number : ℕ) : findStart startkey keys counter number = number := by
  induction keys generalizing counter with
  | nil => rfl
  | cons key keys ih =>
    rw [List.mem_cons, not_or] at h
    rw [findStart, if_neg (Ne.symm h.1), ih h.2]

/-- It finds the position of the start key. -/
theorem findStart_eq (hnd : keys.Nodup) (h : startkey ∈ keys) (counter number : ℕ) :
    findStart startkey keys counter number = counter + keys.idxOf startkey := by
  induction keys generalizing counter with
  | nil => cases h
  | cons key keys ih =>
    obtain ⟨hnot, hnd⟩ := List.nodup_cons.mp hnd
    rw [findStart]
    split_ifs with hkey
    · subst hkey
      rw [findStart_of_notMem hnot, List.idxOf_cons_self, Nat.add_zero]
    · rw [ih hnd ((List.mem_cons.mp h).resolve_left (Ne.symm hkey)), List.idxOf_cons_ne _ hkey, Nat.succ_eq_add_one]
      omega

/-- The start key is the first just if it is the least. -/
theorem idxOf_sort_eq_zero_iff (h : startkey ∈ keys) : (sort keys).idxOf startkey = 0 ↔ ∀ key ∈ keys, startkey ≤ key := by
  have hperm := sort_perm keys
  have hsorted := sort_sorted keys
  have hmem := hperm.mem_iff.mpr h
  cases hkeys : sort keys with
  | nil =>
    rw [hkeys] at hmem
    cases hmem
  | cons key rest =>
    rw [hkeys] at hperm hsorted hmem
    obtain ⟨hfirst, -⟩ := List.pairwise_cons.mp hsorted
    constructor
    · intro hzero k hk
      have heq : key = startkey := by
        by_contra hne
        rw [List.idxOf_cons_ne _ hne] at hzero
        omega
      rcases List.mem_cons.mp (hperm.mem_iff.mpr hk) with rfl | hk
      · exact heq.ge
      · exact heq ▸ hfirst k hk
    · intro hleast
      have hle : startkey ≤ key := hleast key (hperm.mem_iff.mp List.mem_cons_self)
      rcases List.mem_cons.mp hmem with rfl | hin
      · exact List.idxOf_cons_self
      · rw [le_antisymm hle (hfirst startkey hin), List.idxOf_cons_self]

/-! ### The files -/

/-- It does not read outside the list. -/
theorem readFiles_eq (i rounds : ℕ) (h : rounds ≤ keys.length - i) :
    readFiles objects keys i rounds = .ok (((keys.drop i).take rounds).map fun key => (readFromStorage objects key).2) := by
  induction rounds generalizing i with
  | zero => rfl
  | succ rounds ih =>
    have hi : i < keys.length := by omega
    rw [readFiles, List.getElem?_eq_getElem hi, List.drop_eq_getElem_cons hi, List.take_succ_cons, List.map_cons]
    dsimp only
    rw [ih (i + 1) (by omega)]
    rfl

/-- The objects that are read: as many from the start key on as there are from it up to the position of `recordcount`. -/
theorem scanFromStorage_eq (hnd : listing.summaries.Nodup) (h : startkey ∈ listing.summaries) :
    scanFromStorage objects listing startkey recordcount = .ok (.ok, (((sort listing.summaries).drop
      ((sort listing.summaries).idxOf startkey)).take (min recordcount listing.summaries.length -
        (sort listing.summaries).idxOf startkey)).map fun key => (readFromStorage objects key).2) := by
  have hperm := sort_perm listing.summaries
  have hrounds : (if recordcount < (sort listing.summaries).length then recordcount else (sort listing.summaries).length) =
      min recordcount listing.summaries.length := by
    rw [hperm.length_eq]
    split_ifs <;> omega
  have hlength := hperm.length_eq
  rw [scanFromStorage, findStart_eq (hperm.nodup_iff.mpr hnd) (hperm.mem_iff.mpr h), Nat.zero_add, hrounds, readFiles_eq _ _ (by omega)]
  rfl

/-- Others than these are not all that are asked for. -/
theorem of_scansRight (hnd : listing.summaries.Nodup) (h : startkey ∈ listing.summaries)
    (hright : ScansRight objects listing startkey recordcount) :
    (∀ key ∈ listing.summaries, startkey ≤ key) ∨ listing.summaries.length ≤ recordcount ∨ recordcount = 0 := by
  have hperm := sort_perm listing.summaries
  have hidx := List.idxOf_lt_length_of_mem (hperm.mem_iff.mpr h)
  rw [ScansRight, scanFromStorage_eq hnd h] at hright
  have hlengths := congrArg List.length (Prod.mk.inj (Except.ok.inj hright)).2
  simp only [List.length_map, List.length_take, List.length_drop] at hlengths
  rw [hperm.length_eq] at hidx hlengths
  rw [← idxOf_sort_eq_zero_iff h]
  omega

/-- **A scan returns the objects from the start key on, as many as are asked for**, just if the start key is the least, or there are
not more objects, or none is asked for. -/
theorem scansRight_iff_least (hnd : listing.summaries.Nodup) (h : startkey ∈ listing.summaries) :
    ScansRight objects listing startkey recordcount ↔
      (∀ key ∈ listing.summaries, startkey ≤ key) ∨ listing.summaries.length ≤ recordcount ∨ recordcount = 0 := by
  refine ⟨of_scansRight hnd h, fun hcond => ?_⟩
  have hlength := (sort_perm listing.summaries).length_eq
  rw [← idxOf_sort_eq_zero_iff h] at hcond
  rw [ScansRight, scanFromStorage_eq hnd h]
  congr 3
  refine List.take_eq_take_iff.mpr ?_
  rw [List.length_drop]
  omega

/-- One object is asked for, from the second key on: there is none in the result. -/
theorem not_scansRight_second : ¬ ScansRight (fun _ => some []) (.last [[0x61], [0x62]]) [0x62] 1 := fun h =>
  absurd (of_scansRight (by decide) (by decide) h) (by decide)

theorem scansRight_iff_second : ScansRight (fun _ => some []) (.truncated [[0x61]] (.last [[0x62]])) [0x62] 2 ↔
    (∀ key ∈ ([[0x61], [0x62]] : List Utf16), [0x62] ≤ key) ∨ ([[0x61], [0x62]] : List Utf16).length ≤ 2 ∨ 2 = 0 :=
  scansRight_iff_least (by decide) (by decide)

end

end YcsbIvs.S3
