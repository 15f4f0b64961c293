import YcsbIvs.Foundations.Walks
import YcsbIvs.Foundations.Throws
import YcsbIvs.RocksDB.Codec
import Mathlib.Data.Finset.Card

/-!
# Decoding any bytes

`deserializeValues` checks the length of a key, as `new String` does, but takes the length of a value as it finds it. One that is negative
leads back into the array, or to an entry that has been read: then the loop does not end. One that is too large leads out of the array, and the
loop ends, with an iterator over bytes that are not there.

The places the loop comes to are a walk through the array (`nextOffset`), and what it returns is what the entries on the way put. So it ends with slices
that lie in the array **just when no entry starts where an earlier one does, and, if the end of the array is reached, the last entry of each field asked for has
its value in the array** (`decodes_iff`). The bound on the rounds in `deserializeValues` never cuts a loop short that would end (`deserializeValues_nonTermination`).
-/

namespace YcsbIvs.RocksDB

open YcsbIvs.Foundations YcsbIvs.Core

/-! ### The entries of an array -/

/-- What one round of the loop reads. -/
structure Entry where
  /-- The key. -/
  key : Name
  /-- Where the value starts. -/
  offset : ℤ
  /-- The length of the value, as found. -/
  valueLen : ℤ
  deriving DecidableEq

/-- Read an entry at an offset. -/
def readEntry (values : Bytes) (offset : ℤ) : Except Throwable Entry := do
  let keyLen ← getIntAt values offset
  let key ← newString values (offset + 4) keyLen
  let offset := asInt (offset + 4 + keyLen)
  let valueLen ← getIntAt values offset
  .ok ⟨key, offset + 4, valueLen⟩

namespace Entry

/-- The offset after an entry. -/
def next (e : Entry) : ℤ := asInt (e.offset + e.valueLen)

/-- The iterator over the value of an entry. -/
def slice (values : Bytes) (e : Entry) : ByteArrayByteIterator := .ofSlice values e.offset e.valueLen

/-- Put an entry into the map, if its field is asked for. -/
def put (values : Bytes) (fields : Option (List Name)) (result : Values Name) (e : Entry) : Values Name :=
  if selects fields e.key then result.insert e.key (.byteArray (e.slice values)) else result

/-- The value of an entry is in the array. -/
def InArray (values : Bytes) (e : Entry) : Prop := 0 ≤ e.valueLen ∧ e.offset + e.valueLen ≤ values.length

end Entry

/-- The offset after the entry at an offset, if the loop goes on from there and the entry can be read. -/
def nextOffset (values : Bytes) (offset : ℤ) : Option ℤ :=
  if offset < values.length then (readEntry values offset).toOption.map Entry.next else none

/-- The first `n` entries from an offset on, one after the other. -/
def entriesFrom (values : Bytes) : ℕ → ℤ → List Entry
  | 0, _ => []
  | n + 1, offset =>
    match readEntry values offset with
    | .ok e => e :: entriesFrom values n e.next
    | .error _ => []

/-! ### What is promised -/

/-- A slice that lies in the array. -/
def Within (values : Bytes) (it : ByteArrayByteIterator) : Prop :=
  it.str = values ∧ 0 ≤ it.off ∧ it.originalOffset = it.off ∧ it.off ≤ it.len ∧ it.len ≤ values.length

/-- The loop ends, and the map it returns has in it what it had and slices that lie in the array. -/
def Decodes (values : Bytes) (fields : Option (List Name)) : Prop :=
  ∀ result, (∃ fuel, deserializeLoop values fields fuel 0 result ≠ .error .nonTermination) ∧
    ∀ result', deserializeValues values fields result = .ok result' → ∀ f it, result'.lookup f = some it →
      result.lookup f = some it ∨ ∃ a, it = .byteArray a ∧ Within values a

/-- The lengths lead to no offset twice, and those that lead to the end of the array give values that lie in it: each field asked for has its
last entry there. -/
structure Framed (values : Bytes) (fields : Option (List Name)) : Prop where
  /-- No entry starts where an earlier one does. -/
  noReturn : NoReturn (nextOffset values) 0
  /-- The last value of each field lies in the array. -/
  inArray : ∀ n offset, walk (nextOffset values) 0 n = some offset → (values.length : ℤ) ≤ offset →
    ∀ pre e post, entriesFrom values n 0 = pre ++ e :: post → selects fields e.key = true → (∀ e' ∈ post, e'.key ≠ e.key) → e.InArray values

/-! ### One round -/

variable {values : Bytes} {fields : Option (List Name)}

/-- No step of a round loops. -/
theorem getIntAt_terminates (values : Bytes) (offset : ℤ) : Avoids (· = .nonTermination) (getIntAt values offset) := by
  rw [getIntAt]
  split_ifs
  · exact avoids_error_iff.mpr (by decide)
  · split
    · exact avoids_ok
    · exact avoids_error_iff.mpr (by decide)

theorem newString_terminates (values : Bytes) (offset length : ℤ) : Avoids (· = .nonTermination) (newString values offset length) := by
  rw [newString]
  split_ifs
  · exact avoids_error_iff.mpr (by decide)
  · exact avoids_ok

theorem readEntry_terminates (values : Bytes) (offset : ℤ) : Avoids (· = .nonTermination) (readEntry values offset) :=
  avoids_bind_iff.mpr ⟨getIntAt_terminates values offset, fun keyLen _ => avoids_bind_iff.mpr ⟨newString_terminates values _ keyLen,
    fun _ _ => avoids_bind_ok_iff.mpr (getIntAt_terminates values _)⟩⟩

/-- A length that can be read is a word in the array. -/
theorem getIntAt_bounds {offset n : ℤ} (h : getIntAt values offset = .ok n) : 0 ≤ offset ∧ offset + 4 ≤ values.length ∧ FitsInt n := by
  rw [getIntAt] at h
  split_ifs at h with hneg
  split at h
  · next b₀ b₁ b₂ b₃ rest hdrop =>
    have hn : getInt b₀ b₁ b₂ b₃ = n := Except.ok.inj h
    have hlen := congrArg List.length hdrop
    simp only [List.length_drop, List.length_cons] at hlen
    exact ⟨not_lt.mp hneg, by omega, hn ▸ fitsInt_asInt _⟩
  · cases h

/-- So the value of an entry starts in the array, or at its end. -/
theorem readEntry_bounds {offset : ℤ} {e : Entry} (h : readEntry values offset = .ok e) :
    0 ≤ offset ∧ 0 ≤ e.offset ∧ e.offset ≤ values.length ∧ FitsInt e.valueLen := by
  obtain ⟨keyLen, hkeyLen, h⟩ := bind_inv h
  obtain ⟨key, -, h⟩ := bind_inv h
  obtain ⟨valueLen, hvalueLen, h⟩ := bind_inv h
  cases h
  have hkey := getIntAt_bounds hkeyLen
  have hvalue := getIntAt_bounds hvalueLen
  exact ⟨hkey.1, by dsimp only; omega, hvalue.2⟩

/-- A round reads an entry, puts it and goes on after it. -/
theorem deserializeLoop_succ (values : Bytes) (fields : Option (List Name)) (fuel : ℕ) (offset : ℤ) (result : Values Name) :
    deserializeLoop values fields (fuel + 1) offset result =
      if offset < values.length then readEntry values offset >>= fun e => deserializeLoop values fields fuel e.next (e.put values fields result)
      else .ok result := by
  rw [deserializeLoop, readEntry]
  simp only [bind_assoc]
  rfl

/-- The offsets in the array. -/
def offsets (values : Bytes) : Finset ℤ := (Finset.range values.length).map ⟨Int.ofNat, Int.ofNat_injective⟩

theorem card_offsets (values : Bytes) : (offsets values).card = values.length := by rw [offsets, Finset.card_map, Finset.card_range]

theorem mem_offsets {offset : ℤ} (h : 0 ≤ offset) (hlt : offset < values.length) : offset ∈ offsets values :=
  Finset.mem_map.mpr ⟨offset.toNat, Finset.mem_range.mpr (by omega), Int.toNat_of_nonneg h⟩

/-- An offset that the loop goes on from is in the array. -/
theorem mem_of_nextOffset {offset : ℤ} (h : nextOffset values offset ≠ none) : offset ∈ offsets values := by
  rw [nextOffset] at h
  split_ifs at h with hlt
  · cases hread : readEntry values offset with
    | error err =>
      rw [hread] at h
      exact absurd rfl h
    | ok e => exact mem_offsets (readEntry_bounds hread).1 hlt
  · exact absurd rfl h

/-- A walk that does not return ends within as many rounds as there are offsets. -/
theorem walk_offsets (h : NoReturn (nextOffset values) 0) : walk (nextOffset values) 0 (values.length + 1) = none := by
  have hstop := walk_of_noReturn h fun a => @mem_of_nextOffset values a
  rwa [card_offsets] at hstop

/-! ### The loop -/

/-- The loop needs more rounds just if the walk goes on for more. -/
theorem deserializeLoop_nonTermination (fuel : ℕ) (offset : ℤ) (result : Values Name) :
    deserializeLoop values fields fuel offset result = .error .nonTermination ↔ walk (nextOffset values) offset fuel ≠ none := by
  induction fuel generalizing offset result with
  | zero => exact iff_of_true rfl (Option.some_ne_none _)
  | succ fuel ih =>
    rw [deserializeLoop_succ, walk_succ, nextOffset]
    split_ifs with hlt
    · cases hread : readEntry values offset with
      | error err => exact iff_of_false (fun h => readEntry_terminates values offset err hread (Except.error.inj h)) fun h => h rfl
      | ok e => exact ih e.next (e.put values fields result)
    · exact iff_of_false (fun h => nomatch h) fun h => h rfl

/-- What the loop returns is what the entries on the way to the end of the array put. -/
theorem deserializeLoop_result {fuel : ℕ} {offset : ℤ} {result result' : Values Name} (h : deserializeLoop values fields fuel offset result = .ok result') :
    ∃ n end', walk (nextOffset values) offset n = some end' ∧ (values.length : ℤ) ≤ end' ∧
      result' = (entriesFrom values n offset).foldl (fun r e => e.put values fields r) result := by
  induction fuel generalizing offset result with
  | zero => cases h
  | succ fuel ih =>
    rw [deserializeLoop_succ] at h
    split_ifs at h with hlt
    · obtain ⟨e, hread, h⟩ := bind_inv h
      obtain ⟨n, end', hwalk, hend, hresult⟩ := ih h
      refine ⟨n + 1, end', ?_, hend, ?_⟩
      · rw [walk_succ, nextOffset, if_pos hlt, hread]
        exact hwalk
      · rw [entriesFrom, hread]
        exact hresult
    · cases h
      exact ⟨0, offset, rfl, not_lt.mp hlt, rfl⟩

/-- A loop that gets to the end of the array returns. -/
theorem deserializeLoop_of_walk {n : ℕ} {offset end' : ℤ} (hwalk : walk (nextOffset values) offset n = some end') (hend : (values.length : ℤ) ≤ end')
    (fields : Option (List Name)) (result : Values Name) {fuel : ℕ} (hfuel : n < fuel) :
    deserializeLoop values fields fuel offset result = .ok ((entriesFrom values n offset).foldl (fun r e => e.put values fields r) result) := by
  obtain ⟨fuel, rfl⟩ := Nat.exists_eq_succ_of_ne_zero (Nat.ne_zero_of_lt hfuel)
  induction n generalizing offset result fuel with
  | zero =>
    cases hwalk
    rw [Nat.succ_eq_add_one, deserializeLoop_succ, if_neg (not_lt.mpr hend)]
    rfl
  | succ n ih =>
    rw [walk_succ, nextOffset] at hwalk
    split_ifs at hwalk with hlt
    · cases hread : readEntry values offset with
      | error err =>
        rw [hread] at hwalk
        cases hwalk
      | ok e =>
        rw [hread] at hwalk
        obtain ⟨fuel, rfl⟩ := Nat.exists_eq_succ_of_ne_zero (show fuel ≠ 0 by omega)
        rw [Nat.succ_eq_add_one, deserializeLoop_succ, if_pos hlt, hread, entriesFrom, hread]
        exact ih hwalk (e.put values fields result) fuel (by omega)
    · cases hwalk

/-- **The rounds allowed are enough**: a loop cut short by `deserializeValues` does not end. -/
theorem deserializeValues_nonTermination (result : Values Name) :
    deserializeValues values fields result = .error .nonTermination ↔
      ∀ fuel, deserializeLoop values fields fuel 0 result = .error .nonTermination := by
  constructor
  · intro h fuel
    rw [deserializeValues, deserializeLoop_nonTermination] at h
    rw [deserializeLoop_nonTermination]
    intro hfuel
    exact h (walk_offsets (noReturn_of_stops ⟨fuel, hfuel⟩))
  · exact fun h => h _

/-- The loop ends just if no entry starts where an earlier one does. -/
theorem ends_iff (values : Bytes) (fields : Option (List Name)) (result : Values Name) :
    (∃ fuel, deserializeLoop values fields fuel 0 result ≠ .error .nonTermination) ↔ NoReturn (nextOffset values) 0 := by
  rw [← stops_iff fun a => @mem_of_nextOffset values a, Stops]
  exact exists_congr fun fuel => (deserializeLoop_nonTermination fuel 0 result).not.trans not_not

/-! ### The map -/

/-- What is in the map after an entry has been put. -/
theorem lookup_put (result : Values Name) (e : Entry) (f : Name) :
    (e.put values fields result).lookup f =
      if selects fields e.key = true ∧ e.key = f then some (.byteArray (e.slice values)) else result.lookup f := by
  rw [Entry.put]
  by_cases hsel : selects fields e.key = true
  · rw [if_pos hsel]
    by_cases hf : e.key = f
    · rw [if_pos ⟨hsel, hf⟩, ← hf, AList.lookup_insert]
    · rw [if_neg fun h => hf h.2, AList.lookup_insert_ne fun h => hf h.symm]
  · rw [if_neg hsel, if_neg fun h => hsel h.1]

/-- The last entry of a field is the one in the map. The induction is on the entries put, from the last on. -/
theorem lookup_foldl_put {entries : List Entry} {result : Values Name} {f : Name} {it : ByteIterator}
    (h : (entries.foldl (fun r e => e.put values fields r) result).lookup f = some it) :
    result.lookup f = some it ∨ ∃ pre e post, entries = pre ++ e :: post ∧ e.key = f ∧ selects fields e.key = true ∧
      (∀ e' ∈ post, e'.key ≠ e.key) ∧ it = .byteArray (e.slice values) := by
  induction entries using List.reverseRecOn with
  | nil => exact .inl h
  | append_singleton entries last ih =>
    rw [List.foldl_append, List.foldl_cons, List.foldl_nil, lookup_put] at h
    split_ifs at h with hlast
    · cases h
      exact .inr ⟨entries, last, [], rfl, hlast.2, hlast.1, fun _ he => absurd he List.not_mem_nil, rfl⟩
    · refine (ih h).imp_right ?_
      rintro ⟨pre, e, post, rfl, hkey, hsel, hpost, hit⟩
      refine ⟨pre, e, post ++ [last], by simp, hkey, hsel, fun e' he' => ?_, hit⟩
      rcases List.mem_append.mp he' with he' | he'
      · exact hpost e' he'
      · obtain rfl := List.mem_singleton.mp he'
        exact fun heq => hlast ⟨heq ▸ hsel, heq.trans hkey⟩

theorem lookup_foldl_last (values : Bytes) (pre : List Entry) {post : List Entry} {e : Entry} (hsel : selects fields e.key = true) (hpost : ∀ e' ∈ post, e'.key ≠ e.key)
    (result : Values Name) :
    ((pre ++ e :: post).foldl (fun r e => e.put values fields r) result).lookup e.key = some (.byteArray (e.slice values)) := by
  rw [List.foldl_append, List.foldl_cons]
  generalize pre.foldl (fun r e => e.put values fields r) result = before
  induction post using List.reverseRecOn with
  | nil => rw [List.foldl_nil, lookup_put, if_pos ⟨hsel, rfl⟩]
  | append_singleton post last ih =>
    rw [List.foldl_append, List.foldl_cons, List.foldl_nil, lookup_put,
      if_neg fun h => hpost last (List.mem_append_right _ (List.mem_singleton_self _)) h.2]
    exact ih fun e' he' => hpost e' (List.mem_append_left _ he')

theorem mem_entriesFrom {n : ℕ} {offset : ℤ} {e : Entry} (h : e ∈ entriesFrom values n offset) : ∃ o, readEntry values o = .ok e := by
  induction n generalizing offset with
  | zero => exact absurd h List.not_mem_nil
  | succ n ih =>
    rw [entriesFrom] at h
    cases hread : readEntry values offset with
    | error err =>
      rw [hread] at h
      exact absurd h List.not_mem_nil
    | ok e' =>
      rw [hread] at h
      rcases List.mem_cons.mp h with rfl | h
      · exact ⟨offset, hread⟩
      · exact ih h

/-- The slice of an entry that has been read lies in the array just if the value does. -/
theorem within_slice_iff (hlen : values.length < 2 ^ 31) {offset : ℤ} {e : Entry} (h : readEntry values offset = .ok e) :
    Within values (e.slice values) ↔ e.InArray values := by
  obtain ⟨-, hle, hend, hfits⟩ := readEntry_bounds h
  simp only [Within, Entry.slice, ByteArrayByteIterator.ofSlice, Entry.InArray, true_and]
  unfold FitsInt at hfits
  unfold asInt
  omega

theorem Decodes.noReturn (h : Decodes values fields) : NoReturn (nextOffset values) 0 := (ends_iff values fields ∅).mp (h ∅).1

/-- A map that was empty has the last entry of each field in it, so that entry has its value in the array. -/
theorem Decodes.inArray (h : Decodes values fields) (hlen : values.length < 2 ^ 31) {n : ℕ} {offset : ℤ}
    (hwalk : walk (nextOffset values) 0 n = some offset) (hend : (values.length : ℤ) ≤ offset) {pre post : List Entry} {e : Entry}
    (hentries : entriesFrom values n 0 = pre ++ e :: post) (hsel : selects fields e.key = true) (hpost : ∀ e' ∈ post, e'.key ≠ e.key) :
    e.InArray values := by
  have hn : n < values.length + 1 := by
    by_contra hle
    rw [walk_of_le (walk_offsets h.noReturn) (not_lt.mp hle)] at hwalk
    cases hwalk
  have hresult := deserializeLoop_of_walk hwalk hend fields ∅ hn
  have hlookup := lookup_foldl_last values pre hsel hpost ∅
  rw [← hentries] at hlookup
  obtain ⟨o, hread⟩ := mem_entriesFrom (e := e) (by rw [hentries]; exact List.mem_append_right _ List.mem_cons_self)
  rcases (h ∅).2 _ hresult _ _ hlookup with hempty | ⟨a, ha, hwithin⟩
  · rw [AList.lookup_empty] at hempty
    cases hempty
  · obtain rfl := ByteIterator.byteArray.inj ha
    exact (within_slice_iff hlen hread).mp hwithin

/-- **Which arrays are decoded**: those whose entries lead to no offset twice, and out of the array with values that lie in it. -/
theorem decodes_iff (values : Bytes) (fields : Option (List Name)) (hlen : values.length < 2 ^ 31) : Decodes values fields ↔ Framed values fields := by
  constructor
  · exact fun h => ⟨h.noReturn, fun n offset hwalk hend pre e post hentries hsel hpost => h.inArray hlen hwalk hend hentries hsel hpost⟩
  · intro h result
    refine ⟨(ends_iff values fields result).mpr h.noReturn, fun result' hresult f it hit => ?_⟩
    obtain ⟨n, offset, hwalk, hend, rfl⟩ := deserializeLoop_result hresult
    refine (lookup_foldl_put hit).imp_right ?_
    rintro ⟨pre, e, post, hentries, -, hsel, hpost, rfl⟩
    obtain ⟨o, hread⟩ := mem_entriesFrom (e := e) (by rw [hentries]; exact List.mem_append_right _ List.mem_cons_self)
    exact ⟨_, rfl, (within_slice_iff hlen hread).mpr (h.inArray n offset hwalk hend pre e post hentries hsel hpost)⟩

/-- The record of one field, `a`, with the value `b`. -/
theorem decodes_iff_letters :
    [0, 0, 0, 1, 97, 0, 0, 0, 1, 98].length < 2 ^ 31 ∧
      (Decodes [0, 0, 0, 1, 97, 0, 0, 0, 1, 98] none ↔ Framed [0, 0, 0, 1, 97, 0, 0, 0, 1, 98] none) :=
  ⟨by decide, decodes_iff [0, 0, 0, 1, 97, 0, 0, 0, 1, 98] none (by decide)⟩

/-- A value of length `–8` leads back to where its entry starts, and the loop does not end; one of length `1` at the end of the array is not there. -/
theorem not_decodes : ¬ Decodes [0, 0, 0, 0, 0xFF, 0xFF, 0xFF, 0xF8] none ∧ ¬ Decodes [0, 0, 0, 0, 0, 0, 0, 1] none := by
  constructor
  · intro h
    have hround : walk (nextOffset [0, 0, 0, 0, 0xFF, 0xFF, 0xFF, 0xF8]) 0 1 = some 0 := by decide
    exact h.noReturn 0 1 0 Nat.one_pos (walk_zero _ _) hround
  · intro h
    have hwalk : walk (nextOffset [0, 0, 0, 0, 0, 0, 0, 1]) 0 1 = some 9 := by decide
    have hentries : entriesFrom [0, 0, 0, 0, 0, 0, 0, 1] 1 0 = [] ++ [⟨Name.ofBytes [], 8, 1⟩] := by decide
    have hin := h.inArray (by decide) hwalk (by decide) hentries rfl fun _ he => absurd he List.not_mem_nil
    exact absurd hin.2 (by decide)

end YcsbIvs.RocksDB
