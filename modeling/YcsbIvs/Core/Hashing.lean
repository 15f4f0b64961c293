import YcsbIvs.Core.RandomBytes
import YcsbIvs.Foundations.SortedMap
import YcsbIvs.Workloads.Values
import Mathlib.Data.List.AList
import Mathlib.Data.List.Sort

/-!
# The hash code of an operation

`BasicDB` knows an operation by one hash code, of its arguments in a row: the table, the key, and the fields or the fields with their values. The
arguments come in sets and maps, which list what is in them in any order, so it sorts them first; and the value of a field is an iterator, which may have been read
before, so it resets it first.

**The hash code is one of the operation, then** (`hash_same`): the order in which a set or a map lists the fields does not matter, nor what has been read of the
values. Of random bytes this cannot be said, since an iterator of those that is reset draws new ones.
-/

namespace YcsbIvs.Core

open YcsbIvs.Foundations
open YcsbIvs.Workloads (hashCode)

/-! ### Reset -/

namespace Implementation

/-- `reset()`. -/
def reset : Implementation → Implementation
  | field (.byteArray it) => field (.byteArray { it with off := it.originalOffset })
  | field (.string it) => field (.string { it with off := 0 })
  | field (.random it) => field (.random it.reset)
  | numeric it => numeric { it with off := 0 }

/-- The iterator after some calls that read it. -/
inductive Read (it : Implementation) : Implementation → Prop where
  /-- None. -/
  | refl : Read it it
  /-- `nextByte()` or `nextBuf(buf, bufOff)`. -/
  | call {it' : Implementation} (h : Read it it') (c : Call) : Read it (it'.after c)
  /-- `toArray()`. -/
  | toArray {it' it'' : Implementation} {bs : Bytes} (h : Read it it') (hr : it'.toArray = .ok (bs, it'')) : Read it it''
  /-- `toString()`. -/
  | toString {it' it'' : Implementation} {s : Utf16} (h : Read it it') (hr : it'.toString = .ok (s, it'')) : Read it it''

/-- Only the cursor is moved, in bytes that stay as they are. -/
inductive Moved : Implementation → Implementation → Prop where
  /-- Of an array. -/
  | byteArray (it : ByteArrayByteIterator) (off : ℤ) : Moved (field (.byteArray it)) (field (.byteArray { it with off }))
  /-- Of a string. -/
  | string (it : StringByteIterator) (off : ℕ) : Moved (field (.string it)) (field (.string { it with off }))
  /-- Of a number. -/
  | numeric (it : NumericByteIterator) (off : ℕ) : Moved (numeric it) (numeric { it with off })

/-- The bytes are not random ones. -/
def Fixed : Implementation → Prop
  | field (.random _) => False
  | _ => True

theorem Moved.refl {it : Implementation} (h : it.Fixed) : Moved it it := by
  cases it with
  | field it =>
    cases it with
    | byteArray it => exact .byteArray it it.off
    | string it => exact .string it it.off
    | random it => exact h.elim
  | numeric it => exact .numeric it it.off

theorem Moved.reset {it it' : Implementation} (h : Moved it it') : it'.reset = it.reset := by cases h <;> rfl

theorem Moved.trans {it it' it'' : Implementation} (h : Moved it it') (h' : Moved it' it'') : Moved it it'' := by
  cases h with
  | byteArray it off =>
    cases h' with
    | byteArray _ off' => exact .byteArray it off'
  | string it off =>
    cases h' with
    | string _ off' => exact .string it off'
  | numeric it off =>
    cases h' with
    | numeric _ off' => exact .numeric it off'

theorem Moved.fixed {it it' : Implementation} (h : Moved it it') : it'.Fixed := by cases h <;> trivial

theorem byteArray_moved {it it' : ByteArrayByteIterator} {b : UInt8} (h : it.nextByte = .ok (b, it')) :
    Moved (field (.byteArray it)) (field (.byteArray it')) := by
  rw [ByteArrayByteIterator.nextByte] at h
  split_ifs at h
  split at h
  · cases h
    exact .byteArray it (it.off + 1)
  · cases h

theorem string_moved {it it' : StringByteIterator} {b : UInt8} (h : it.nextByte = .ok (b, it')) :
    Moved (field (.string it)) (field (.string it')) := by
  rw [StringByteIterator.nextByte] at h
  split at h
  · cases h
    exact .string it (it.off + 1)
  · cases h

theorem numeric_moved {it it' : NumericByteIterator} {b : UInt8} (h : it.nextByte = .ok (b, it')) : Moved (numeric it) (numeric it') := by
  rw [NumericByteIterator.nextByte] at h
  split at h
  · cases h
    exact .numeric it (it.off + 1)
  · cases h

section Base

variable {σ : Type} {B : Base σ} (wrap : σ → Implementation) (hnext : ∀ it b it', B.nextByte it = .ok (b, it') → Moved (wrap it) (wrap it'))

include hnext

/-- What the base class makes of `nextByte` moves the cursor, as that does. -/
theorem moved_base_nextBuf {it : σ} (h : (wrap it).Fixed) {buf : Bytes} {bufOff : ℕ} {r : ℕ × Bytes × σ} (hr : B.nextBuf it buf bufOff = .ok r) :
    Moved (wrap it) (wrap r.2.2) :=
  Base.nextBufLoop_invariant (I := fun x => Moved (wrap it) (wrap x)) (fun _ _ _ hI _ hb => hI.trans (hnext _ _ _ hb)) (.refl h) hr

theorem moved_base_toArray {it : σ} (h : (wrap it).Fixed) {r : Bytes × σ} (hr : B.toArray it = .ok r) : Moved (wrap it) (wrap r.2) := by
  rw [Base.toArray] at hr
  split_ifs at hr
  exact Base.toArrayLoop_invariant (I := fun x => Moved (wrap it) (wrap x)) (fun _ _ _ hI hb => hI.trans (hnext _ _ _ hb)) (.refl h) hr

end Base

theorem moved_nextByte {it : Implementation} (h : it.Fixed) {r : UInt8 × Implementation} (hr : it.nextByte = .ok r) : Moved it r.2 := by
  cases it with
  | field it =>
    cases it with
    | byteArray it =>
      obtain ⟨r, hb, rfl⟩ := map_inv hr
      exact byteArray_moved hb
    | string it =>
      obtain ⟨r, hb, rfl⟩ := map_inv hr
      exact string_moved hb
    | random it => exact h.elim
  | numeric it =>
    obtain ⟨r, hb, rfl⟩ := map_inv hr
    exact numeric_moved hb

theorem moved_nextBuf {it : Implementation} (h : it.Fixed) {buf : Bytes} {bufOff : ℕ} {r : ℤ × Bytes × Implementation}
    (hr : it.nextBuf buf bufOff = .ok r) : Moved it r.2.2 := by
  cases it with
  | field it =>
    cases it with
    | byteArray it =>
      obtain ⟨r, hb, rfl⟩ := map_inv hr
      exact moved_base_nextBuf (fun x => field (.byteArray x)) (fun _ _ _ => byteArray_moved) h hb
    | string it =>
      obtain ⟨r, hb, rfl⟩ := map_inv hr
      exact moved_base_nextBuf (fun x => field (.string x)) (fun _ _ _ => string_moved) h hb
    | random it => exact h.elim
  | numeric it =>
    obtain ⟨r, hb, rfl⟩ := map_inv hr
    exact moved_base_nextBuf numeric (fun _ _ _ => numeric_moved) h hb

/-- A call that reads it moves the cursor, or throws. -/
theorem moved_after {it : Implementation} (h : it.Fixed) (c : Call) : Moved it (it.after c) := by
  cases c with
  | nextByte =>
    rw [after]
    split
    · next r hr => exact moved_nextByte h hr
    · exact .refl h
  | nextBuf buf bufOff =>
    rw [after]
    split
    · next r hr => exact moved_nextBuf h hr
    · exact .refl h

theorem moved_toArray {it it' : Implementation} {bs : Bytes} (h : it.Fixed) (hr : it.toArray = .ok (bs, it')) : Moved it it' := by
  cases it with
  | field it =>
    cases it with
    | byteArray it =>
      obtain ⟨r, hfield, heq⟩ := map_inv hr
      obtain ⟨r', harray, rfl⟩ := map_inv hfield
      cases heq
      rw [ByteArrayByteIterator.toArray] at harray
      split_ifs at harray
      cases harray
      exact .byteArray it it.len
    | string it =>
      obtain ⟨r, hfield, heq⟩ := map_inv hr
      obtain ⟨r', harray, rfl⟩ := map_inv hfield
      cases heq
      rw [StringByteIterator.toArray] at harray
      split_ifs at harray
      cases harray
      exact .string it it.str.length
    | random it => exact h.elim
  | numeric it =>
    obtain ⟨r, hbase, heq⟩ := map_inv hr
    cases heq
    exact moved_base_toArray numeric (fun _ _ _ => numeric_moved) h hbase

theorem moved_decode {it : ByteIterator} {r : Utf16 × ByteIterator} (h : (field it).Fixed) (hr : it.decodeToString = .ok r) :
    Moved (field it) (field r.2) := by
  obtain ⟨r', harray, rfl⟩ := map_inv hr
  have htoArray : (field it).toArray = .ok (r'.1, field r'.2) := by
    rw [toArray, harray]
    rfl
  exact moved_toArray h htoArray

theorem moved_toString {it it' : Implementation} {s : Utf16} (h : it.Fixed) (hr : it.toString = .ok (s, it')) : Moved it it' := by
  cases it with
  | field it =>
    obtain ⟨r, hfield, heq⟩ := map_inv hr
    cases heq
    cases it with
    | byteArray it => exact moved_decode h hfield
    | string it =>
      rw [ByteIterator.toString] at hfield
      split_ifs at hfield
      · exact moved_decode h hfield
      · cases hfield
        exact .refl h
    | random it => exact h.elim
  | numeric it =>
    obtain ⟨r, hbase, heq⟩ := map_inv hr
    obtain ⟨r', harray, rfl⟩ := map_inv hbase
    cases heq
    exact moved_base_toArray numeric (fun _ _ _ => numeric_moved) h harray

/-- **What has been read of it** does not matter to an iterator that is reset. -/
theorem reset_of_read {it it' : Implementation} (h : it.Fixed) (hread : it.Read it') : it'.reset = it.reset := by
  have hmoved : Moved it it' := by
    induction hread with
    | refl => exact .refl h
    | call _ c ih => exact ih.trans (moved_after ih.fixed c)
    | toArray _ hr ih => exact ih.trans (moved_toArray ih.fixed hr)
    | toString _ hr ih => exact ih.trans (moved_toString ih.fixed hr)
  exact hmoved.reset

end Implementation

/-! ### The hash code -/

namespace BasicDB

/-- The values of an operation. -/
abbrev Values := AList fun _ : Utf16 => Implementation

/-- `Collections.sort(sorted)`. -/
def sortFields (fields : List Utf16) : List Utf16 := fields.mergeSort fun a b => a ≤ b

/-- `hash(table, key, fields)`. -/
def hash (table key : Utf16) : Option (List Utf16) → ℤ
  | none => hashCode (table ++ key)
  | some fields => hashCode (table ++ key ++ (sortFields fields).flatten)

/-- The entries of a map, in the order of a `TreeMap` of them. -/
def sorted (values : Values) : SortedMap Utf16 Implementation :=
  values.entries.foldl (fun m e => m.put e.1 e.2) .empty

/-- What the loop over the entries appends, and the entries after it. -/
def appendLoop : List (Utf16 × Implementation) → Except Throwable (Utf16 × List (Utf16 × Implementation))
  | [] => .ok ([], [])
  | (field, it) :: entries => do
    let (s, it) ← it.reset.toString
    let (buf, entries) ← appendLoop entries
    .ok (field ++ s ++ buf, (field, it) :: entries)

/-- `hash(table, key, values)`, and the entries after it. -/
def hashValues (table key : Utf16) : Option Values → Except Throwable (ℤ × List (Utf16 × Implementation))
  | none => .ok (hashCode (table ++ key), [])
  | some values => do
    let (buf, entries) ← appendLoop (sorted values).entries
    .ok (hashCode (table ++ key ++ buf), entries)

/-- A call of the database. -/
inductive Operation where
  /-- `read(table, key, fields, result)`. -/
  | read (table key : Utf16) (fields : Option (List Utf16))
  /-- `scan(table, startkey, recordcount, fields, result)`. -/
  | scan (table startkey : Utf16) (recordcount : ℤ) (fields : Option (List Utf16))
  /-- `update(table, key, values)`. -/
  | update (table key : Utf16) (values : Option Values)
  /-- `insert(table, key, values)`. -/
  | insert (table key : Utf16) (values : Option Values)
  /-- `delete(table, key)`. -/
  | delete (table key : Utf16)

/-- The hash code that is counted, or what making it throws. -/
def Operation.hash : Operation → Except Throwable ℤ
  | .read table key fields => .ok (BasicDB.hash table key fields)
  | .scan table startkey _ fields => .ok (BasicDB.hash table startkey fields)
  | .update table key values | .insert table key values => (hashValues table key values).map Prod.fst
  | .delete table key => .ok (hashCode (table ++ key))

/-! ### Operations that are the same -/

/-- Two iterators over one value, of which more or less has been read. -/
def SameValue (it it' : Implementation) : Prop := ∃ origin : Implementation, origin.Fixed ∧ origin.Read it ∧ origin.Read it'

/-- The same fields, in any order. -/
def SameFields : Option (List Utf16) → Option (List Utf16) → Prop := Option.Rel List.Perm

/-- The same values of the same fields. -/
def SameValues : Option Values → Option Values → Prop :=
  Option.Rel fun values values' => ∀ field, Option.Rel SameValue (values.lookup field) (values'.lookup field)

/-- The same call. A scan is the same whatever its length. -/
inductive Operation.Same : Operation → Operation → Prop where
  /-- Of `read`. -/
  | read {table key : Utf16} {fields fields' : Option (List Utf16)} (h : SameFields fields fields') : Same (.read table key fields) (.read table key fields')
  /-- Of `scan`. -/
  | scan {table startkey : Utf16} {recordcount recordcount' : ℤ} {fields fields' : Option (List Utf16)} (h : SameFields fields fields') :
      Same (.scan table startkey recordcount fields) (.scan table startkey recordcount' fields')
  /-- Of `update`. -/
  | update {table key : Utf16} {values values' : Option Values} (h : SameValues values values') : Same (.update table key values) (.update table key values')
  /-- Of `insert`. -/
  | insert {table key : Utf16} {values values' : Option Values} (h : SameValues values values') : Same (.insert table key values) (.insert table key values')
  /-- Of `delete`. -/
  | delete {table key : Utf16} : Same (.delete table key) (.delete table key)

theorem SameValue.reset {it it' : Implementation} (h : SameValue it it') : it.reset = it'.reset := by
  obtain ⟨origin, hfixed, hread, hread'⟩ := h
  rw [Implementation.reset_of_read hfixed hread, Implementation.reset_of_read hfixed hread']

theorem sortFields_perm {fields fields' : List Utf16} (h : fields.Perm fields') : sortFields fields = sortFields fields' := by
  have hperm : (sortFields fields).Perm (sortFields fields') :=
    (List.mergeSort_perm fields _).trans (h.trans (List.mergeSort_perm fields' _).symm)
  exact hperm.eq_of_pairwise' (List.pairwise_mergeSort' (· ≤ ·) fields) (List.pairwise_mergeSort' (· ≤ ·) fields')

/-- Entries of different keys can be looked up in the map they are put into. -/
theorem get_foldl_put {entries : List ((_ : Utf16) × Implementation)} (hnodup : entries.NodupKeys) (m : SortedMap Utf16 Implementation) (field : Utf16) :
    (entries.foldl (fun m e => m.put e.1 e.2) m).get field = (entries.dlookup field).or (m.get field) := by
  induction entries generalizing m with
  | nil => rfl
  | cons e entries ih =>
    obtain ⟨hnot, hrest⟩ := List.nodupKeys_cons.mp hnodup
    rw [List.foldl_cons, ih hrest, SortedMap.get_put]
    by_cases hfield : field = e.1
    · subst hfield
      rw [if_pos rfl, List.dlookup_cons_eq, List.dlookup_eq_none.mpr hnot]
      rfl
    · rw [if_neg hfield, List.dlookup_cons_ne entries e hfield]

theorem get_sorted (values : Values) (field : Utf16) : (sorted values).get field = values.lookup field := by
  rw [sorted, get_foldl_put values.nodupKeys, SortedMap.get_empty, Option.or_none]
  rfl

/-- What is done with the entries does not change what is done with the text. -/
theorem map_fst_bind {α : Type} (x : Except Throwable (Utf16 × List (Utf16 × Implementation))) (text : Utf16 → α)
    (rest : List (Utf16 × Implementation) → List (Utf16 × Implementation)) :
    (do let (buf, entries) ← x; .ok (text buf, rest entries) : Except Throwable (α × List (Utf16 × Implementation))).map Prod.fst =
      (x.map Prod.fst).map text := by
  cases x <;> rfl

/-- What is appended is of the values that are reset. -/
theorem appendLoop_congr {entries entries' : List (Utf16 × Implementation)}
    (h : entries.map (fun e => (e.1, e.2.reset)) = entries'.map fun e => (e.1, e.2.reset)) :
    (appendLoop entries).map Prod.fst = (appendLoop entries').map Prod.fst := by
  induction entries generalizing entries' with
  | nil =>
    obtain rfl := List.map_eq_nil_iff.mp h.symm
    rfl
  | cons e entries ih =>
    cases entries' with
    | nil => cases h
    | cons e' entries' =>
      obtain ⟨hhead, hrest⟩ := List.cons.inj h
      obtain ⟨hfield, hreset⟩ := Prod.mk.inj hhead
      have hloop := ih hrest
      rw [appendLoop, appendLoop, hfield, hreset]
      cases e'.2.reset.toString with
      | error x => rfl
      | ok r =>
        rw [bind_ok rfl, bind_ok rfl]
        have htext := fun x => map_fst_bind x (fun buf => e'.1 ++ r.1 ++ buf) fun entries => (e'.1, r.2) :: entries
        exact (htext _).trans ((congrArg _ hloop).trans (htext _).symm)

theorem hash_perm {table key : Utf16} {fields fields' : Option (List Utf16)} (h : SameFields fields fields') :
    BasicDB.hash table key fields = BasicDB.hash table key fields' := by
  cases h with
  | none => rfl
  | some h => rw [BasicDB.hash, BasicDB.hash, sortFields_perm h]

theorem hashValues_same {table key : Utf16} {values values' : Option Values} (h : SameValues values values') :
    (hashValues table key values).map Prod.fst = (hashValues table key values').map Prod.fst := by
  cases h with
  | none => rfl
  | @some values values' h =>
    have hmaps : (sorted values).map Implementation.reset = (sorted values').map Implementation.reset := by
      refine SortedMap.ext_get fun field => ?_
      rw [SortedMap.get_map, SortedMap.get_map, get_sorted, get_sorted]
      have hfield := h field
      generalize values.lookup field = it, values'.lookup field = it' at hfield ⊢
      cases hfield with
      | none => rfl
      | some hvalue => exact congrArg some hvalue.reset
    have hloop := appendLoop_congr (congrArg SortedMap.entries hmaps)
    have hhash : ∀ values : Values, (hashValues table key (some values)).map Prod.fst =
        ((appendLoop (sorted values).entries).map Prod.fst).map fun buf => hashCode (table ++ key ++ buf) :=
      fun values => map_fst_bind _ (fun buf => hashCode (table ++ key ++ buf)) id
    rw [hhash, hhash, hloop]

/-- **Operations that are the same** have the same hash code. -/
theorem hash_same {op op' : Operation} (h : op.Same op') : op.hash = op'.hash := by
  cases h with
  | read h => exact congrArg Except.ok (hash_perm h)
  | scan h => exact congrArg Except.ok (hash_perm h)
  | update h => exact hashValues_same h
  | insert h => exact hashValues_same h
  | delete => rfl

end BasicDB

end YcsbIvs.Core
