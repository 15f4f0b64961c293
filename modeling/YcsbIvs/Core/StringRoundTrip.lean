import YcsbIvs.Core.Consumption

/-!
# What comes back of a string

`StringByteIterator` gives a byte for each UTF-16 code unit of its string, the low eight bits. Who reads these bytes as a string
reads them as UTF-8: the `toString` of the base class, which is also that of a `StringByteIterator` that has been read from, and that of
a `ByteArrayByteIterator` over bytes that come from a database.

As many code units as bytes come back only if each byte is read by itself, as a character below `U+0080` or as a malformed one. So **the
rest of a string comes back just when each of its code units is below `U+0080`, or is `U+FFFD`**, whose byte is malformed
wherever it is (`comesBack_iff`).
-/

namespace YcsbIvs.Core

open YcsbIvs.Foundations
open Implementation

/-! ### Bytes of code units -/

/-- A code unit that comes back from its low byte. -/
def IsPlain (c : UInt16) : Prop := c.toNat < 0x80 ∨ c = replacement

instance (c : UInt16) : Decidable (IsPlain c) := inferInstanceAs (Decidable (_ ∨ _))

theorem toNat_toByte {c : UInt16} (h : c.toNat < 0x80) : (toByte c).toNat = c.toNat := by
  rw [toByte, UInt8.toNat_ofNat']
  omega

/-- The byte of a plain code unit is read by itself. -/
theorem decode_toByte_cons {c : UInt16} (h : IsPlain c) (rest : Bytes) : decode (toByte c :: rest) = c :: decode rest := by
  rcases h with hlt | rfl
  · have hbyte := toNat_toByte hlt
    rw [decode_cons, decodeOne, if_pos (by omega), hbyte, UInt16.ofNat_toNat]
    rfl
  · rw [decode_cons]
    rfl

/-- A code unit that comes back from the first byte is plain, and the other bytes are read by themselves. -/
theorem plain_of_decode {c : UInt16} {s : Utf16} (h : decode (toBytes (c :: s)) = c :: s) : IsPlain c ∧ decode (toBytes s) = s := by
  rw [toBytes, List.map_cons, decode_cons] at h
  rcases decodeOne_cases (toByte c) (s.map toByte) with ⟨hlt, hone⟩ | ⟨-, hone | ⟨hle, htake⟩⟩
  · rw [hone, List.singleton_append, List.drop_zero, List.cons.injEq] at h
    refine ⟨.inl ?_, h.2⟩
    rw [← h.1, UInt16.toNat_ofNat']
    omega
  · rw [hone, List.singleton_append, List.drop_zero, List.cons.injEq] at h
    exact ⟨.inr h.1.symm, h.2⟩
  · -- A character of several bytes has fewer code units, and no more come of the others.
    have hrest := length_decode_le ((s.map toByte).drop (decodeOne (toByte c) (s.map toByte)).2)
    have hlen := congrArg List.length h
    rw [List.length_append, List.length_cons] at hlen
    rw [List.length_drop] at hrest
    rw [List.length_map] at hrest htake
    omega

/-- **A string comes back from its low bytes just when it is plain.** -/
theorem decode_toBytes_iff (s : Utf16) : decode (toBytes s) = s ↔ ∀ c ∈ s, IsPlain c := by
  induction s with
  | nil => simp [toBytes]
  | cons c s ih =>
    rw [List.forall_mem_cons, ← ih]
    constructor
    · exact plain_of_decode
    · rintro ⟨hc, hs⟩
      rw [toBytes, List.map_cons, decode_toByte_cons hc]
      exact congrArg (c :: ·) hs

/-! ### A string that has been read from -/

/-- A new iterator over the string, after these calls. -/
def readFrom (s : Utf16) (calls : List Call) : Implementation := calls.foldl after (field (.string (.ofString s)))

/-- How many characters the calls have consumed: where the cursor is. -/
def consumed (s : Utf16) (calls : List Call) : ℕ :=
  match readFrom s calls with
  | field (.string it) => it.off
  | _ => 0

/-- The iterator is over the string, and its cursor is not past the end. -/
def OnString (s : Utf16) (it : StringByteIterator) : Prop := it.str = s ∧ it.off ≤ s.length

theorem OnString.nextByte {s : Utf16} {it it' : StringByteIterator} {b : UInt8} (h : OnString s it) (hb : it.nextByte = .ok (b, it')) :
    OnString s it' := by
  obtain ⟨rfl, -⟩ := h
  rw [StringByteIterator.nextByte] at hb
  split at hb
  · next hget =>
    cases hb
    exact ⟨rfl, (List.getElem?_eq_some_iff.mp hget).1⟩
  · cases hb

theorem OnString.after {s : Utf16} {it : StringByteIterator} (h : OnString s it) (call : Call) :
    ∃ it', (field (.string it)).after call = field (.string it') ∧ OnString s it' := by
  cases call with
  | nextByte =>
    simp only [Implementation.after]
    split
    · next r hr =>
      obtain ⟨o, ho, rfl⟩ := map_inv hr
      exact ⟨o.2, rfl, h.nextByte ho⟩
    · exact ⟨it, rfl, h⟩
  | nextBuf buf bufOff =>
    simp only [Implementation.after]
    split
    · next r hr =>
      obtain ⟨o, ho, rfl⟩ := map_inv hr
      exact ⟨o.2.2, rfl, Base.nextBufLoop_invariant (I := OnString s) (fun _ _ _ h _ hb => h.nextByte hb) h ho⟩
    · exact ⟨it, rfl, h⟩

theorem OnString.foldl {s : Utf16} {it : StringByteIterator} (h : OnString s it) (calls : List Call) :
    ∃ it', calls.foldl Implementation.after (field (.string it)) = field (.string it') ∧ OnString s it' := by
  induction calls generalizing it with
  | nil => exact ⟨it, rfl, h⟩
  | cons call calls ih =>
    obtain ⟨it', heq, h'⟩ := h.after call
    rw [List.foldl_cons, heq]
    exact ih h'

/-- The iterator after the calls: the cursor stands at what has been consumed. -/
theorem readFrom_eq (s : Utf16) (calls : List Call) :
    readFrom s calls = field (.string ⟨s, consumed s calls⟩) ∧ consumed s calls ≤ s.length := by
  have hnew : OnString s (.ofString s) := ⟨rfl, Nat.zero_le _⟩
  obtain ⟨⟨str, off⟩, heq, rfl, hle⟩ := hnew.foldl calls
  have hread : readFrom str calls = field (.string ⟨str, off⟩) := heq
  have hoff : consumed str calls = off := by simp only [consumed, hread]
  rw [hoff]
  exact ⟨hread, hle⟩

/-- Every number of characters can have been consumed. -/
theorem consumed_replicate {s : Utf16} {n : ℕ} (hn : n ≤ s.length) : consumed s (List.replicate n .nextByte) = n := by
  suffices h : readFrom s (List.replicate n .nextByte) = field (.string ⟨s, n⟩) by simp only [consumed, h]
  induction n with
  | zero => rfl
  | succ n ih =>
    rw [List.replicate_succ', readFrom, List.foldl_append, ← readFrom, ih (by omega)]
    simp only [List.foldl_cons, List.foldl_nil, Implementation.after, Implementation.nextByte, StringByteIterator.nextByte,
      List.getElem?_eq_getElem (show n < s.length by omega)]
    rfl

/-! ### Round trips -/

/-- What is left after the calls comes back: from the bytes of `toArray`, read as UTF-8, and as what `toString` gives. -/
structure ComesBack (s : Utf16) (calls : List Call) : Prop where
  /-- `toArray()`. -/
  toArray : ∃ bs it, (readFrom s calls).toArray = .ok (bs, it) ∧ decode bs = s.drop (consumed s calls)
  /-- `toString()`. -/
  toString : ∃ it, (readFrom s calls).toString = .ok (s.drop (consumed s calls), it)

/-- What `toArray` gives. -/
theorem toArray_readFrom (s : Utf16) (calls : List Call) :
    (readFrom s calls).toArray = .ok (toBytes (s.drop (consumed s calls)), field (.string ⟨s, s.length⟩)) := by
  obtain ⟨heq, hle⟩ := readFrom_eq s calls
  have hholds : StringByteIterator.Holds ⟨s, consumed s calls⟩ (toBytes (s.drop (consumed s calls))) := ⟨hle, rfl⟩
  have harray := StringByteIterator.toArray_of_holds hholds
  rw [heq, Implementation.toArray, ByteIterator.toArray, harray]
  rfl

/-- What `toString` gives: what is left, or its bytes read as UTF-8. -/
theorem toString_readFrom (s : Utf16) (calls : List Call) :
    ∃ it, (readFrom s calls).toString =
      .ok (if 0 < consumed s calls then decode (toBytes (s.drop (consumed s calls))) else s.drop (consumed s calls), it) := by
  obtain ⟨heq, hle⟩ := readFrom_eq s calls
  rw [heq]
  by_cases hpos : 0 < consumed s calls
  · have hholds : StringByteIterator.Holds ⟨s, consumed s calls⟩ (toBytes (s.drop (consumed s calls))) := ⟨hle, rfl⟩
    have harray := StringByteIterator.toArray_of_holds hholds
    refine ⟨field (.string ⟨s, s.length⟩), ?_⟩
    rw [if_pos hpos, Implementation.toString, ByteIterator.toString, if_pos hpos, ByteIterator.decodeToString, ByteIterator.toArray, harray]
    rfl
  · have hzero : consumed s calls = 0 := by omega
    refine ⟨field (.string ⟨s, 0⟩), ?_⟩
    rw [hzero, if_neg (lt_irrefl 0), Implementation.toString, ByteIterator.toString, if_neg (lt_irrefl 0)]
    rfl

/-- **What is left of a string comes back just when it is plain.** -/
theorem comesBack_iff (s : Utf16) (calls : List Call) : ComesBack s calls ↔ ∀ c ∈ s.drop (consumed s calls), IsPlain c := by
  rw [← decode_toBytes_iff]
  constructor
  · rintro ⟨⟨bs, it, harray, hdecode⟩, -⟩
    rw [toArray_readFrom, Except.ok.injEq, Prod.mk.injEq] at harray
    rw [harray.1]
    exact hdecode
  · intro hback
    refine ⟨⟨_, _, toArray_readFrom s calls, hback⟩, ?_⟩
    obtain ⟨it, hstring⟩ := toString_readFrom s calls
    rw [hback, ite_self] at hstring
    exact ⟨it, hstring⟩

/-- **Not every string comes back**: of `é` the byte `E9` is kept, which is read as `U+FFFD`. After a byte has been read of `aé`, its
`toString` has lost the rest too. -/
theorem not_comesBack : (∃ it, (readFrom [0x61, 0xE9] [.nextByte]).toString = .ok ([0xFFFD], it)) ∧ ¬ ComesBack [0xE9] [] ∧
    ¬ ∀ (s : Utf16) (calls : List Call), ComesBack s calls := by
  have hnot : ¬ ComesBack [0xE9] [] := by
    rintro ⟨⟨bs, it, harray, hdecode⟩, -⟩
    cases harray
    revert hdecode
    decide
  exact ⟨⟨_, rfl⟩, hnot, fun h => hnot (h [0xE9] [])⟩

/-- A value that has been stored as the bytes of a string is read as that string just when the string is plain. -/
theorem toString_stored_iff {s : Utf16} (h : s.length < 2 ^ 31) :
    (∃ it, (ByteIterator.byteArray (.ofArray (toBytes s))).toString = .ok (s, it)) ↔ ∀ c ∈ s, IsPlain c := by
  have hholds := ByteArrayByteIterator.holds_ofArray (s := toBytes s) (by rwa [length_toBytes])
  rw [ByteIterator.toString_byteArray hholds, ← decode_toBytes_iff]
  simp

end YcsbIvs.Core
