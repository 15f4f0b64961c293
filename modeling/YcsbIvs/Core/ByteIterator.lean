import YcsbIvs.Foundations.Utf
import YcsbIvs.Foundations.Words
import Mathlib.Data.Nat.Basic
import Mathlib.Tactic.SplitIfs

/-!
# Byte iterators

Field values travel through YCSB as `ByteIterator`s: a cursor over a byte array, a
string or random bytes. An iterator is used up by reading it, so what a second
reader gets depends on what the first one did. `toArray` and `toString` give what
is left, and the iterator after it; both can throw.

- `ByteArrayByteIterator`: a slice of an array. `toString` is the base class's: it
  decodes what `toArray` gives, so it uses the iterator up.
- `StringByteIterator`: `toArray` gives one byte for each UTF-16 code unit, its low
  eight bits. `toString` of an unused iterator is the string itself, and leaves the
  iterator as it is.
- `RandomByteIterator`: `len` random bytes, filled in six at a time.

`Holds it bs` says that `it` is in order and has `bs` left: then `toArray` gives
`bs`, and the iterator it leaves holds nothing (`toArray_of_holds`).
-/

namespace YcsbIvs.Core

open YcsbIvs.Foundations

/-- What an operation can throw. -/
inductive Throwable where
  /-- `NullPointerException`. -/
  | nullPointer
  /-- `ArrayIndexOutOfBoundsException` and `IndexOutOfBoundsException`. -/
  | arrayIndexOutOfBounds
  /-- `StringIndexOutOfBoundsException`. -/
  | stringIndexOutOfBounds
  /-- `NegativeArraySizeException`. -/
  | negativeArraySize
  /-- `IllegalArgumentException`. -/
  | illegalArgument
  /-- `OutOfMemoryError`: a string or an array would be longer than `2³¹ – 1`. -/
  | outOfMemory
  /-- No exception: a loop that does not end. -/
  | nonTermination
  deriving DecidableEq, Repr

/-- `(byte) c`: the low eight bits of a code unit. -/
def toByte (c : UInt16) : UInt8 := UInt8.ofNat c.toNat

/-- `(byte) c` of each code unit of a string. -/
def toBytes (s : Utf16) : Bytes := s.map toByte

@[simp] theorem length_toBytes (s : Utf16) : (toBytes s).length = s.length := List.length_map _

@[simp] theorem toBytes_append (s t : Utf16) : toBytes (s ++ t) = toBytes s ++ toBytes t := List.map_append

/-- Bytes below `0x80` come back from a decode and a cast. -/
theorem toBytes_decode {bs : Bytes} (h : IsAscii bs) : toBytes (decode bs) = bs := by
  rw [decode_ascii h, toBytes, List.map_map]
  conv_rhs => rw [← List.map_id bs]
  refine List.map_congr_left fun b hb => ?_
  have := h b hb
  simp only [Function.comp, toByte, UInt16.toNat_ofNat', id]
  rw [Nat.mod_eq_of_lt (by omega), UInt8.ofNat_toNat]

/-! ### The iterators -/

/-- A cursor over a slice of a byte array. -/
structure ByteArrayByteIterator where
  /-- Where the slice starts. -/
  originalOffset : ℤ
  /-- The array. -/
  str : Bytes
  /-- The cursor. -/
  off : ℤ
  /-- Where the slice ends. -/
  len : ℤ

/-- A cursor over a string. -/
structure StringByteIterator where
  /-- The string. -/
  str : Utf16
  /-- The cursor. -/
  off : ℕ

/-- A cursor over `len` random bytes. -/
structure RandomByteIterator where
  /-- How many bytes there are. -/
  len : ℤ
  /-- The cursor, less `bufOff`. -/
  off : ℤ
  /-- How much of `buf` has been handed out. -/
  bufOff : ℤ
  /-- The six bytes `nextByte` hands out. -/
  buf : Bytes
  /-- What `ThreadLocalRandom.current().nextInt()` will return to this iterator. -/
  draws : ℕ → UInt32

namespace ByteArrayByteIterator

/-- `new ByteArrayByteIterator(s)`. -/
def ofArray (s : Bytes) : ByteArrayByteIterator := ⟨0, s, 0, s.length⟩

/-- `new ByteArrayByteIterator(s, off, len)`. -/
def ofSlice (s : Bytes) (off len : ℤ) : ByteArrayByteIterator := ⟨off, s, off, asInt (off + len)⟩

/-- `bytesLeft()`. -/
def bytesLeft (it : ByteArrayByteIterator) : ℤ := asInt (it.len - it.off)

/-- `toArray()`. -/
def toArray (it : ByteArrayByteIterator) : Except Throwable (Bytes × ByteArrayByteIterator) :=
  let size := it.bytesLeft
  if size < 0 then .error .negativeArraySize
  else if it.off < 0 ∨ it.str.length < it.off + size then .error .arrayIndexOutOfBounds
  else .ok ((it.str.drop it.off.toNat).take size.toNat, { it with off := it.len })

/-- The slice from the cursor on lies in the array and is `bs`. -/
def Holds (it : ByteArrayByteIterator) (bs : Bytes) : Prop :=
  ∃ pre post, it.str = pre ++ bs ++ post ∧ it.str.length < 2 ^ 31 ∧ it.off = pre.length ∧
    it.len = pre.length + bs.length

theorem toArray_of_holds {it : ByteArrayByteIterator} {bs : Bytes} (h : it.Holds bs) :
    it.toArray = .ok (bs, { it with off := it.len }) := by
  obtain ⟨pre, post, hstr, hlen, hoff, hend⟩ := h
  have hsum : it.str.length = pre.length + bs.length + post.length := by
    rw [hstr, List.length_append, List.length_append]
  have hleft : it.bytesLeft = bs.length := by
    rw [bytesLeft, hend, hoff, asInt_of_fits (by unfold FitsInt; omega)]
    omega
  rw [toArray, hleft, if_neg (by omega), if_neg (by omega), hoff, hstr]
  simp

theorem holds_drained {it : ByteArrayByteIterator} {bs : Bytes} (h : it.Holds bs) :
    ({ it with off := it.len } : ByteArrayByteIterator).Holds [] := by
  obtain ⟨pre, post, hstr, hlen, -, hend⟩ := h
  exact ⟨pre ++ bs, post, by simp [hstr], hlen, by simp [hend], by simp [hend]⟩

/-- A new iterator over an array holds it. -/
theorem holds_ofArray {s : Bytes} (h : s.length < 2 ^ 31) : (ofArray s).Holds s := ⟨[], [], by simp [ofArray], h, rfl, by simp [ofArray]⟩

end ByteArrayByteIterator

namespace StringByteIterator

/-- `new StringByteIterator(s)`. -/
def ofString (s : Utf16) : StringByteIterator := ⟨s, 0⟩

/-- `bytesLeft()`. -/
def bytesLeft (it : StringByteIterator) : ℤ := it.str.length - it.off

/-- `toArray()`. -/
def toArray (it : StringByteIterator) : Except Throwable (Bytes × StringByteIterator) :=
  if it.bytesLeft < 0 then .error .negativeArraySize
  else .ok (toBytes (it.str.drop it.off), { it with off := it.str.length })

/-- The cursor is in the string, and the bytes of what follows it are `bs`. -/
def Holds (it : StringByteIterator) (bs : Bytes) : Prop :=
  it.off ≤ it.str.length ∧ toBytes (it.str.drop it.off) = bs

theorem toArray_of_holds {it : StringByteIterator} {bs : Bytes} (h : it.Holds bs) :
    it.toArray = .ok (bs, { it with off := it.str.length }) := by
  obtain ⟨hoff, rfl⟩ := h
  rw [toArray, bytesLeft, if_neg (by omega)]

theorem holds_drained (it : StringByteIterator) :
    ({ it with off := it.str.length } : StringByteIterator).Holds [] := by
  simp [Holds, toBytes]

theorem holds_ofString (s : Utf16) : (ofString s).Holds (toBytes s) := ⟨Nat.zero_le _, rfl⟩

end StringByteIterator

namespace RandomByteIterator

/-- The six bytes made of one draw: five bits of it at a time, some of them masked
out, from the space character on. (`>>` keeps the sign, but no mask reaches the bits it
fills in.) -/
def drawBytes (bytes : UInt32) : Bytes :=
  [(bytes &&& 31).toUInt8 + 32, ((bytes >>> 5) &&& 63).toUInt8 + 32, ((bytes >>> 10) &&& 95).toUInt8 + 32,
    ((bytes >>> 15) &&& 31).toUInt8 + 32, ((bytes >>> 20) &&& 63).toUInt8 + 32,
    ((bytes >>> 25) &&& 95).toUInt8 + 32]

/-- `fillBytesImpl(buffer, base)`: write the bytes of a draw from `base` on, as many as
the buffer has room for. -/
def fillBytesImpl (bytes : UInt32) (buffer : Bytes) (base : ℕ) : Bytes :=
  let n := min 6 (buffer.length - base)
  buffer.take base ++ (drawBytes bytes).take n ++ buffer.drop (base + n)

/-- `new RandomByteIterator(len)`. -/
def ofLength (len : ℤ) (draws : ℕ → UInt32) : RandomByteIterator :=
  ⟨len, 0, 0, fillBytesImpl (draws 0) (List.replicate 6 0) 0, fun i => draws (i + 1)⟩

/-- `bytesLeft()`. -/
def bytesLeft (it : RandomByteIterator) : ℤ := it.len - it.off - it.bufOff

/-- The loop of `nextBuf`: one draw every six bytes. -/
def fillLoop (draws : ℕ → UInt32) : ℕ → Bytes → ℕ → Bytes
  | 0, buffer, _ => buffer
  | n + 1, buffer, base => fillLoop (fun i => draws (i + 1)) n (fillBytesImpl (draws 0) buffer base) (base + 6)

/-- `nextBuf(buffer, bufOffset)`: the new offset, the buffer and the iterator after it. -/
def nextBuf (it : RandomByteIterator) (buffer : Bytes) (bufOffset : ℕ) : ℤ × Bytes × RandomByteIterator :=
  let room : ℤ := buffer.length - bufOffset
  let ret := if it.len - it.off < room then asInt (it.len - it.off) else room
  let n := (ret.toNat + 5) / 6
  (ret + bufOffset, fillLoop it.draws n buffer bufOffset,
    { it with off := it.off + ret, draws := fun i => it.draws (i + n) })

/-- The loop of `toArray`: fill the rest of `ret`, at most `fuel` times. -/
def toArrayLoop : ℕ → Bytes → ℕ → RandomByteIterator → Except Throwable (Bytes × RandomByteIterator)
  | 0, _, _, _ => .error .nonTermination
  | fuel + 1, ret, bufOffset, it =>
    if bufOffset < ret.length then
      let (off, ret, it) := it.nextBuf ret bufOffset
      toArrayLoop fuel ret off.toNat it
    else .ok (ret, it)

/-- `toArray()`. The loop goes round at most once, as `nextBuf` fills the array. -/
def toArray (it : RandomByteIterator) : Except Throwable (Bytes × RandomByteIterator) :=
  let left := it.bytesLeft
  if left ≠ asInt left then .error .arrayIndexOutOfBounds
  else if left < 0 then .error .negativeArraySize
  else toArrayLoop 2 (List.replicate left.toNat 0) 0 it

theorem length_fillBytesImpl (bytes : UInt32) (buffer : Bytes) (base : ℕ) :
    (fillBytesImpl bytes buffer base).length = buffer.length := by
  simp only [fillBytesImpl, drawBytes, List.length_append, List.length_take, List.length_drop, List.length_cons,
    List.length_nil]
  omega

theorem length_fillLoop (draws : ℕ → UInt32) (n : ℕ) (buffer : Bytes) (base : ℕ) :
    (fillLoop draws n buffer base).length = buffer.length := by
  induction n generalizing draws buffer base with
  | zero => rfl
  | succ n ih => rw [fillLoop, ih, length_fillBytesImpl]

/-- The iterator is not past its end, and what is left fits an array. -/
def InOrder (it : RandomByteIterator) : Prop := 0 ≤ it.bufOff ∧ 0 ≤ it.bytesLeft ∧ it.bytesLeft < 2 ^ 31

/-- `toArray` gives as many bytes as are left, and leaves none. -/
theorem toArray_of_inOrder {it : RandomByteIterator} (h : it.InOrder) :
    ∃ bs it', it.toArray = .ok (bs, it') ∧ (bs.length : ℤ) = it.bytesLeft ∧ it'.InOrder ∧ it'.bytesLeft = 0 := by
  obtain ⟨hbuf, hleft, hlt⟩ := h
  generalize hn : it.bytesLeft.toNat = n
  have hlen : it.bytesLeft = n := by omega
  rw [toArray, if_neg (not_not.mpr (asInt_of_fits ⟨by omega, hlt⟩).symm), if_neg (by omega), hn]
  by_cases h0 : n = 0
  · refine ⟨[], it, ?_, by rw [hlen, h0]; rfl, ⟨hbuf, hleft, hlt⟩, by omega⟩
    subst h0
    rfl
  · have hroom : ¬ it.len - it.off < ((List.replicate n (0 : UInt8)).length : ℤ) - ((0 : ℕ) : ℤ) := by
      rw [bytesLeft] at hlen
      rw [List.length_replicate]
      omega
    refine ⟨fillLoop it.draws ((n + 5) / 6) (List.replicate n 0) 0,
      { it with off := it.off + n, draws := fun i => it.draws (i + (n + 5) / 6) }, ?_, ?_, ?_, ?_⟩
    · rw [toArrayLoop, List.length_replicate, if_pos (by omega), nextBuf]
      dsimp only
      rw [if_neg hroom, toArrayLoop, length_fillLoop, List.length_replicate, if_neg (by omega)]
      simp
    · rw [length_fillLoop, List.length_replicate, hlen]
    · simp only [InOrder, bytesLeft] at *
      omega
    · simp only [bytesLeft] at *
      omega

theorem inOrder_ofLength {len : ℤ} (h0 : 0 ≤ len) (hlt : len < 2 ^ 31) (draws : ℕ → UInt32) :
    (ofLength len draws).InOrder := by
  simp only [InOrder, bytesLeft, ofLength]
  omega

/-- Only a length that fits an array can be read. -/
theorem fits_of_toArray {len : ℤ} {draws : ℕ → UInt32} {r : Bytes × RandomByteIterator}
    (h : (ofLength len draws).toArray = .ok r) : 0 ≤ len ∧ len < 2 ^ 31 := by
  have hleft : (ofLength len draws).bytesLeft = len := by simp [bytesLeft, ofLength]
  rw [toArray, hleft] at h
  split_ifs at h with hint hneg
  have hfits : FitsInt len := asInt_eq_self.mp (not_not.mp hint).symm
  exact ⟨not_lt.mp hneg, hfits.2⟩

end RandomByteIterator

/-! ### Any iterator -/

/-- A field's value, in one of the three forms. -/
inductive ByteIterator where
  /-- A slice of a byte array. -/
  | byteArray (it : ByteArrayByteIterator)
  /-- A string. -/
  | string (it : StringByteIterator)
  /-- Random bytes. -/
  | random (it : RandomByteIterator)

namespace ByteIterator

/-- `toArray()`: what is left, and the iterator after it. -/
def toArray : ByteIterator → Except Throwable (Bytes × ByteIterator)
  | byteArray it => it.toArray.map fun r => (r.1, byteArray r.2)
  | string it => it.toArray.map fun r => (r.1, string r.2)
  | random it => it.toArray.map fun r => (r.1, random r.2)

/-- The base class's `toString()`: decode what is left. -/
def decodeToString (it : ByteIterator) : Except Throwable (Utf16 × ByteIterator) :=
  it.toArray.map fun r => (decode r.1, r.2)

/-- `toString()`: what is left as a string, and the iterator after it. -/
def toString : ByteIterator → Except Throwable (Utf16 × ByteIterator)
  | string it => if it.off > 0 then decodeToString (string it) else .ok (it.str, string it)
  | it => decodeToString it

/-- The bytes the iterator would give now, if it can. -/
def contents (it : ByteIterator) : Option Bytes := it.toArray.toOption.map Prod.fst

/-- The iterator after `toArray()`; as it was if that throws. -/
def drain (it : ByteIterator) : ByteIterator :=
  match it.toArray with
  | .ok r => r.2
  | .error _ => it

/-- The iterator is in order and has `bs` left. -/
def Holds : ByteIterator → Bytes → Prop
  | byteArray it, bs => it.Holds bs
  | string it, bs => it.Holds bs
  | random it, bs => it.InOrder ∧ ∃ it', it.toArray = .ok (bs, it')

/-- **What is left is given once**: `toArray` gives it, and the iterator it leaves
holds nothing. -/
theorem toArray_of_holds {it : ByteIterator} {bs : Bytes} (h : it.Holds bs) :
    it.toArray = .ok (bs, it.drain) ∧ it.drain.Holds [] := by
  cases it with
  | byteArray it =>
    simp only [toArray, drain, ByteArrayByteIterator.toArray_of_holds h, Except.map]
    exact ⟨trivial, ByteArrayByteIterator.holds_drained h⟩
  | string it =>
    simp only [toArray, drain, StringByteIterator.toArray_of_holds h, Except.map]
    exact ⟨trivial, StringByteIterator.holds_drained it⟩
  | random it =>
    obtain ⟨hin, it', hit⟩ := h
    obtain ⟨bs', it'', hit', -, hin', hleft⟩ := RandomByteIterator.toArray_of_inOrder hin
    obtain ⟨rfl, rfl⟩ : bs' = bs ∧ it'' = it' := by
      rw [hit] at hit'
      cases hit'
      exact ⟨rfl, rfl⟩
    simp only [toArray, drain, hit, Except.map]
    obtain ⟨bs₀, it₀, h₀, hlen, -, -⟩ := RandomByteIterator.toArray_of_inOrder hin'
    obtain rfl : bs₀ = [] := List.length_eq_zero_iff.mp (by omega)
    exact ⟨trivial, hin', it₀, h₀⟩

theorem contents_of_holds {it : ByteIterator} {bs : Bytes} (h : it.Holds bs) : it.contents = some bs := by
  rw [contents, (toArray_of_holds h).1]
  rfl

theorem contents_byteArray {it : ByteArrayByteIterator} {bs : Bytes} (h : it.Holds bs) :
    (byteArray it).contents = some bs :=
  have hholds : (byteArray it).Holds bs := h
  contents_of_holds hholds

theorem contents_drain_of_holds {it : ByteIterator} {bs : Bytes} (h : it.Holds bs) :
    it.drain.contents = some [] :=
  contents_of_holds (toArray_of_holds h).2

theorem contents_drain_of_none {it : ByteIterator} (h : it.contents = none) : it.drain.contents = it.contents := by
  rw [contents] at h
  cases hr : it.toArray with
  | ok r => simp [hr, Except.toOption] at h
  | error e => rw [drain, hr]

/-- If what an iterator gives can be read once, so can what it gives after it is used up. -/
theorem holds_drain {it : ByteIterator} (hholds : ∀ bs, it.contents = some bs → it.Holds bs) {bs : Bytes}
    (h : it.drain.contents = some bs) : it.drain.Holds bs := by
  cases hbs : it.contents with
  | none =>
    rw [contents] at hbs
    cases hr : it.toArray with
    | ok r => simp [hr, Except.toOption] at hbs
    | error e =>
      rw [drain, hr] at h ⊢
      exact hholds bs h
  | some bs' =>
    have hempty := (toArray_of_holds (hholds bs' hbs)).2
    obtain rfl : [] = bs := Option.some.inj ((contents_of_holds hempty).symm.trans h)
    exact hempty

/-- A string iterator that has not been used gives the string's bytes. -/
theorem holds_ofString (s : Utf16) : (string (.ofString s)).Holds (toBytes s) :=
  StringByteIterator.holds_ofString s

/-- An iterator over `len` random bytes holds `len` bytes. -/
theorem holds_ofLength {len : ℤ} (h0 : 0 ≤ len) (hlt : len < 2 ^ 31) (draws : ℕ → UInt32) :
    ∃ bs, (random (.ofLength len draws)).Holds bs ∧ (bs.length : ℤ) = len := by
  have hin := RandomByteIterator.inOrder_ofLength h0 hlt draws
  obtain ⟨bs, it', hit, hlen, -, -⟩ := RandomByteIterator.toArray_of_inOrder hin
  refine ⟨bs, ⟨hin, it', hit⟩, ?_⟩
  rw [hlen]
  simp [RandomByteIterator.bytesLeft, RandomByteIterator.ofLength]

theorem fits_of_contents {len : ℤ} {draws : ℕ → UInt32} {bs : Bytes}
    (h : (random (.ofLength len draws)).contents = some bs) : 0 ≤ len ∧ len < 2 ^ 31 := by
  rw [contents, toArray] at h
  cases hr : (RandomByteIterator.ofLength len draws).toArray with
  | error e => simp [hr, Except.map, Except.toOption] at h
  | ok r => exact RandomByteIterator.fits_of_toArray hr

/-- `toString` of an array's iterator decodes what is left and uses it up. -/
theorem toString_byteArray {it : ByteArrayByteIterator} {bs : Bytes} (h : it.Holds bs) :
    (byteArray it).toString = .ok (decode bs, (byteArray it).drain) := by
  have hc : (byteArray it).Holds bs := h
  rw [toString, decodeToString, (toArray_of_holds hc).1]
  · rfl
  · intro _ h
    cases h

end ByteIterator

end YcsbIvs.Core
