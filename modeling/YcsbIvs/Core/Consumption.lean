import YcsbIvs.Core.ByteIterator
import YcsbIvs.Foundations.Runs

/-!
# Reading an iterator

The rest of what a `ByteIterator` does: `hasNext`, `nextByte`, `bytesLeft` and `nextBuf`. The base class
has `nextBuf`, `toArray` and `toString` made of the others (`Base`); `ByteArrayByteIterator` and
`StringByteIterator` have its `nextBuf`, `NumericByteIterator` has all three, `RandomByteIterator` only its `toString`.

The base class says that `toString` and `toArray` consume what is left and return it. That is so of an
iterator, whatever has been read of it before, **just when `bytesLeft()` is not negative and fits an array, and it
is not a `StringByteIterator` whose string has not been touched** (`consumes_iff`). The string of such a one is
returned as it is, and left. `bytesLeft()` is negative after a `nextByte` past the end, and after a `nextBuf`
of a `RandomByteIterator` that comes after a `nextByte`: it reads as many bytes as there are from `off` on, but
`bufOff` of them have been read.
-/

namespace YcsbIvs.Core

open YcsbIvs.Foundations

/-! ### The base class -/

/-- The methods that are abstract in the base class. -/
structure Base (σ : Type) where
  /-- `hasNext()`. -/
  hasNext : σ → Bool
  /-- `nextByte()`. -/
  nextByte : σ → Except Throwable (UInt8 × σ)
  /-- `bytesLeft()`. -/
  bytesLeft : σ → ℤ

namespace Base

variable {σ : Type} (B : Base σ)

/-- The loop of `nextBuf`, if the buffer has room for `n` bytes from `sz` on. -/
def nextBufLoop : ℕ → Bytes → ℕ → σ → Except Throwable (ℕ × Bytes × σ)
  | 0, buf, sz, it => .ok (sz, buf, it)
  | n + 1, buf, sz, it =>
    if B.hasNext it then do
      let (b, it) ← B.nextByte it
      nextBufLoop n (buf.set sz b) (sz + 1) it
    else .ok (sz, buf, it)

/-- `nextBuf(buf, bufOff)`: the offset after the last byte, the buffer, and the iterator after it. -/
def nextBuf (it : σ) (buf : Bytes) (bufOff : ℕ) : Except Throwable (ℕ × Bytes × σ) :=
  B.nextBufLoop (buf.length - bufOff) buf bufOff it

/-- The loop of `toArray`, with `n` bytes to go. -/
def toArrayLoop : ℕ → σ → Except Throwable (Bytes × σ)
  | 0, it => .ok ([], it)
  | n + 1, it => do
    let (b, it) ← B.nextByte it
    let (bs, it) ← toArrayLoop n it
    .ok (b :: bs, it)

/-- `toArray()`. -/
def toArray (it : σ) : Except Throwable (Bytes × σ) :=
  let left := B.bytesLeft it
  if left ≠ asInt left then .error .arrayIndexOutOfBounds
  else if left < 0 then .error .negativeArraySize
  else B.toArrayLoop left.toNat it

/-- `toString()`. -/
def toString (it : σ) : Except Throwable (Utf16 × σ) := (B.toArray it).map fun r => (decode r.1, r.2)

/-- `nextByte` gives these bytes while `hasNext` is true. -/
def Yields : σ → Bytes → Prop
  | it, [] => B.hasNext it = false
  | it, b :: bs => B.hasNext it = true ∧ ∃ it', B.nextByte it = .ok (b, it') ∧ Yields it' bs

end Base

/-! ### The classes -/

namespace ByteArrayByteIterator

/-- `hasNext()`. -/
def hasNext (it : ByteArrayByteIterator) : Bool := it.off < it.len

/-- `nextByte()`. -/
def nextByte (it : ByteArrayByteIterator) : Except Throwable (UInt8 × ByteArrayByteIterator) :=
  if it.off < 0 then .error .arrayIndexOutOfBounds
  else
    match it.str[it.off.toNat]? with
    | some ret => .ok (ret, { it with off := it.off + 1 })
    | none => .error .arrayIndexOutOfBounds

/-- What the base class builds on. -/
def base : Base ByteArrayByteIterator := ⟨hasNext, nextByte, bytesLeft⟩

end ByteArrayByteIterator

namespace StringByteIterator

/-- `hasNext()`. -/
def hasNext (it : StringByteIterator) : Bool := it.off < it.str.length

/-- `nextByte()`. -/
def nextByte (it : StringByteIterator) : Except Throwable (UInt8 × StringByteIterator) :=
  match it.str[it.off]? with
  | some c => .ok (toByte c, { it with off := it.off + 1 })
  | none => .error .stringIndexOutOfBounds

/-- What the base class builds on. -/
def base : Base StringByteIterator := ⟨hasNext, nextByte, bytesLeft⟩

end StringByteIterator

namespace RandomByteIterator

/-- `hasNext()`. -/
def hasNext (it : RandomByteIterator) : Bool := it.off + it.bufOff < it.len

/-- `fillBytes()`: when the six bytes have been handed out, six more. -/
def fillBytes (it : RandomByteIterator) : RandomByteIterator :=
  if it.bufOff = it.buf.length then
    { it with
      buf := fillBytesImpl (it.draws 0) it.buf 0, bufOff := 0, off := it.off + it.buf.length
      draws := fun i => it.draws (i + 1) }
  else it

/-- `nextByte()`. -/
def nextByte (it : RandomByteIterator) : Except Throwable (UInt8 × RandomByteIterator) :=
  let it := it.fillBytes
  match it.buf[it.bufOff.toNat]? with
  | some b => .ok (b, { it with bufOff := it.bufOff + 1 })
  | none => .error .arrayIndexOutOfBounds

end RandomByteIterator

/-- The bytes of a number. -/
structure NumericByteIterator where
  /-- The eight bytes. -/
  payload : Bytes
  /-- The cursor. -/
  off : ℕ

namespace NumericByteIterator

/-- `hasNext()`. -/
def hasNext (it : NumericByteIterator) : Bool := it.off < it.payload.length

/-- `nextByte()`. -/
def nextByte (it : NumericByteIterator) : Except Throwable (UInt8 × NumericByteIterator) :=
  match it.payload[it.off]? with
  | some b => .ok (b, { it with off := it.off + 1 })
  | none => .error .arrayIndexOutOfBounds

/-- `bytesLeft()`. -/
def bytesLeft (it : NumericByteIterator) : ℤ := it.payload.length - it.off

/-- What the base class builds on: all it has. -/
def base : Base NumericByteIterator := ⟨hasNext, nextByte, bytesLeft⟩

end NumericByteIterator

/-- An iterator of any class. -/
inductive Implementation where
  /-- One that a field's value comes in. -/
  | field (it : ByteIterator)
  /-- One that has all it can from the base class. -/
  | numeric (it : NumericByteIterator)

namespace Implementation

/-- `hasNext()`. -/
def hasNext : Implementation → Bool
  | field (.byteArray it) => it.hasNext
  | field (.string it) => it.hasNext
  | field (.random it) => it.hasNext
  | numeric it => it.hasNext

/-- `nextByte()`. -/
def nextByte : Implementation → Except Throwable (UInt8 × Implementation)
  | field (.byteArray it) => it.nextByte.map fun r => (r.1, field (.byteArray r.2))
  | field (.string it) => it.nextByte.map fun r => (r.1, field (.string r.2))
  | field (.random it) => it.nextByte.map fun r => (r.1, field (.random r.2))
  | numeric it => it.nextByte.map fun r => (r.1, numeric r.2)

/-- `bytesLeft()`. -/
def bytesLeft : Implementation → ℤ
  | field (.byteArray it) => it.bytesLeft
  | field (.string it) => it.bytesLeft
  | field (.random it) => it.bytesLeft
  | numeric it => it.bytesLeft

/-- `nextBuf(buf, bufOff)`. -/
def nextBuf (buf : Bytes) (bufOff : ℕ) : Implementation → Except Throwable (ℤ × Bytes × Implementation)
  | field (.byteArray it) => (ByteArrayByteIterator.base.nextBuf it buf bufOff).map fun r => (r.1, r.2.1, field (.byteArray r.2.2))
  | field (.string it) => (StringByteIterator.base.nextBuf it buf bufOff).map fun r => (r.1, r.2.1, field (.string r.2.2))
  | field (.random it) => .ok ((it.nextBuf buf bufOff).1, (it.nextBuf buf bufOff).2.1, field (.random (it.nextBuf buf bufOff).2.2))
  | numeric it => (NumericByteIterator.base.nextBuf it buf bufOff).map fun r => (r.1, r.2.1, numeric r.2.2)

/-- `toArray()`. -/
def toArray : Implementation → Except Throwable (Bytes × Implementation)
  | field it => it.toArray.map fun r => (r.1, field r.2)
  | numeric it => (NumericByteIterator.base.toArray it).map fun r => (r.1, numeric r.2)

/-- `toString()`. -/
def toString : Implementation → Except Throwable (Utf16 × Implementation)
  | field it => it.toString.map fun r => (r.1, field r.2)
  | numeric it => (NumericByteIterator.base.toString it).map fun r => (r.1, numeric r.2)

/-- An iterator that has just been made. -/
inductive New : Implementation → Prop where
  /-- `new ByteArrayByteIterator(s)`. -/
  | array {s : Bytes} (h : s.length < 2 ^ 31) : New (field (.byteArray (.ofArray s)))
  /-- `new ByteArrayByteIterator(s, off, len)` of a slice. -/
  | slice {s : Bytes} {off len : ℤ} (h : s.length < 2 ^ 31) (hoff : 0 ≤ off) (hlen : 0 ≤ len) (hend : off + len ≤ s.length) :
      New (field (.byteArray (.ofSlice s off len)))
  /-- `new StringByteIterator(s)`. -/
  | string {s : Utf16} (h : s.length < 2 ^ 31) : New (field (.string (.ofString s)))
  /-- `new RandomByteIterator(len)`. -/
  | random {len : ℤ} (h : 0 ≤ len) (draws : ℕ → UInt32) : New (field (.random (.ofLength len draws)))
  /-- `new NumericByteIterator(value)`. -/
  | numeric {payload : Bytes} (h : payload.length < 2 ^ 31) : New (numeric ⟨payload, 0⟩)

/-- A call that reads some of it. -/
inductive Call where
  /-- `nextByte()`. -/
  | nextByte
  /-- `nextBuf(buf, bufOff)`. -/
  | nextBuf (buf : Bytes) (bufOff : ℕ)

/-- The iterator after a call. One that throws leaves it as it was. -/
def after (it : Implementation) : Call → Implementation
  | .nextByte =>
    match it.nextByte with
    | .ok r => r.2
    | .error _ => it
  | .nextBuf buf bufOff =>
    match it.nextBuf buf bufOff with
    | .ok r => r.2.2
    | .error _ => it

/-! ### What is promised -/

/-- These bytes are left: what `nextByte` gives until `hasNext` is false. Random bytes are made up as
they are read, so only their number is fixed. -/
def Left : Implementation → Bytes → Prop
  | field (.byteArray it), bs => ByteArrayByteIterator.base.Yields it bs
  | field (.string it), bs => StringByteIterator.base.Yields it bs
  | field (.random it), bs => (bs.length : ℤ) = it.bytesLeft
  | numeric it, bs => NumericByteIterator.base.Yields it bs

/-- Nothing is left, and it says so. -/
structure Spent (it : Implementation) : Prop where
  /-- `hasNext()` is false. -/
  hasNext : it.hasNext = false
  /-- `bytesLeft()` is zero. -/
  bytesLeft : it.bytesLeft = 0
  /-- `toArray()` is empty. -/
  toArray : ∃ it', it.toArray = .ok ([], it')
  /-- `toString()` is empty. -/
  toString : ∃ it', it.toString = .ok ([], it')

/-- `toArray` and `toString` consume what is left, and return it. -/
structure Consumes (it : Implementation) : Prop where
  /-- `toArray()` does. -/
  toArray : ∃ bs it', it.toArray = .ok (bs, it') ∧ it.Left bs ∧ it'.Spent
  /-- `toString()` does. -/
  toString : ∃ bs it', it.toString = .ok (decode bs, it') ∧ it.Left bs ∧ it'.Spent

/-- What a caller gets that calls `toString` and then `toArray`. -/
def readTwice (it : Implementation) : Except Throwable (Utf16 × Bytes) := do
  let (s, it) ← it.toString
  let (bs, _) ← it.toArray
  .ok (s, bs)

/-- If the two have the same bytes left, such a caller can not tell them apart. -/
def Interchangeable (it₁ it₂ : Implementation) : Prop :=
  ∀ bs it₁' it₂', it₁.toArray = .ok (bs, it₁') → it₂.toArray = .ok (bs, it₂') → it₁.readTwice = it₂.readTwice

/-- A string that has not been touched. -/
def Untouched : Implementation → Prop
  | field (.string it) => it.off = 0 ∧ it.str ≠ []
  | _ => False

/-- `bytesLeft()` is not negative and fits an array, and it is not a string that has not been touched. -/
def Readable (it : Implementation) : Prop := 0 ≤ it.bytesLeft ∧ it.bytesLeft < 2 ^ 31 ∧ ¬ it.Untouched

end Implementation

/-! ### The base class's loops -/

namespace Base

variable {σ : Type} {B : Base σ}

/-- What `nextByte` preserves while there are bytes, `nextBuf` preserves. -/
theorem nextBufLoop_invariant {I : σ → Prop} (hI : ∀ it b it', I it → B.hasNext it = true → B.nextByte it = .ok (b, it') → I it') {n sz : ℕ} {buf : Bytes}
    {it : σ} (h : I it) {r : ℕ × Bytes × σ} (hr : B.nextBufLoop n buf sz it = .ok r) : I r.2.2 := by
  induction n generalizing buf sz it with
  | zero =>
    cases hr
    exact h
  | succ n ih =>
    rw [nextBufLoop] at hr
    split_ifs at hr with hnext
    · obtain ⟨⟨b, it'⟩, hb, hr⟩ := bind_inv hr
      exact ih (hI it b it' h hnext hb) hr
    · cases hr
      exact h

/-- And `toArray`. -/
theorem toArrayLoop_invariant {I : σ → Prop} (hI : ∀ it b it', I it → B.nextByte it = .ok (b, it') → I it') {n : ℕ} {it : σ}
    (h : I it) {r : Bytes × σ} (hr : B.toArrayLoop n it = .ok r) : I r.2 := by
  induction n generalizing it r with
  | zero =>
    cases hr
    exact h
  | succ n ih =>
    obtain ⟨⟨b, it'⟩, hb, hr⟩ := bind_inv hr
    obtain ⟨⟨bs, it''⟩, hbs, hr⟩ := bind_inv hr
    have hlast := ih (hI it b it' h hb) hbs
    cases hr
    exact hlast

/-- An iterator yields what it holds, if `nextByte` takes the first byte off. -/
theorem yields_of {H : σ → Bytes → Prop} (hnil : ∀ it, H it [] → B.hasNext it = false)
    (hcons : ∀ it b bs, H it (b :: bs) → B.hasNext it = true ∧ ∃ it', B.nextByte it = .ok (b, it') ∧ H it' bs) {it : σ}
    {bs : Bytes} (h : H it bs) : B.Yields it bs := by
  induction bs generalizing it with
  | nil => exact hnil it h
  | cons b bs ih =>
    obtain ⟨hnext, it', hb, hrest⟩ := hcons it b bs h
    exact ⟨hnext, it', hb, ih hrest⟩

/-- The base class's `toArray` gives what `nextByte` yields, and leaves nothing. -/
theorem toArrayLoop_of_yields {it : σ} {bs : Bytes} (h : B.Yields it bs) :
    ∃ it', B.toArrayLoop bs.length it = .ok (bs, it') ∧ B.hasNext it' = false := by
  induction bs generalizing it with
  | nil => exact ⟨it, rfl, h⟩
  | cons b bs ih =>
    obtain ⟨-, it', hb, hrest⟩ := h
    obtain ⟨it'', hbs, hlast⟩ := ih hrest
    refine ⟨it'', ?_, hlast⟩
    rw [List.length_cons, toArrayLoop, bind_ok hb]
    dsimp only
    rw [bind_ok hbs]

theorem toArray_of_yields {it : σ} {bs : Bytes} (h : B.Yields it bs) (hleft : B.bytesLeft it = bs.length) (hlt : bs.length < 2 ^ 31) :
    ∃ it', B.toArray it = .ok (bs, it') ∧ B.toArrayLoop bs.length it = .ok (bs, it') ∧ B.hasNext it' = false := by
  obtain ⟨it', hloop, hlast⟩ := toArrayLoop_of_yields h
  refine ⟨it', ?_, hloop, hlast⟩
  rw [toArray, hleft, asInt_of_fits (by unfold FitsInt; omega)]
  simp only [ne_eq, not_true_eq_false, if_false]
  rw [if_neg (by omega), Int.toNat_natCast]
  exact hloop

end Base

/-! ### What is left -/

namespace ByteArrayByteIterator

theorem yields_of_holds {it : ByteArrayByteIterator} {bs : Bytes} (h : it.Holds bs) : base.Yields it bs := by
  refine Base.yields_of (H := Holds) (fun it h => ?_) (fun it b bs h => ?_) h
  · obtain ⟨pre, post, -, -, hoff, hend⟩ := h
    simp [base, hasNext, hoff, hend]
  · obtain ⟨pre, post, hstr, hlen, hoff, hend⟩ := h
    rw [List.length_cons] at hend
    refine ⟨by simp only [base, hasNext, decide_eq_true_eq]; omega, { it with off := it.off + 1 }, ?_, ?_⟩
    · have hget : it.str[it.off.toNat]? = some b := by
        rw [hstr, hoff, Int.toNat_natCast, List.append_assoc, List.getElem?_append_right (le_refl _), Nat.sub_self]
        rfl
      simp only [base, nextByte, hget]
      rw [if_neg (by omega)]
    · refine ⟨pre ++ [b], post, by rw [hstr]; simp, hlen, ?_, ?_⟩
      · simp [hoff]
      · simp only [hend, List.length_append, List.length_singleton]
        omega

/-- A cursor that is not past its end holds the slice up to there. -/
theorem holds_of_le {it : ByteArrayByteIterator} (hoff : 0 ≤ it.off) (hle : it.off ≤ it.len) (hend : it.len ≤ it.str.length)
    (hlen : it.str.length < 2 ^ 31) : ∃ bs, it.Holds bs ∧ (bs.length : ℤ) = it.len - it.off := by
  refine ⟨(it.str.drop it.off.toNat).take (it.len - it.off).toNat,
    ⟨it.str.take it.off.toNat, it.str.drop it.len.toNat, ?_, hlen, ?_, ?_⟩, ?_⟩
  · have hsplit : it.len.toNat = it.off.toNat + (it.len - it.off).toNat := by omega
    rw [List.append_assoc, hsplit, ← List.drop_drop, List.take_append_drop, List.take_append_drop]
  · rw [List.length_take]
    omega
  · rw [List.length_take, List.length_take, List.length_drop]
    omega
  · rw [List.length_take, List.length_drop]
    omega

end ByteArrayByteIterator

namespace StringByteIterator

theorem yields_of_holds {it : StringByteIterator} {bs : Bytes} (h : it.Holds bs) : base.Yields it bs := by
  refine Base.yields_of (H := Holds) (fun it h => ?_) (fun it b bs h => ?_) h
  · obtain ⟨hoff, hbs⟩ := h
    have hlen := congrArg List.length hbs
    rw [length_toBytes, List.length_drop, List.length_nil] at hlen
    simp only [base, hasNext, decide_eq_false_iff_not]
    omega
  · obtain ⟨hoff, hbs⟩ := h
    have hlen := congrArg List.length hbs
    rw [length_toBytes, List.length_drop, List.length_cons] at hlen
    have hlt : it.off < it.str.length := by omega
    rw [List.drop_eq_getElem_cons hlt, toBytes, List.map_cons, List.cons.injEq] at hbs
    refine ⟨by simp only [base, hasNext, decide_eq_true_eq]; omega, { it with off := it.off + 1 }, ?_, ?_⟩
    · simp only [base, nextByte, List.getElem?_eq_getElem hlt, hbs.1]
    · exact ⟨hlt, hbs.2⟩

end StringByteIterator

namespace NumericByteIterator

/-- The cursor is in the payload, and the bytes from there on are `bs`. -/
def Holds (it : NumericByteIterator) (bs : Bytes) : Prop := it.off ≤ it.payload.length ∧ it.payload.drop it.off = bs

theorem yields_of_holds {it : NumericByteIterator} {bs : Bytes} (h : it.Holds bs) : base.Yields it bs := by
  refine Base.yields_of (H := Holds) (fun it h => ?_) (fun it b bs h => ?_) h
  · obtain ⟨hoff, hbs⟩ := h
    have hle := List.drop_eq_nil_iff.mp hbs
    simp only [base, hasNext, decide_eq_false_iff_not]
    omega
  · obtain ⟨hoff, hbs⟩ := h
    have hlen := congrArg List.length hbs
    rw [List.length_drop, List.length_cons] at hlen
    have hlt : it.off < it.payload.length := by omega
    rw [List.drop_eq_getElem_cons hlt, List.cons.injEq] at hbs
    refine ⟨by simp only [base, hasNext, decide_eq_true_eq]; omega, { it with off := it.off + 1 }, ?_, ?_⟩
    · simp only [base, nextByte, List.getElem?_eq_getElem hlt, hbs.1]
    · exact ⟨hlt, hbs.2⟩

end NumericByteIterator

/-! ### Iterators in use -/

namespace Implementation

/-- The cursors are where they can be. -/
def InBounds : Implementation → Prop
  | field (.byteArray it) => 0 ≤ it.off ∧ it.off ≤ it.str.length ∧ 0 ≤ it.len ∧ it.len ≤ it.str.length ∧ it.str.length < 2 ^ 31
  | field (.string it) => it.off ≤ it.str.length ∧ it.str.length < 2 ^ 31
  | field (.random it) => 0 ≤ it.bufOff ∧ it.bufOff ≤ it.buf.length ∧ it.buf.length = 6
  | numeric it => it.off ≤ it.payload.length ∧ it.payload.length < 2 ^ 31

theorem inBounds_new {it : Implementation} (h : New it) : it.InBounds := by
  cases h with
  | array h =>
    simp only [InBounds, ByteArrayByteIterator.ofArray]
    omega
  | slice h hoff hlen hend =>
    simp only [InBounds, ByteArrayByteIterator.ofSlice]
    rw [asInt_of_fits (by unfold FitsInt; omega)]
    omega
  | string h => exact ⟨Nat.zero_le _, h⟩
  | random h draws =>
    have hlen : (RandomByteIterator.fillBytesImpl (draws 0) (List.replicate 6 0) 0).length = 6 :=
      RandomByteIterator.length_fillBytesImpl _ _ _
    refine ⟨le_refl _, ?_, hlen⟩
    simp only [RandomByteIterator.ofLength, hlen]
    omega
  | numeric h => exact ⟨Nat.zero_le _, h⟩

theorem byteArray_nextByte {it it' : ByteArrayByteIterator} {b : UInt8} (h : (field (.byteArray it)).InBounds)
    (hb : it.nextByte = .ok (b, it')) : (field (.byteArray it')).InBounds := by
  rw [ByteArrayByteIterator.nextByte] at hb
  split_ifs at hb with hoff
  split at hb
  · next hget =>
    cases hb
    have hlt := (List.getElem?_eq_some_iff.mp hget).1
    simp only [InBounds] at h ⊢
    omega
  · cases hb

theorem string_nextByte {it it' : StringByteIterator} {b : UInt8} (h : (field (.string it)).InBounds)
    (hb : it.nextByte = .ok (b, it')) : (field (.string it')).InBounds := by
  rw [StringByteIterator.nextByte] at hb
  split at hb
  · next hget =>
    cases hb
    exact ⟨(List.getElem?_eq_some_iff.mp hget).1, h.2⟩
  · cases hb

theorem numeric_nextByte {it it' : NumericByteIterator} {b : UInt8} (h : (numeric it).InBounds)
    (hb : it.nextByte = .ok (b, it')) : (numeric it').InBounds := by
  rw [NumericByteIterator.nextByte] at hb
  split at hb
  · next hget =>
    cases hb
    exact ⟨(List.getElem?_eq_some_iff.mp hget).1, h.2⟩
  · cases hb

theorem random_nextByte {it it' : RandomByteIterator} {b : UInt8} (h : (field (.random it)).InBounds)
    (hb : it.nextByte = .ok (b, it')) : (field (.random it')).InBounds := by
  have hfill : 0 ≤ it.fillBytes.bufOff ∧ it.fillBytes.buf.length = 6 := by
    rw [RandomByteIterator.fillBytes]
    split_ifs
    · exact ⟨le_refl _, (RandomByteIterator.length_fillBytesImpl _ _ _).trans h.2.2⟩
    · exact ⟨h.1, h.2.2⟩
  rw [RandomByteIterator.nextByte] at hb
  split at hb
  · next hget =>
    cases hb
    have hlt := (List.getElem?_eq_some_iff.mp hget).1
    simp only [InBounds]
    omega
  · cases hb

/-- A call that reads keeps the cursors where they can be. -/
theorem inBounds_after {it : Implementation} (h : it.InBounds) (c : Call) : (it.after c).InBounds := by
  cases c with
  | nextByte =>
    simp only [after]
    split
    · next r hr =>
      match it with
      | field (.byteArray a) =>
        obtain ⟨o, ho, rfl⟩ := map_inv hr
        exact byteArray_nextByte h ho
      | field (.string a) =>
        obtain ⟨o, ho, rfl⟩ := map_inv hr
        exact string_nextByte h ho
      | field (.random a) =>
        obtain ⟨o, ho, rfl⟩ := map_inv hr
        exact random_nextByte h ho
      | numeric a =>
        obtain ⟨o, ho, rfl⟩ := map_inv hr
        exact numeric_nextByte h ho
    · exact h
  | nextBuf buf bufOff =>
    simp only [after]
    split
    · next r hr =>
      match it with
      | field (.byteArray a) =>
        obtain ⟨o, ho, rfl⟩ := map_inv hr
        exact Base.nextBufLoop_invariant (I := fun a => (field (.byteArray a)).InBounds) (fun _ _ _ h _ hb => byteArray_nextByte h hb) h ho
      | field (.string a) =>
        obtain ⟨o, ho, rfl⟩ := map_inv hr
        exact Base.nextBufLoop_invariant (I := fun a => (field (.string a)).InBounds) (fun _ _ _ h _ hb => string_nextByte h hb) h ho
      | field (.random a) =>
        cases hr
        exact h
      | numeric a =>
        obtain ⟨o, ho, rfl⟩ := map_inv hr
        exact Base.nextBufLoop_invariant (I := fun a => (numeric a).InBounds) (fun _ _ _ h _ hb => numeric_nextByte h hb) h ho
    · exact h

theorem inBounds_foldl {it : Implementation} (h : it.InBounds) (calls : List Call) : (calls.foldl after it).InBounds := by
  induction calls generalizing it with
  | nil => exact h
  | cons c calls ih => exact ih (inBounds_after h c)

/-! ### What is left after a call -/

/-- The call reads no more than is left: a `nextByte` only if there is a byte, and a `nextBuf` of a `RandomByteIterator`
only if no byte of its six has been handed out, or the room in the buffer is not more than what is left. -/
def Within (it : Implementation) : Call → Prop
  | .nextByte => it.hasNext = true
  | .nextBuf buf bufOff =>
    match it with
    | field (.random a) => a.bufOff = 0 ∨ (buf.length : ℤ) - bufOff ≤ a.bytesLeft
    | _ => True

theorem byteArray_bytesLeft {it it' : ByteArrayByteIterator} {b : UInt8} (h : (field (.byteArray it)).InBounds) (hnext : it.hasNext = true)
    (hb : it.nextByte = .ok (b, it')) : 0 ≤ it'.bytesLeft := by
  have hin := byteArray_nextByte h hb
  rw [ByteArrayByteIterator.nextByte] at hb
  split_ifs at hb with hoff
  split at hb
  · cases hb
    simp only [ByteArrayByteIterator.hasNext, decide_eq_true_eq] at hnext
    simp only [InBounds] at hin
    rw [ByteArrayByteIterator.bytesLeft, asInt_of_fits (by unfold FitsInt; dsimp only; omega)]
    dsimp only
    omega
  · cases hb

theorem random_bytesLeft {it it' : RandomByteIterator} {b : UInt8} (hnext : it.hasNext = true) (hb : it.nextByte = .ok (b, it')) :
    0 ≤ it'.bytesLeft := by
  simp only [RandomByteIterator.hasNext, decide_eq_true_eq] at hnext
  have hfill : it.fillBytes.off + it.fillBytes.bufOff = it.off + it.bufOff ∧ it.fillBytes.len = it.len := by
    rw [RandomByteIterator.fillBytes]
    split_ifs with hfull
    · exact ⟨by dsimp only; omega, rfl⟩
    · exact ⟨rfl, rfl⟩
  rw [RandomByteIterator.nextByte] at hb
  split at hb
  · cases hb
    simp only [RandomByteIterator.bytesLeft]
    omega
  · cases hb

/-- A call that reads no more than is left leaves `bytesLeft` not negative. -/
theorem bytesLeft_after {it : Implementation} (h : it.InBounds) (hleft : 0 ≤ it.bytesLeft) {c : Call} (hwithin : it.Within c) :
    0 ≤ (it.after c).bytesLeft := by
  cases c with
  | nextByte =>
    have hin := inBounds_after h .nextByte
    simp only [Within] at hwithin
    simp only [after] at hin ⊢
    split
    · next r hr =>
      rw [hr] at hin
      match it with
      | field (.byteArray a) =>
        obtain ⟨o, ho, rfl⟩ := map_inv hr
        exact byteArray_bytesLeft h hwithin ho
      | field (.string a) =>
        obtain ⟨o, ho, rfl⟩ := map_inv hr
        exact Int.sub_nonneg_of_le (Int.ofNat_le.mpr hin.1)
      | field (.random a) =>
        obtain ⟨o, ho, rfl⟩ := map_inv hr
        exact random_bytesLeft hwithin ho
      | numeric a =>
        obtain ⟨o, ho, rfl⟩ := map_inv hr
        exact Int.sub_nonneg_of_le (Int.ofNat_le.mpr hin.1)
    · exact hleft
  | nextBuf buf bufOff =>
    have hin := inBounds_after h (.nextBuf buf bufOff)
    simp only [after] at hin ⊢
    split
    · next r hr =>
      rw [hr] at hin
      match it with
      | field (.byteArray a) =>
        obtain ⟨o, ho, rfl⟩ := map_inv hr
        exact (Base.nextBufLoop_invariant (I := fun a => (field (.byteArray a)).InBounds ∧ 0 ≤ a.bytesLeft)
          (fun _ _ _ h hnext hb => ⟨byteArray_nextByte h.1 hb, byteArray_bytesLeft h.1 hnext hb⟩) ⟨h, hleft⟩ ho).2
      | field (.string a) =>
        obtain ⟨o, ho, rfl⟩ := map_inv hr
        exact Int.sub_nonneg_of_le (Int.ofNat_le.mpr hin.1)
      | field (.random a) =>
        cases hr
        simp only [Within] at hwithin
        simp only [bytesLeft, RandomByteIterator.bytesLeft, RandomByteIterator.nextBuf] at hleft hwithin ⊢
        unfold asInt
        have hbufOff := h.1
        split_ifs <;> omega
      | numeric a =>
        obtain ⟨o, ho, rfl⟩ := map_inv hr
        exact Int.sub_nonneg_of_le (Int.ofNat_le.mpr hin.1)
    · exact hleft

/-- So do any number of them. -/
theorem bytesLeft_foldl {it : Implementation} (h : it.InBounds) (hleft : 0 ≤ it.bytesLeft) {calls : List Call}
    (hwithin : Meets (fun it c => some (after it c)) Within it calls) : 0 ≤ (calls.foldl after it).bytesLeft := by
  induction calls generalizing it with
  | nil => exact hleft
  | cons c calls ih => exact ih (inBounds_after h c) (bytesLeft_after h hleft hwithin.1) (hwithin.2 _ rfl)

/-! ### Consuming -/

/-- `toArray` makes up all it returns. -/
theorem random_toArray {it it' : RandomByteIterator} {bs : Bytes} (h : it.toArray = .ok (bs, it')) :
    it'.bufOff = it.bufOff ∧ it'.buf = it.buf := by
  have hloop : ∀ (fuel : ℕ) (ret : Bytes) (bufOffset : ℕ) (a : RandomByteIterator),
      RandomByteIterator.toArrayLoop fuel ret bufOffset a = .ok (bs, it') → it'.bufOff = a.bufOff ∧ it'.buf = a.buf := by
    intro fuel
    induction fuel with
    | zero =>
      intro ret bufOffset a ha
      cases ha
    | succ fuel ih =>
      intro ret bufOffset a ha
      rw [RandomByteIterator.toArrayLoop] at ha
      split_ifs at ha
      · exact ih (a.nextBuf ret bufOffset).2.1 (a.nextBuf ret bufOffset).1.toNat (a.nextBuf ret bufOffset).2.2 ha
      · cases ha
        exact ⟨rfl, rfl⟩
  rw [RandomByteIterator.toArray] at h
  split_ifs at h
  exact hloop _ _ _ _ h

/-- `toArray` gives what is left, if that is not negative and fits an array, and then there is nothing left. -/
theorem toArray_of_bytesLeft {it : Implementation} (h : it.InBounds) (hleft : 0 ≤ it.bytesLeft) (hfits : it.bytesLeft < 2 ^ 31) :
    ∃ bs it', it.toArray = .ok (bs, it') ∧ it.Left bs ∧ it'.InBounds ∧ it'.bytesLeft = 0 := by
  match it with
  | field (.byteArray a) =>
    obtain ⟨hoff, hoffle, hlen, hend, hlt⟩ := h
    have hbytes : a.bytesLeft = a.len - a.off := asInt_of_fits (by unfold FitsInt; omega)
    simp only [bytesLeft, hbytes] at hleft
    obtain ⟨bs, hholds, -⟩ := ByteArrayByteIterator.holds_of_le hoff (by omega) hend hlt
    refine ⟨bs, field (.byteArray { a with off := a.len }), ?_, ByteArrayByteIterator.yields_of_holds hholds, ?_, ?_⟩
    · rw [toArray, ByteIterator.toArray, ByteArrayByteIterator.toArray_of_holds hholds]
      rfl
    · exact ⟨hlen, hend, hlen, hend, hlt⟩
    · simp [bytesLeft, ByteArrayByteIterator.bytesLeft, asInt]
  | field (.string a) =>
    have hholds : a.Holds (toBytes (a.str.drop a.off)) := ⟨h.1, rfl⟩
    refine ⟨_, field (.string { a with off := a.str.length }), ?_, StringByteIterator.yields_of_holds hholds, ⟨le_refl _, h.2⟩, ?_⟩
    · rw [toArray, ByteIterator.toArray, StringByteIterator.toArray_of_holds hholds]
      rfl
    · simp [bytesLeft, StringByteIterator.bytesLeft]
  | field (.random a) =>
    obtain ⟨bs, a', ha, hlen, hin, hzero⟩ := RandomByteIterator.toArray_of_inOrder ⟨h.1, hleft, hfits⟩
    refine ⟨bs, field (.random a'), ?_, hlen, ?_, hzero⟩
    · rw [toArray, ByteIterator.toArray, ha]
      rfl
    · obtain ⟨hbufOff, hbuf⟩ := random_toArray ha
      exact ⟨hbufOff ▸ h.1, hbufOff ▸ hbuf ▸ h.2.1, hbuf ▸ h.2.2⟩
  | numeric a =>
    have hbytes : a.bytesLeft = (a.payload.drop a.off).length := by
      rw [NumericByteIterator.bytesLeft, List.length_drop]
      have := h.1
      omega
    have hholds : a.Holds (a.payload.drop a.off) := ⟨h.1, rfl⟩
    have hlt : (a.payload.drop a.off).length < 2 ^ 31 := by
      rw [List.length_drop]
      have := h.2
      omega
    obtain ⟨a', ha, hloop, hlast⟩ := Base.toArray_of_yields (NumericByteIterator.yields_of_holds hholds) hbytes hlt
    have hin := Base.toArrayLoop_invariant (I := fun a => (numeric a).InBounds) (fun _ _ _ h hb => numeric_nextByte h hb) h hloop
    refine ⟨_, numeric a', ?_, NumericByteIterator.yields_of_holds hholds, hin, ?_⟩
    · rw [toArray, ha]
      rfl
    · simp only [NumericByteIterator.base, NumericByteIterator.hasNext, decide_eq_false_iff_not] at hlast
      simp only [InBounds] at hin
      simp only [bytesLeft, NumericByteIterator.bytesLeft]
      omega

/-- `toString` decodes what `toArray` gives, unless the string has not been touched. -/
theorem toString_eq {it it' : Implementation} {bs : Bytes} (h : ¬ it.Untouched) (hin : it.InBounds)
    (harray : it.toArray = .ok (bs, it')) (hin' : it'.InBounds) (hzero : it'.bytesLeft = 0) :
    ∃ it'', it.toString = .ok (decode bs, it'') ∧ it''.InBounds ∧ it''.bytesLeft = 0 := by
  have hdecode : ∀ a, it = field a → a.toString = a.decodeToString → it.toString = .ok (decode bs, it') := by
    rintro a rfl ha
    obtain ⟨o, ho, heq⟩ := map_inv harray
    obtain ⟨rfl, rfl⟩ := Prod.mk.inj heq
    rw [toString, ha, ByteIterator.decodeToString, ho]
    rfl
  cases it with
  | field a =>
    cases a with
    | byteArray a => exact ⟨it', hdecode _ rfl rfl, hin', hzero⟩
    | random a => exact ⟨it', hdecode _ rfl rfl, hin', hzero⟩
    | string a =>
      by_cases hoff : a.off > 0
      · exact ⟨it', hdecode _ rfl (if_pos hoff), hin', hzero⟩
      · -- The string is empty.
        have hstr : a.str = [] := by
          by_contra hne
          exact h ⟨by omega, hne⟩
        have hholds : a.Holds [] := ⟨hin.1, by simp [hstr, toBytes]⟩
        have hbs : bs = [] := by
          rw [toArray, ByteIterator.toArray, StringByteIterator.toArray_of_holds hholds] at harray
          exact (Prod.mk.inj (Except.ok.inj harray)).1.symm
        refine ⟨field (.string a), ?_, hin, ?_⟩
        · rw [toString, ByteIterator.toString, if_neg hoff, hstr, hbs]
          rfl
        · have hoff : a.off = 0 := by omega
          simp [bytesLeft, StringByteIterator.bytesLeft, hstr, hoff]
  | numeric a =>
    obtain ⟨o, ho, heq⟩ := map_inv harray
    obtain ⟨rfl, rfl⟩ := Prod.mk.inj heq
    refine ⟨numeric o.2, ?_, hin', hzero⟩
    rw [toString, Base.toString, ho]
    rfl

theorem hasNext_of_bytesLeft {it : Implementation} (h : it.InBounds) (hzero : it.bytesLeft = 0) : it.hasNext = false := by
  match it with
  | field (.byteArray a) =>
    obtain ⟨hoff, hoffle, hlen, hend, hlt⟩ := h
    simp only [bytesLeft, ByteArrayByteIterator.bytesLeft] at hzero
    rw [asInt_of_fits (by unfold FitsInt; omega)] at hzero
    simp only [hasNext, ByteArrayByteIterator.hasNext, decide_eq_false_iff_not]
    omega
  | field (.string a) =>
    simp only [bytesLeft, StringByteIterator.bytesLeft] at hzero
    simp only [hasNext, StringByteIterator.hasNext, decide_eq_false_iff_not]
    omega
  | field (.random a) =>
    simp only [bytesLeft, RandomByteIterator.bytesLeft] at hzero
    simp only [hasNext, RandomByteIterator.hasNext, decide_eq_false_iff_not]
    omega
  | numeric a =>
    simp only [bytesLeft, NumericByteIterator.bytesLeft] at hzero
    simp only [hasNext, NumericByteIterator.hasNext, decide_eq_false_iff_not]
    omega

/-- There are as many bytes left as it says. -/
theorem length_of_left {it : Implementation} (h : it.InBounds) (hzero : it.bytesLeft = 0) {bs : Bytes} (hbs : it.Left bs) : bs = [] := by
  have hnext := hasNext_of_bytesLeft h hzero
  match it, bs with
  | _, [] => rfl
  | field (.byteArray a), b :: bs => exact absurd (hbs.1.symm.trans hnext) (by decide)
  | field (.string a), b :: bs => exact absurd (hbs.1.symm.trans hnext) (by decide)
  | field (.random a), b :: bs =>
    have hlen : ((b :: bs).length : ℤ) = 0 := hbs.trans hzero
    simp at hlen
    omega
  | numeric a, b :: bs => exact absurd (hbs.1.symm.trans hnext) (by decide)

theorem untouched_bytesLeft {it : Implementation} (h : it.Untouched) : it.bytesLeft ≠ 0 := by
  match it with
  | field (.string a) =>
    have hlen := List.length_pos_iff.mpr h.2
    have := h.1
    simp only [bytesLeft, StringByteIterator.bytesLeft]
    omega

/-- If there is nothing left, it says so. -/
theorem spent_of_bytesLeft {it : Implementation} (h : it.InBounds) (hzero : it.bytesLeft = 0) : it.Spent := by
  obtain ⟨bs, it', harray, hbs, hin', hzero'⟩ := toArray_of_bytesLeft h hzero.ge (by omega)
  obtain ⟨it'', hstring, -, -⟩ := toString_eq (fun hu => untouched_bytesLeft hu hzero) h harray hin' hzero'
  rw [length_of_left h hzero hbs] at harray hstring
  exact ⟨hasNext_of_bytesLeft h hzero, hzero, ⟨it', harray⟩, ⟨it'', hstring⟩⟩

theorem random_fits {a : RandomByteIterator} {r : Bytes × RandomByteIterator} (hr : a.toArray = .ok r) : 0 ≤ a.bytesLeft ∧ a.bytesLeft < 2 ^ 31 := by
  rw [RandomByteIterator.toArray] at hr
  split_ifs at hr with hint hneg
  have hfits : FitsInt a.bytesLeft := asInt_eq_self.mp (not_not.mp hint).symm
  exact ⟨not_lt.mp hneg, hfits.2⟩

/-- `toArray` throws if `bytesLeft` is negative or does not fit an array. -/
theorem bytesLeft_of_toArray {it : Implementation} (h : it.InBounds) {r : Bytes × Implementation} (hr : it.toArray = .ok r) :
    0 ≤ it.bytesLeft ∧ it.bytesLeft < 2 ^ 31 := by
  match it with
  | field (.byteArray a) =>
    obtain ⟨o, ho, -⟩ := map_inv hr
    obtain ⟨o, ho, -⟩ := map_inv ho
    rw [ByteArrayByteIterator.toArray] at ho
    split_ifs at ho with hneg
    exact ⟨not_lt.mp hneg, (fitsInt_asInt _).2⟩
  | field (.string a) =>
    simp only [InBounds] at h
    simp only [bytesLeft, StringByteIterator.bytesLeft]
    omega
  | field (.random a) =>
    obtain ⟨o, ho, -⟩ := map_inv hr
    obtain ⟨o, ho, -⟩ := map_inv ho
    exact random_fits ho
  | numeric a =>
    simp only [InBounds] at h
    simp only [bytesLeft, NumericByteIterator.bytesLeft]
    omega

/-- **`toString` and `toArray` consume what is left, and return it, just of a readable iterator.** -/
theorem consumes_iff_readable {it : Implementation} (h : it.InBounds) : it.Consumes ↔ it.Readable := by
  constructor
  · rintro ⟨⟨bs, it', harray, -, -⟩, bs', it'', hstring, -, hspent⟩
    obtain ⟨hleft, hfits⟩ := bytesLeft_of_toArray h harray
    refine ⟨hleft, hfits, fun hu => ?_⟩
    match it with
    | field (.string a) =>
      rw [toString, ByteIterator.toString, if_neg (by have := hu.1; omega)] at hstring
      obtain ⟨-, rfl⟩ := Prod.mk.inj (Except.ok.inj hstring)
      exact untouched_bytesLeft hu hspent.bytesLeft
  · rintro ⟨hleft, hfits, hu⟩
    obtain ⟨bs, it', harray, hbs, hin, hzero⟩ := toArray_of_bytesLeft h hleft hfits
    obtain ⟨it'', hstring, hin', hzero'⟩ := toString_eq hu h harray hin hzero
    exact ⟨⟨bs, it', harray, hbs, spent_of_bytesLeft hin hzero⟩, bs, it'', hstring, hbs, spent_of_bytesLeft hin' hzero'⟩

/-- A caller that reads a readable iterator twice gets what is left, and then nothing. -/
theorem readTwice_of_readable {it it' : Implementation} {bs : Bytes} (h : it.InBounds) (hread : it.Readable)
    (harray : it.toArray = .ok (bs, it')) : it.readTwice = .ok (decode bs, []) := by
  obtain ⟨bs₀, it₀, harray₀, -, hin, hzero⟩ := toArray_of_bytesLeft h hread.1 hread.2.1
  obtain ⟨rfl, rfl⟩ := Prod.mk.inj (Except.ok.inj (harray₀.symm.trans harray))
  obtain ⟨it'', hstring, hin'', hzero''⟩ := toString_eq hread.2.2 h harray hin hzero
  obtain ⟨it₃, hempty⟩ := (spent_of_bytesLeft hin'' hzero'').toArray
  rw [readTwice, bind_ok hstring]
  dsimp only
  rw [bind_ok hempty]

end Implementation

open Implementation

namespace ByteIterator

/-- The iterator is one that a program can have: its cursor is not before its start, and its numbers are machine words. -/
def WellMade : ByteIterator → Prop
  | byteArray it => it.str.length < 2 ^ 31 ∧ FitsInt it.off ∧ FitsInt it.len
  | string it => it.off ≤ it.str.length
  | random it => 0 ≤ it.bufOff

/-- `toString` gives the same again: the iterator is a string that has not been read from, or there is nothing left. -/
def Rereadable : ByteIterator → Prop
  | byteArray it => it.bytesLeft = 0
  | string it => it.off = 0 ∨ it.bytesLeft = 0
  | random it => it.bytesLeft = 0

/-- What has been read as an array is empty when it is read again. -/
theorem toArray_again {it it' : ByteIterator} {bs : Bytes} (h : it.WellMade) (harray : it.toArray = .ok (bs, it')) :
    (∃ it'', it'.toArray = .ok ([], it'')) ∧ (bs = [] ↔ (Implementation.field it).bytesLeft = 0) := by
  cases it with
  | byteArray a =>
    obtain ⟨o, ho, heq⟩ := map_inv harray
    obtain ⟨hlt, hoff, hlen⟩ := h
    unfold FitsInt at hoff hlen
    rw [ByteArrayByteIterator.toArray] at ho
    split_ifs at ho with hneg hbounds
    have hsize : a.bytesLeft = a.len - a.off := by
      rw [ByteArrayByteIterator.bytesLeft, asInt] at hneg hbounds ⊢
      omega
    have hle : a.off ≤ a.len := by omega
    obtain ⟨pre, hholds, hlength⟩ := ByteArrayByteIterator.holds_of_le (by omega) hle (by omega) hlt
    have hagain := ByteArrayByteIterator.toArray_of_holds (ByteArrayByteIterator.holds_drained hholds)
    cases ho
    cases heq
    refine ⟨⟨byteArray { a with off := a.len }, ?_⟩, ?_⟩
    · rw [toArray, hagain]
      rfl
    · rw [List.take_eq_nil_iff, List.drop_eq_nil_iff]
      simp only [Implementation.bytesLeft]
      omega
  | string a =>
    have hholds : a.Holds (toBytes (a.str.drop a.off)) := ⟨h, rfl⟩
    have hagain := StringByteIterator.toArray_of_holds (StringByteIterator.holds_drained a)
    rw [toArray, StringByteIterator.toArray_of_holds hholds] at harray
    cases harray
    refine ⟨⟨string { a with off := a.str.length }, ?_⟩, ?_⟩
    · rw [toArray, hagain]
      rfl
    · rw [toBytes, List.map_eq_nil_iff, List.drop_eq_nil_iff]
      simp only [Implementation.bytesLeft, StringByteIterator.bytesLeft]
      have : a.off ≤ a.str.length := h
      omega
  | random a =>
    obtain ⟨o, ho, heq⟩ := map_inv harray
    have hfits := Implementation.random_fits ho
    obtain ⟨bs', a', ha, hlen, hin, hzero⟩ := RandomByteIterator.toArray_of_inOrder ⟨h, hfits.1, hfits.2⟩
    obtain ⟨bs'', a'', ha', hlen', -, -⟩ := RandomByteIterator.toArray_of_inOrder hin
    obtain rfl : bs'' = [] := List.length_eq_zero_iff.mp (by omega)
    obtain rfl : o = (bs', a') := Except.ok.inj (ho.symm.trans ha)
    cases heq
    refine ⟨⟨random a'', ?_⟩, ?_⟩
    · rw [toArray, ha']
      rfl
    · rw [← List.length_eq_zero_iff]
      simp only [Implementation.bytesLeft]
      omega

/-- **`toString` gives the same again** just of a string that has not been read from, or if there is nothing left. -/
theorem toString_again {it it' : ByteIterator} {s : Utf16} (h : it.WellMade) (hstring : it.toString = .ok (s, it')) :
    ∃ s' it'', it'.toString = .ok (s', it'') ∧ (s' = s ↔ it.Rereadable) := by
  -- One that is used up is decoded as the empty string.
  have hdrained : it.toString = it.decodeToString → (∀ r, it.toArray = .ok r → r.2.toString = r.2.decodeToString) →
      (it.Rereadable ↔ (Implementation.field it).bytesLeft = 0) → ∃ s' it'', it'.toString = .ok (s', it'') ∧ (s' = s ↔ it.Rereadable) := by
    intro hdecode hkind hread
    rw [hdecode] at hstring
    obtain ⟨⟨bs, a⟩, harray, heq⟩ := map_inv hstring
    cases heq
    obtain ⟨⟨it'', hempty⟩, hzero⟩ := toArray_again h harray
    refine ⟨[], it'', ?_, ?_⟩
    · rw [hkind _ harray, decodeToString, hempty]
      rfl
    · rw [hread, ← hzero, eq_comm, decode_eq_nil]
  cases it with
  | byteArray a =>
    refine hdrained rfl (fun r hr => ?_) Iff.rfl
    obtain ⟨o, -, rfl⟩ := map_inv hr
    rfl
  | random a =>
    refine hdrained rfl (fun r hr => ?_) Iff.rfl
    obtain ⟨o, -, rfl⟩ := map_inv hr
    rfl
  | string a =>
    by_cases hoff : a.off > 0
    · refine hdrained (if_pos hoff) (fun r hr => ?_) (or_iff_right (by omega))
      rw [toArray, StringByteIterator.toArray_of_holds ⟨h, rfl⟩] at hr
      cases hr
      exact if_pos (lt_of_lt_of_le hoff h)
    · have hsame : (string a).toString = .ok (a.str, string a) := if_neg hoff
      obtain ⟨rfl, rfl⟩ := Prod.mk.inj (Except.ok.inj (hsame.symm.trans hstring))
      exact ⟨a.str, string a, hsame, iff_of_true rfl (.inl (by omega))⟩

/-- What `toArray` leaves has no bytes left. -/
theorem toArray_after {it it' : ByteIterator} {bs : Bytes} (h : it.WellMade) (harray : it.toArray = .ok (bs, it')) :
    it'.WellMade ∧ (Implementation.field it').bytesLeft = 0 := by
  cases it with
  | byteArray a =>
    obtain ⟨o, ho, heq⟩ := map_inv harray
    cases heq
    rw [ByteArrayByteIterator.toArray] at ho
    split_ifs at ho
    cases ho
    exact ⟨⟨h.1, h.2.2, h.2.2⟩, by simp [Implementation.bytesLeft, ByteArrayByteIterator.bytesLeft, asInt]⟩
  | string a =>
    rw [toArray, StringByteIterator.toArray_of_holds ⟨h, rfl⟩] at harray
    cases harray
    exact ⟨le_refl _, by simp [Implementation.bytesLeft, StringByteIterator.bytesLeft]⟩
  | random a =>
    obtain ⟨o, ho, heq⟩ := map_inv harray
    have hfits := Implementation.random_fits ho
    obtain ⟨bs', a', ha, -, hin, hzero⟩ := RandomByteIterator.toArray_of_inOrder ⟨h, hfits.1, hfits.2⟩
    obtain rfl : o = (bs', a') := Except.ok.inj (ho.symm.trans ha)
    cases heq
    exact ⟨hin.1, hzero⟩

/-- What `toString` leaves gives the same again, and again. -/
theorem toString_after {it it' : ByteIterator} {s : Utf16} (h : it.WellMade) (hstring : it.toString = .ok (s, it')) :
    it'.WellMade ∧ it'.Rereadable := by
  have hdrained : it.toString = it.decodeToString → it'.WellMade ∧ (Implementation.field it').bytesLeft = 0 := by
    intro hdecode
    rw [hdecode] at hstring
    obtain ⟨⟨bs, a⟩, harray, heq⟩ := map_inv hstring
    cases heq
    exact toArray_after h harray
  have hread : ∀ a : ByteIterator, (Implementation.field a).bytesLeft = 0 → a.Rereadable := by
    intro a ha
    cases a with
    | byteArray a => exact ha
    | string a => exact .inr ha
    | random a => exact ha
  cases it with
  | byteArray a => exact (hdrained rfl).imp_right (hread it')
  | random a => exact (hdrained rfl).imp_right (hread it')
  | string a =>
    by_cases hoff : a.off > 0
    · exact (hdrained (if_pos hoff)).imp_right (hread it')
    · have hsame : (string a).toString = .ok (a.str, string a) := if_neg hoff
      obtain ⟨-, rfl⟩ := Prod.mk.inj (Except.ok.inj (hsame.symm.trans hstring))
      exact ⟨h, .inl (by omega)⟩

end ByteIterator

/-! ### The strings of a map -/

/-- The entries of a map of values, in the order of `entrySet()`. -/
abbrev Entries := List (Sigma fun _ : Utf16 => ByteIterator)

/-- The names and strings of `StringByteIterator.getStringMap(values)`, and the entries after it. -/
def getStringMap : Entries → Except Throwable (List (Utf16 × Utf16) × Entries)
  | [] => .ok ([], [])
  | ⟨name, it⟩ :: entries => do
    let (s, it) ← it.toString
    let (strings, entries) ← getStringMap entries
    .ok ((name, s) :: strings, ⟨name, it⟩ :: entries)

theorem getStringMap_of_readable {entries : Entries} (h : ∀ e ∈ entries, ∃ r, e.2.toString = .ok r) : ∃ r, getStringMap entries = .ok r := by
  induction entries with
  | nil => exact ⟨_, rfl⟩
  | cons e entries ih =>
    obtain ⟨⟨o, ho⟩, hrest⟩ := List.forall_mem_cons.mp h
    obtain ⟨r, hr⟩ := ih hrest
    refine ⟨((e.1, o.1) :: r.1, ⟨e.1, o.2⟩ :: r.2), ?_⟩
    rw [getStringMap, bind_ok ho]
    dsimp only
    rw [bind_ok hr]

theorem readable_of_getStringMap {entries : Entries} {r : List (Utf16 × Utf16) × Entries} (h : getStringMap entries = .ok r) :
    ∀ e ∈ entries, ∃ r, e.2.toString = .ok r := by
  induction entries generalizing r with
  | nil => exact fun e he => absurd he List.not_mem_nil
  | cons e entries ih =>
    obtain ⟨o, ho, h⟩ := bind_inv h
    obtain ⟨o', ho', -⟩ := bind_inv h
    exact List.forall_mem_cons.mpr ⟨⟨o, ho⟩, ih ho'⟩

/-- What has been read can be read again, and from then on gives the same; the first time it does just if every value can be read again. -/
theorem getStringMap_again {entries entries' : Entries} {fields : List (Utf16 × Utf16)} (hmade : ∀ e ∈ entries, e.2.WellMade)
    (h : getStringMap entries = .ok (fields, entries')) :
    (∀ e ∈ entries', e.2.WellMade ∧ e.2.Rereadable) ∧
      ∃ fields' entries'', getStringMap entries' = .ok (fields', entries'') ∧ (fields' = fields ↔ ∀ e ∈ entries, e.2.Rereadable) := by
  induction entries generalizing fields entries' with
  | nil =>
    cases h
    exact ⟨fun e he => absurd he List.not_mem_nil, [], [], rfl, iff_of_true rfl fun e he => absurd he List.not_mem_nil⟩
  | cons e entries ih =>
    obtain ⟨hm, hmade⟩ := List.forall_mem_cons.mp hmade
    obtain ⟨⟨s, it⟩, hs, h⟩ := bind_inv h
    obtain ⟨⟨fields₁, entries₁⟩, hrest, h⟩ := bind_inv h
    cases h
    obtain ⟨hafter, fields₂, entries₂, hagain, hsame⟩ := ih hmade hrest
    obtain ⟨s', it', hs', hsame'⟩ := ByteIterator.toString_again hm hs
    refine ⟨List.forall_mem_cons.mpr ⟨ByteIterator.toString_after hm hs, hafter⟩, (e.1, s') :: fields₂, ⟨e.1, it'⟩ :: entries₂, ?_, ?_⟩
    · rw [getStringMap, bind_ok hs']
      dsimp only
      rw [bind_ok hagain]
    · rw [List.cons.injEq, Prod.mk.injEq, List.forall_mem_cons, hsame, hsame']
      simp

theorem keys_getStringMap {entries : Entries} {r : List (Utf16 × Utf16) × Entries} (h : getStringMap entries = .ok r) :
    r.1.map Prod.fst = entries.map Sigma.fst := by
  induction entries generalizing r with
  | nil =>
    cases h
    rfl
  | cons e entries ih =>
    obtain ⟨o, -, h⟩ := bind_inv h
    obtain ⟨o', ho', h⟩ := bind_inv h
    cases h
    exact congrArg (e.1 :: ·) (ih ho')

/-- Each value has its text in it. -/
theorem mem_getStringMap {entries : Entries} {r : List (Utf16 × Utf16) × Entries} (h : getStringMap entries = .ok r)
    {e : Sigma fun _ : Utf16 => ByteIterator} (he : e ∈ entries) : ∃ s it', e.2.toString = .ok (s, it') ∧ (e.1, s) ∈ r.1 := by
  induction entries generalizing r with
  | nil => exact absurd he List.not_mem_nil
  | cons e' entries ih =>
    obtain ⟨o, ho, h⟩ := bind_inv h
    obtain ⟨o', ho', h⟩ := bind_inv h
    cases h
    rcases List.mem_cons.mp he with rfl | he
    · exact ⟨o.1, o.2, ho, List.mem_cons_self⟩
    · obtain ⟨s, it', hs, hmem⟩ := ih ho' he
      exact ⟨s, it', hs, List.mem_cons_of_mem _ hmem⟩

end YcsbIvs.Core
