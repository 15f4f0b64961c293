import YcsbIvs.Core.Consumption

/-!
# The accounts of random bytes

A `RandomByteIterator` keeps its place in two parts: `off` bytes have been handed out, and then the first `bufOff` of the six in `buf`. `nextByte`
moves `bufOff`, and `off` when the six are used up; `nextBuf` moves `off`, and compares the room there is with `len – off`, whatever `bufOff` is; `reset`
sets `off` to zero, and leaves `bufOff`.

So the accounts are kept **just when no `nextBuf` that comes after a `nextByte` asks for more than is left** (`delivers_iff`), and `reset` gives all the bytes back just
when there has been no `nextByte` (`resets_iff`). A buffer's offset has to lie in the buffer, unless nothing is left to put there. A buffer of `2³¹ – 1`
bytes can not be filled: the `int` that counts the bytes in steps of six wraps around.

The methods are those of `RandomByteIterator`, with the indices of the buffer checked (`Checked`); no `long` wraps around as long as the accounts are kept.
-/

namespace YcsbIvs.Core

open YcsbIvs.Foundations

namespace RandomByteIterator

/-- An array of bytes. -/
abbrev Buffer := {bs : Bytes // bs.length < 2 ^ 31}

/-- `reset()`. -/
def reset (it : RandomByteIterator) : RandomByteIterator := { it with off := 0 }

/-! ### Filling a buffer -/

namespace Checked

/-- `fillBytesImpl(buffer, base)`: whatever the buffer has room for, `buffer[base + 0]` is written last. -/
def fillBytesImpl (bytes : UInt32) (buffer : Bytes) (base : ℤ) : Except Throwable Bytes :=
  if 0 ≤ base ∧ base ≤ buffer.length then .ok (RandomByteIterator.fillBytesImpl bytes buffer base.toNat)
  else .error .arrayIndexOutOfBounds

/-- The loop of `nextBuf` from `i` on, at most `fuel` rounds of it. -/
def fillLoop (ret bufOffset : ℤ) : ℕ → (ℕ → UInt32) → Bytes → ℤ → Except Throwable Bytes
  | 0, _, _, _ => .error .nonTermination
  | fuel + 1, draws, buffer, i =>
    if i < ret then do
      let buffer ← fillBytesImpl (draws 0) buffer (asInt (i + bufOffset))
      fillLoop ret bufOffset fuel (fun j => draws (j + 1)) buffer (asInt (i + 6))
    else .ok buffer

/-- `nextBuf(buffer, bufOffset)`: the new offset, the buffer and the iterator after it. -/
def nextBuf (it : RandomByteIterator) (buffer : Bytes) (bufOffset : ℤ) : Except Throwable (ℤ × Bytes × RandomByteIterator) := do
  let room := asInt (buffer.length - bufOffset)
  let ret := if it.len - it.off < room then asInt (it.len - it.off) else room
  let n := (ret.toNat + 5) / 6
  let buffer ← fillLoop ret bufOffset (n + 2) it.draws buffer 0
  .ok (asInt (ret + bufOffset), buffer, { it with off := it.off + ret, draws := fun i => it.draws (i + n) })

/-- The loop of `toArray`, at most `fuel` rounds of it. -/
def toArrayLoop : ℕ → Bytes → ℤ → RandomByteIterator → Except Throwable (Bytes × RandomByteIterator)
  | 0, _, _, _ => .error .nonTermination
  | fuel + 1, ret, bufOffset, it =>
    if bufOffset < ret.length then do
      let (bufOffset, ret, it) ← nextBuf it ret bufOffset
      toArrayLoop fuel ret bufOffset it
    else .ok (ret, it)

/-- `toArray()`, if what is left fits an array. -/
def toArray (it : RandomByteIterator) : Except Throwable (Bytes × RandomByteIterator) :=
  let left := it.bytesLeft
  if left < 0 then .error .negativeArraySize
  else toArrayLoop 2 (List.replicate left.toNat 0) 0 it

end Checked

/-! ### Calls -/

/-- A call that reads. -/
inductive Call where
  /-- `nextByte()`. -/
  | nextByte
  /-- `nextBuf(buffer, bufOffset)`. -/
  | nextBuf (buffer : Buffer) (bufOffset : Word)
  /-- `toArray()`. -/
  | toArray

/-- An iterator in use. -/
structure Reading where
  /-- The iterator. -/
  it : RandomByteIterator
  /-- The bytes it has given. -/
  delivered : Bytes
  /-- How many it has been asked for. -/
  requested : ℤ
  /-- What its calls have thrown. -/
  thrown : List Throwable

namespace Reading

/-- A new iterator. -/
def start (len : ℤ) (draws : ℕ → UInt32) : Reading := ⟨ofLength len draws, [], 0, []⟩

/-- What a call that asks for so many bytes has given. -/
def got (s : Reading) (asked : ℤ) : Except Throwable (Bytes × RandomByteIterator) → Reading
  | .ok (bs, it) => ⟨it, s.delivered ++ bs, s.requested + asked, s.thrown⟩
  | .error e => { s with thrown := e :: s.thrown }

/-- One call. There is no `nextByte` unless `hasNext()`, and `toArray` refuses to make an array of more than fits one. -/
def step (s : Reading) : Call → Option Reading
  | .nextByte => if s.it.hasNext then some (s.got 1 (s.it.nextByte.map fun r => ([r.1], r.2))) else none
  | .nextBuf buffer bufOffset =>
    some (s.got (max 0 (buffer.1.length - bufOffset.1)) ((Checked.nextBuf s.it buffer.1 bufOffset.1).map fun r =>
      ((r.2.1.drop bufOffset.1.toNat).take (r.1 - bufOffset.1).toNat, r.2.2)))
  | .toArray => if s.it.bytesLeft ≠ asInt s.it.bytesLeft then some s else some (s.got s.it.bytesLeft (Checked.toArray s.it))

end Reading

/-! ### What is promised -/

/-- A byte from the space character on. -/
def Printable (b : UInt8) : Prop := 32 ≤ b.toNat ∧ b.toNat ≤ 127

/-- The accounts are in order. -/
structure Accounted (len : ℤ) (s : Reading) : Prop where
  /-- As many bytes have been given as were asked for, or all. -/
  delivered : (s.delivered.length : ℤ) = min len s.requested
  /-- The others are left. -/
  bytesLeft : s.it.bytesLeft = len - s.delivered.length
  /-- They are not fewer than none. -/
  nonneg : 0 ≤ s.it.bytesLeft
  /-- Each is a printable one. -/
  printable : ∀ b ∈ s.delivered, Printable b
  /-- No index was out of range. -/
  inRange : s.thrown = []

/-- `reset()` gives all the bytes back. -/
def Resets (len : ℤ) (s : Reading) : Prop := s.it.reset.bytesLeft = len

/-- A buffer that can be filled: its offset lies in it, it does not take `2³¹ – 1` bytes at once, and it has no more room than there are bytes left, if
one of the six in `buf` has been handed out. An offset below zero will do if nothing is left from `off` on. -/
def Fits (it : RandomByteIterator) (buffer : Buffer) (bufOffset : Word) : Prop :=
  (0 ≤ bufOffset.1 ∧ bufOffset.1 ≤ buffer.1.length ∧ (it.bufOff = 0 ∨ buffer.1.length - bufOffset.1 ≤ it.bytesLeft) ∧
      min (buffer.1.length - bufOffset.1) it.bytesLeft ≠ 2 ^ 31 - 1) ∨
    (bufOffset.1 < 0 ∧ buffer.1.length - bufOffset.1 < 2 ^ 31 ∧ it.bytesLeft = 0 ∧ it.bufOff = 0)

/-- A call that keeps the accounts. -/
def Keeps (s : Reading) : Call → Prop
  | .nextByte => True
  | .nextBuf buffer bufOffset => Fits s.it buffer bufOffset
  | .toArray => s.it.bytesLeft ≠ 2 ^ 31 - 1

/-! ### What is written -/

theorem printable_of_le {x : UInt32} (h : x.toNat ≤ 95) : Printable (x.toUInt8 + 32) := by
  have hx : (x.toUInt8 + 32).toNat = x.toNat + 32 := by
    rw [UInt8.toNat_add, UInt32.toNat_toUInt8]
    simp only [UInt8.reduceToNat]
    omega
  rw [Printable, hx]
  omega

/-- The six bytes of a draw are printable: no mask lets through more than `95`. -/
theorem printable_drawBytes {bytes : UInt32} {b : UInt8} (h : b ∈ drawBytes bytes) : Printable b := by
  have hand : ∀ x m : UInt32, m.toNat ≤ 95 → Printable ((x &&& m).toUInt8 + 32) := fun x m hm =>
    printable_of_le (by rw [UInt32.toNat_and]; exact Nat.and_le_right.trans hm)
  simp only [drawBytes, List.mem_cons, List.not_mem_nil, or_false] at h
  rcases h with rfl | rfl | rfl | rfl | rfl | rfl <;> exact hand _ _ (by decide)

/-- The bytes of a buffer between two offsets are printable. -/
def PrintableOn (buffer : Bytes) (lo hi : ℕ) : Prop := ∀ i b, lo ≤ i → i < hi → buffer[i]? = some b → Printable b

theorem printableOn_self (buffer : Bytes) (lo : ℕ) : PrintableOn buffer lo lo := fun _ _ hlo hhi => absurd hhi (not_lt.mpr hlo)

/-- The bytes of a slice are bytes of the buffer. -/
theorem PrintableOn.slice {buffer : Bytes} {lo n : ℕ} (h : PrintableOn buffer lo (lo + n)) : ∀ b ∈ (buffer.drop lo).take n, Printable b := by
  intro b hb
  obtain ⟨i, hi⟩ := List.mem_iff_getElem?.mp hb
  rw [List.getElem?_take] at hi
  split_ifs at hi with hlt
  rw [List.getElem?_drop] at hi
  exact h (lo + i) b (Nat.le_add_right _ _) (Nat.add_lt_add_left hlt lo) hi

/-- The bytes of a draw go on where the ones before end. -/
theorem printableOn_fillBytesImpl {buffer : Bytes} {lo base : ℕ} (h : PrintableOn buffer lo base) (bytes : UInt32) :
    PrintableOn (RandomByteIterator.fillBytesImpl bytes buffer base) lo (base + 6) := by
  intro i b hlo hhi hb
  rw [RandomByteIterator.fillBytesImpl, List.append_assoc] at hb
  by_cases hi : i < base
  · rw [List.getElem?_append, List.length_take] at hb
    split_ifs at hb with hlt
    · rw [List.getElem?_take, if_pos hi] at hb
      exact h i b hlo hi hb
    · rw [show buffer.length - base = 0 by omega, Nat.min_zero, List.take_zero, List.nil_append, Nat.add_zero,
        List.drop_eq_nil_of_le (by omega)] at hb
      cases hb
  · rw [List.getElem?_append_right (by rw [List.length_take]; omega), List.length_take] at hb
    by_cases hlen : base ≤ buffer.length
    · rw [Nat.min_eq_left hlen, List.getElem?_append, List.length_take] at hb
      split_ifs at hb with hlt
      · exact printable_drawBytes (List.mem_of_mem_take (List.mem_of_getElem? hb))
      · rw [List.drop_eq_nil_of_le (by simp only [drawBytes, List.length_cons, List.length_nil] at hlt; omega)] at hb
        cases hb
    · rw [show buffer.length - base = 0 by omega, Nat.min_zero, List.take_zero, List.nil_append, Nat.add_zero,
        List.drop_eq_nil_of_le (by omega)] at hb
      cases hb

theorem printableOn_fillLoop {buffer : Bytes} {lo base : ℕ} (h : PrintableOn buffer lo base) (draws : ℕ → UInt32) (n : ℕ) :
    PrintableOn (RandomByteIterator.fillLoop draws n buffer base) lo (base + 6 * n) := by
  induction n generalizing draws buffer base with
  | zero => exact h
  | succ n ih =>
    rw [RandomByteIterator.fillLoop, Nat.mul_succ, Nat.add_comm (6 * n) 6, ← Nat.add_assoc]
    exact ih (printableOn_fillBytesImpl h _) _

namespace Checked

/-! ### The loop of `nextBuf` -/

theorem fillBytesImpl_ok (bytes : UInt32) {buffer : Bytes} {base : ℕ} (h : base ≤ buffer.length) :
    fillBytesImpl bytes buffer base = .ok (RandomByteIterator.fillBytesImpl bytes buffer base) :=
  if_pos ⟨Int.natCast_nonneg base, Int.ofNat_le.mpr h⟩

/-- The loop fills what is asked for, if that is in the buffer. The induction is on the rounds to go. -/
theorem fillLoop_ok {ret o : ℕ} (hret : ret < 2 ^ 31 - 1) {n : ℕ} {draws : ℕ → UInt32} {buffer : Bytes} {i fuel : ℕ} (hsix : i % 6 = 0)
    (hn : n = (ret - i + 5) / 6) (hfuel : n < fuel) (hlen : buffer.length < 2 ^ 31) (hroom : o + ret ≤ buffer.length) :
    fillLoop ret o fuel draws buffer i = .ok (RandomByteIterator.fillLoop draws n buffer (i + o)) := by
  obtain ⟨fuel, rfl⟩ := Nat.exists_eq_succ_of_ne_zero (Nat.ne_zero_of_lt hfuel)
  induction n generalizing draws buffer i fuel with
  | zero => rw [Nat.succ_eq_add_one, fillLoop, if_neg (by omega), RandomByteIterator.fillLoop]
  | succ n ih =>
    obtain ⟨fuel, rfl⟩ := Nat.exists_eq_succ_of_ne_zero (show fuel ≠ 0 by omega)
    have hbase : asInt ((i : ℤ) + o) = (i + o : ℕ) := by
      rw [asInt_of_fits (by unfold FitsInt; omega), Int.natCast_add]
    have hi : asInt ((i : ℤ) + 6) = (i + 6 : ℕ) := by
      rw [asInt_of_fits (by unfold FitsInt; omega), Int.natCast_add]
      rfl
    have hlength := length_fillBytesImpl (draws 0) buffer (i + o)
    rw [Nat.succ_eq_add_one, fillLoop, if_pos (by omega), hbase, hi, bind_ok (fillBytesImpl_ok (draws 0) (by omega)),
      RandomByteIterator.fillLoop, Nat.add_right_comm i o 6]
    exact ih (by omega) (by omega) (hlength ▸ hlen) (hlength ▸ hroom) fuel (by omega)

/-- Filling `2³¹ – 1` bytes, the count wraps around in the end. -/
theorem fillLoop_wraps {ret : ℕ} (hret : ret + 1 = 2 ^ 31) {n : ℕ} {draws : ℕ → UInt32} {buffer : Bytes} {i fuel : ℕ} (hsix : i % 6 = 0) (hi : i < ret)
    (hn : n = (ret - i + 5) / 6) (hfuel : n < fuel) (hlen : ret ≤ buffer.length) :
    fillLoop ret 0 fuel draws buffer i = .error .arrayIndexOutOfBounds := by
  obtain ⟨fuel, rfl⟩ := Nat.exists_eq_succ_of_ne_zero (Nat.ne_zero_of_lt hfuel)
  induction n generalizing draws buffer i fuel with
  | zero => omega
  | succ n ih =>
    obtain ⟨fuel, rfl⟩ := Nat.exists_eq_succ_of_ne_zero (show fuel ≠ 0 by omega)
    have hbase : asInt ((i : ℤ) + 0) = i := by
      rw [Int.add_zero, asInt_of_fits (by unfold FitsInt; omega)]
    have hlength := length_fillBytesImpl (draws 0) buffer i
    rw [Nat.succ_eq_add_one, fillLoop, if_pos (by omega), hbase, bind_ok (fillBytesImpl_ok (draws 0) (by omega))]
    by_cases hlast : i + 6 < 2 ^ 31
    · have hnext : asInt ((i : ℤ) + 6) = (i + 6 : ℕ) := by
        rw [asInt_of_fits (by unfold FitsInt; omega), Int.natCast_add]
        rfl
      rw [hnext]
      exact ih (by omega) (by omega) (by omega) (hlength ▸ hlen) fuel (by omega)
    · have hnext : asInt ((i : ℤ) + 6) < 0 := by
        unfold asInt
        omega
      have hbelow : ¬ 0 ≤ asInt (asInt ((i : ℤ) + 6) + 0) := by
        rw [Int.add_zero, asInt_of_fits (fitsInt_asInt _)]
        exact not_le.mpr hnext
      rw [fillLoop, if_pos (hnext.trans_le (Int.natCast_nonneg ret)), fillBytesImpl, if_neg fun h => hbelow h.1]
      rfl

/-- An offset below zero is not in the buffer. -/
theorem fillLoop_below {ret : ℤ} (hret : 0 < ret) {o : ℤ} (ho : o < 0) (hfits : FitsInt o) (fuel : ℕ) (draws : ℕ → UInt32) (buffer : Bytes) :
    fillLoop ret o (fuel + 1) draws buffer 0 = .error .arrayIndexOutOfBounds := by
  rw [fillLoop, if_pos hret, Int.zero_add, asInt_of_fits hfits, fillBytesImpl, if_neg fun h => not_le.mpr ho h.1]
  rfl

/-- There is nothing to fill. -/
theorem fillLoop_none {ret : ℤ} (hret : ret ≤ 0) (o : ℤ) (fuel : ℕ) (draws : ℕ → UInt32) (buffer : Bytes) :
    fillLoop ret o (fuel + 1) draws buffer 0 = .ok buffer := by rw [fillLoop, if_neg (not_lt.mpr hret)]

/-! ### `nextBuf` and `toArray` -/

variable {it : RandomByteIterator} {buffer : Bytes}

/-- What is left after `off` has been moved. -/
theorem bytesLeft_moved (it : RandomByteIterator) (k : ℤ) (draws' : ℕ → UInt32) :
    bytesLeft { it with off := it.off + k, draws := draws' } = it.bytesLeft - k := by
  simp only [bytesLeft]
  omega

/-- How many bytes `nextBuf` puts into the buffer: what is left from `off` on, or what there is room for. -/
theorem ret_eq {room : ℤ} (hroom : room < 2 ^ 31) (hleft : 0 ≤ it.len - it.off) :
    (if it.len - it.off < room then asInt (it.len - it.off) else room) = min room (it.len - it.off) := by
  split_ifs with h
  · rw [asInt_of_fits (by unfold FitsInt; omega), min_eq_right h.le]
  · rw [min_eq_left (not_lt.mp h)]

/-- With the offset in the buffer no index is checked in vain, but when `2³¹ – 1` bytes are asked for at once. -/
theorem nextBuf_eq {o r : ℕ} (hlen : buffer.length < 2 ^ 31) (ho : o ≤ buffer.length)
    (hr : (r : ℤ) = min (buffer.length - o : ℤ) (it.len - it.off)) (hfew : r < 2 ^ 31 - 1) :
    nextBuf it buffer o = .ok (it.nextBuf buffer o) := by
  have hroom : asInt ((buffer.length : ℤ) - o) = buffer.length - o := asInt_of_fits (by unfold FitsInt; omega)
  have hsum : asInt ((r : ℤ) + o) = r + o := asInt_of_fits (by unfold FitsInt; omega)
  rw [nextBuf, hroom, RandomByteIterator.nextBuf, ret_eq (by omega) (by omega), ← hr, Int.toNat_natCast, ← Int.natCast_zero,
    bind_ok (fillLoop_ok hfew rfl rfl (by omega) hlen (by omega)), hsum, Nat.zero_add]
  rfl

theorem nextBuf_ok {o r : ℕ} (hlen : buffer.length < 2 ^ 31) (ho : o ≤ buffer.length)
    (hr : (r : ℤ) = min (buffer.length - o : ℤ) (it.len - it.off)) (hfew : r < 2 ^ 31 - 1) :
    ∃ buffer' draws', nextBuf it buffer o = .ok (r + o, buffer', { it with off := it.off + r, draws := draws' }) ∧
      buffer'.length = buffer.length ∧ PrintableOn buffer' o (o + r) := by
  refine ⟨RandomByteIterator.fillLoop it.draws ((r + 5) / 6) buffer o, fun i => it.draws (i + (r + 5) / 6), ?_, length_fillLoop _ _ _ _, ?_⟩
  · rw [nextBuf_eq hlen ho hr hfew, RandomByteIterator.nextBuf, ret_eq (by omega) (by omega), ← hr, Int.toNat_natCast]
  · intro i b hlo hhi hb
    exact printableOn_fillLoop (printableOn_self buffer o) _ _ i b hlo (by omega) hb

theorem nextBuf_wraps {o r : ℕ} (hlen : buffer.length < 2 ^ 31) (ho : o ≤ buffer.length)
    (hr : (r : ℤ) = min (buffer.length - o : ℤ) (it.len - it.off)) (hmany : ¬ r < 2 ^ 31 - 1) :
    nextBuf it buffer o = .error .arrayIndexOutOfBounds := by
  obtain rfl : o = 0 := by omega
  have hroom : asInt ((buffer.length : ℤ) - (0 : ℕ)) = buffer.length - (0 : ℕ) := asInt_of_fits (by unfold FitsInt; omega)
  have hloop : fillLoop r 0 ((r + 5) / 6 + 2) it.draws buffer (0 : ℕ) = .error .arrayIndexOutOfBounds :=
    fillLoop_wraps (n := (r + 5) / 6) (by omega) rfl (by omega) rfl (by omega) (by omega)
  rw [Int.natCast_zero] at hloop
  rw [nextBuf, hroom, ret_eq (by omega) (by omega), ← hr, Int.toNat_natCast, Int.natCast_zero, hloop]
  rfl

/-- Below the buffer there is nothing to write to. -/
theorem nextBuf_below {o : ℤ} (ho : o < 0) (hfits : FitsInt o) (hroom : buffer.length - o < 2 ^ 31) (hleft : 0 < it.len - it.off) :
    nextBuf it buffer o = .error .arrayIndexOutOfBounds := by
  have hroom' : asInt ((buffer.length : ℤ) - o) = buffer.length - o := asInt_of_fits (by unfold FitsInt; omega)
  rw [nextBuf, hroom', ret_eq hroom hleft.le, fillLoop_below (by omega) ho hfits]
  rfl

/-- Without room, or with nothing left, nothing is written, and `off` goes back by the room there is. -/
theorem nextBuf_none (it : RandomByteIterator) {o room : ℤ} (hroom : asInt (buffer.length - o) = room) (hfits : room < 2 ^ 31) (hleft : 0 ≤ it.len - it.off)
    (hnone : min room (it.len - it.off) ≤ 0) :
    ∃ draws', nextBuf it buffer o =
      .ok (asInt (min room (it.len - it.off) + o), buffer, { it with off := it.off + min room (it.len - it.off), draws := draws' }) := by
  rw [nextBuf, hroom, ret_eq hfits hleft, fillLoop_none hnone]
  exact ⟨_, rfl⟩

/-- What `nextBuf` leaves alone. -/
theorem nextBuf_frame {o : ℤ} {r : ℤ × Bytes × RandomByteIterator} (h : nextBuf it buffer o = .ok r) :
    r.2.2.len = it.len ∧ r.2.2.buf = it.buf ∧ r.2.2.bufOff = it.bufOff := by
  obtain ⟨buffer', -, h⟩ := bind_inv h
  cases h
  exact ⟨rfl, rfl, rfl⟩

theorem toArrayLoop_frame {fuel : ℕ} {ret : Bytes} {o : ℤ} {r : Bytes × RandomByteIterator} (h : toArrayLoop fuel ret o it = .ok r) :
    r.2.len = it.len ∧ r.2.buf = it.buf ∧ r.2.bufOff = it.bufOff := by
  induction fuel generalizing ret o it with
  | zero => cases h
  | succ fuel ih =>
    rw [toArrayLoop] at h
    split_ifs at h
    · obtain ⟨r', hr', h⟩ := bind_inv h
      obtain ⟨hlen, hbuf, hbufOff⟩ := nextBuf_frame hr'
      obtain ⟨hlen', hbuf', hbufOff'⟩ := ih h
      exact ⟨hlen'.trans hlen, hbuf'.trans hbuf, hbufOff'.trans hbufOff⟩
    · cases h
      exact ⟨rfl, rfl, rfl⟩

theorem toArray_frame {r : Bytes × RandomByteIterator} (h : toArray it = .ok r) : r.2.len = it.len ∧ r.2.buf = it.buf ∧ r.2.bufOff = it.bufOff := by
  rw [toArray] at h
  split_ifs at h
  exact toArrayLoop_frame h

/-- The array that `toArray` fills has room for what is left. -/
theorem room_toArray {left : ℕ} (hleft : it.bytesLeft = left) (hbufOff : 0 ≤ it.bufOff) :
    (left : ℤ) = min ((List.replicate left (0 : UInt8)).length - (0 : ℕ) : ℤ) (it.len - it.off) := by
  rw [bytesLeft] at hleft
  rw [List.length_replicate]
  omega

/-- `toArray` gives what is left. -/
theorem toArray_ok {left : ℕ} (hleft : it.bytesLeft = left) (hbufOff : 0 ≤ it.bufOff) (hfew : left < 2 ^ 31 - 1) :
    ∃ bs it', toArray it = .ok (bs, it') ∧ bs.length = left ∧ (∀ b ∈ bs, Printable b) ∧ it'.bytesLeft = 0 := by
  rw [toArray, hleft, if_neg (by omega), Int.toNat_natCast, toArrayLoop, List.length_replicate]
  by_cases hzero : left = 0
  · subst hzero
    exact ⟨[], it, rfl, rfl, fun _ hb => absurd hb List.not_mem_nil, hleft⟩
  · obtain ⟨buffer', draws', hbuf, hlength, hprint⟩ :=
      nextBuf_ok (by rw [List.length_replicate]; omega) (Nat.zero_le _) (room_toArray hleft hbufOff) hfew
    rw [List.length_replicate] at hlength
    rw [if_pos (by omega), ← Int.natCast_zero, bind_ok hbuf]
    dsimp only
    rw [toArrayLoop, if_neg (by omega)]
    refine ⟨_, _, rfl, hlength, fun b hb => ?_, ?_⟩
    · have hslice := hprint.slice b
      rw [List.drop_zero, List.take_of_length_le hlength.le] at hslice
      exact hslice hb
    · rw [bytesLeft] at hleft ⊢
      dsimp only
      omega

theorem toArray_wraps {left : ℕ} (hleft : it.bytesLeft = left) (hbufOff : 0 ≤ it.bufOff) (hmany : ¬ left < 2 ^ 31 - 1) (hlt : left < 2 ^ 31) :
    toArray it = .error .arrayIndexOutOfBounds := by
  rw [toArray, hleft, if_neg (by omega), Int.toNat_natCast, toArrayLoop, List.length_replicate, if_pos (by omega), ← Int.natCast_zero,
    nextBuf_wraps (by rw [List.length_replicate]; exact hlt) (Nat.zero_le _) (room_toArray hleft hbufOff) hmany]
  rfl

end Checked

/-! ### One call -/

/-- What no call changes. -/
structure InUse (len : ℤ) (s : Reading) : Prop where
  /-- The length. -/
  len : s.it.len = len
  /-- There are six bytes. -/
  length_buf : s.it.buf.length = 6
  /-- They are printable. -/
  printable : ∀ b ∈ s.it.buf, Printable b
  /-- Some of them have been handed out. -/
  bufOff : 0 ≤ s.it.bufOff ∧ s.it.bufOff ≤ 6

variable {len : ℤ} {s : Reading}

/-- The six bytes of a draw. -/
theorem fillBytesImpl_six (bytes : UInt32) {buf : Bytes} (h : buf.length = 6) :
    (fillBytesImpl bytes buf 0).length = 6 ∧ ∀ b ∈ fillBytesImpl bytes buf 0, Printable b := by
  refine ⟨(length_fillBytesImpl bytes buf 0).trans h, fun b hb => ?_⟩
  obtain ⟨i, hi⟩ := List.mem_iff_getElem?.mp hb
  have hlt := (List.getElem?_eq_some_iff.mp hi).1
  rw [length_fillBytesImpl, h] at hlt
  exact printableOn_fillBytesImpl (printableOn_self buf 0) bytes i b (Nat.zero_le i) (by omega) hi

theorem inUse_start (len : ℤ) (draws : ℕ → UInt32) : InUse len (.start len draws) :=
  have hsix := fillBytesImpl_six (draws 0) (List.length_replicate (n := 6) (a := (0 : UInt8)))
  ⟨rfl, hsix.1, hsix.2, le_refl _, Int.le.intro 6 rfl⟩

theorem accounted_start (h : 0 ≤ len) (draws : ℕ → UInt32) : Accounted len (.start len draws) := by
  refine ⟨?_, ?_, ?_, fun _ hb => absurd hb List.not_mem_nil, rfl⟩ <;> simp only [Reading.start, ofLength, bytesLeft, List.length_nil] <;> omega

/-- `fillBytes` leaves bytes to hand out. -/
theorem fillBytes_spec (hI : InUse len s) :
    s.it.fillBytes.len = len ∧ s.it.fillBytes.buf.length = 6 ∧ (∀ b ∈ s.it.fillBytes.buf, Printable b) ∧
      0 ≤ s.it.fillBytes.bufOff ∧ s.it.fillBytes.bufOff < 6 ∧ s.it.fillBytes.off + s.it.fillBytes.bufOff = s.it.off + s.it.bufOff := by
  obtain ⟨hlen, hbuf, hprint, hlo, hhi⟩ := hI
  have hsix := fillBytesImpl_six (s.it.draws 0) hbuf
  rw [fillBytes]
  split_ifs with hfull
  · exact ⟨hlen, hsix.1, hsix.2, le_refl _, by dsimp only; omega, by dsimp only; omega⟩
  · exact ⟨hlen, hbuf, hprint, hlo, by omega, rfl⟩

/-- `nextByte` gives a printable byte, whatever has been read. -/
theorem nextByte_spec (hI : InUse len s) :
    ∃ b it', s.it.nextByte = .ok (b, it') ∧ Printable b ∧ it'.len = len ∧ it'.buf.length = 6 ∧ (∀ b ∈ it'.buf, Printable b) ∧
      0 < it'.bufOff ∧ it'.bufOff ≤ 6 ∧ it'.off + it'.bufOff = s.it.off + s.it.bufOff + 1 := by
  obtain ⟨hlen, hbuf, hprint, hlo, hhi, hsum⟩ := fillBytes_spec hI
  have hlt : s.it.fillBytes.bufOff.toNat < s.it.fillBytes.buf.length := by omega
  refine ⟨s.it.fillBytes.buf[s.it.fillBytes.bufOff.toNat], { s.it.fillBytes with bufOff := s.it.fillBytes.bufOff + 1 }, ?_,
    hprint _ (List.getElem_mem hlt), hlen, hbuf, hprint, ?_, ?_, ?_⟩
  · rw [nextByte, List.getElem?_eq_getElem hlt]
  all_goals
    dsimp only
    omega

theorem Reading.inUse_got (hI : InUse len s) {asked : ℤ} {x : Except Throwable (Bytes × RandomByteIterator)}
    (h : ∀ r, x = .ok r → r.2.len = s.it.len ∧ r.2.buf = s.it.buf ∧ r.2.bufOff = s.it.bufOff) : InUse len (s.got asked x) := by
  cases x with
  | error e => exact ⟨hI.len, hI.length_buf, hI.printable, hI.bufOff⟩
  | ok r =>
    obtain ⟨hlen, hbuf, hbufOff⟩ := h r rfl
    exact ⟨hlen.trans hI.len, hbuf ▸ hI.length_buf, hbuf ▸ hI.printable, hbufOff ▸ hI.bufOff⟩

/-- Every call keeps what no call changes. -/
theorem Reading.inUse_step {s' : Reading} {c : Call} (hI : InUse len s) (h : s.step c = some s') : InUse len s' := by
  cases c with
  | nextByte =>
    rw [Reading.step] at h
    split_ifs at h
    cases h
    obtain ⟨b, it', hb, -, hlen, hbuf, hprint, hlo, hhi, -⟩ := nextByte_spec hI
    rw [hb]
    exact ⟨hlen, hbuf, hprint, hlo.le, hhi⟩
  | nextBuf buffer bufOffset =>
    cases h
    refine inUse_got hI fun r hr => ?_
    obtain ⟨r', hr', rfl⟩ := map_inv hr
    exact Checked.nextBuf_frame hr'
  | toArray =>
    rw [Reading.step] at h
    split_ifs at h <;> cases h
    · exact hI
    · exact inUse_got hI fun r hr => Checked.toArray_frame hr

/-- The accounts are kept by a call that gives as many bytes as it is asked for, or all that are left. -/
theorem accounted_got_iff (h : Accounted len s) {asked : ℤ} (hasked : 0 ≤ asked) {bs : Bytes} {it' : RandomByteIterator} :
    Accounted len (s.got asked (.ok (bs, it'))) ↔
      (bs.length : ℤ) = min asked s.it.bytesLeft ∧ it'.bytesLeft = s.it.bytesLeft - bs.length ∧ ∀ b ∈ bs, Printable b := by
  obtain ⟨hdelivered, hleft, hnonneg, hprint, hrange⟩ := h
  constructor
  · rintro ⟨hdelivered', hleft', -, hprint', -⟩
    simp only [Reading.got, List.length_append, Int.natCast_add] at hdelivered' hleft'
    exact ⟨by omega, by omega, fun b hb => hprint' b (List.mem_append_right _ hb)⟩
  · rintro ⟨hdelivered', hleft', hprint'⟩
    refine ⟨?_, ?_, ?_, ?_, hrange⟩
    · simp only [Reading.got, List.length_append, Int.natCast_add]
      omega
    · simp only [Reading.got, List.length_append, Int.natCast_add]
      omega
    · simp only [Reading.got]
      omega
    · exact fun b hb => (List.mem_append.mp hb).elim (hprint b) (hprint' b)

/-- They are not by one that throws. -/
theorem not_accounted_error (asked : ℤ) (e : Throwable) : ¬ Accounted len (s.got asked (.error e)) := fun h => nomatch h.inRange

/-- `nextByte` keeps the accounts. -/
theorem accounted_nextByte (hI : InUse len s) (h : Accounted len s) (hnext : s.it.hasNext = true) :
    Accounted len (s.got 1 (s.it.nextByte.map fun r => ([r.1], r.2))) := by
  obtain ⟨b, it', hb, hprint, hlen, -, -, -, -, hsum⟩ := nextByte_spec hI
  rw [hb]
  refine (accounted_got_iff h Int.one_nonneg).mpr ⟨?_, ?_, fun b' hb' => ?_⟩
  · rw [hasNext, decide_eq_true_eq] at hnext
    rw [bytesLeft, List.length_singleton]
    omega
  · rw [bytesLeft, bytesLeft, List.length_singleton, hlen, hI.len]
    dsimp only
    omega
  · obtain rfl := List.mem_singleton.mp hb'
    exact hprint

/-- `toArray` keeps the accounts, but for the greatest array. -/
theorem accounted_toArray_iff (hI : InUse len s) (h : Accounted len s) (hfits : s.it.bytesLeft < 2 ^ 31) :
    Accounted len (s.got s.it.bytesLeft (Checked.toArray s.it)) ↔ s.it.bytesLeft ≠ 2 ^ 31 - 1 := by
  obtain ⟨left, hleft⟩ := Int.eq_ofNat_of_zero_le h.nonneg
  by_cases hfew : left < 2 ^ 31 - 1
  · obtain ⟨bs, it', hok, hlength, hprint, hzero⟩ := Checked.toArray_ok hleft hI.bufOff.1 hfew
    rw [hok, accounted_got_iff h h.nonneg]
    exact iff_of_true ⟨by omega, by omega, hprint⟩ (by omega)
  · rw [Checked.toArray_wraps hleft hI.bufOff.1 hfew (by omega)]
    exact iff_of_false (not_accounted_error _ _) (by omega)

/-- The iterator in use after `nextBuf(buffer, bufOffset)`. -/
def Reading.gotBuf (s : Reading) (buffer : Bytes) (bufOffset : ℤ) : Reading :=
  s.got (max 0 (buffer.length - bufOffset)) ((Checked.nextBuf s.it buffer bufOffset).map fun r =>
    ((r.2.1.drop bufOffset.toNat).take (r.1 - bufOffset).toNat, r.2.2))

section NextBuf

variable {buffer : Bytes}

theorem left_eq (it : RandomByteIterator) : it.len - it.off = it.bytesLeft + it.bufOff := by
  rw [bytesLeft]
  omega

/-- The offset is in the buffer. -/
theorem accounted_gotBuf_inside (hI : InUse len s) (h : Accounted len s) (hlen : buffer.length < 2 ^ 31) {o : ℕ} (ho : o ≤ buffer.length) :
    Accounted len (s.gotBuf buffer o) ↔
      (s.it.bufOff = 0 ∨ (buffer.length : ℤ) - o ≤ s.it.bytesLeft) ∧ min ((buffer.length : ℤ) - o) s.it.bytesLeft ≠ 2 ^ 31 - 1 := by
  obtain ⟨hbufOff, -⟩ := hI.bufOff
  have hnonneg := h.nonneg
  have hoff := left_eq s.it
  obtain ⟨r, hr⟩ := Int.eq_ofNat_of_zero_le (show 0 ≤ min ((buffer.length : ℤ) - o) (s.it.len - s.it.off) by omega)
  rw [Reading.gotBuf]
  by_cases hfew : r < 2 ^ 31 - 1
  · obtain ⟨buffer', draws', hok, hlength, hprint⟩ := Checked.nextBuf_ok hlen ho hr.symm hfew
    have hslice : ((buffer'.drop o).take r).length = r := by
      rw [List.length_take, List.length_drop]
      omega
    rw [hok, Except.map, accounted_got_iff h (le_max_left _ _), Int.toNat_natCast, Int.add_sub_cancel, Int.toNat_natCast, hslice,
      Checked.bytesLeft_moved]
    constructor
    · rintro ⟨hr', -, -⟩
      constructor <;> omega
    · rintro ⟨hor, -⟩
      exact ⟨by omega, by omega, hprint.slice⟩
  · rw [Checked.nextBuf_wraps hlen ho hr.symm hfew]
    refine iff_of_false (not_accounted_error _ _) ?_
    rintro ⟨hor, hmany⟩
    omega

/-- It is below the buffer. -/
theorem accounted_gotBuf_below (hI : InUse len s) (h : Accounted len s) {o : ℤ} (ho : o < 0) (hfits : FitsInt o) (hroom : buffer.length - o < 2 ^ 31) :
    Accounted len (s.gotBuf buffer o) ↔ s.it.bytesLeft = 0 ∧ s.it.bufOff = 0 := by
  obtain ⟨hbufOff, -⟩ := hI.bufOff
  have hnonneg := h.nonneg
  have hoff := left_eq s.it
  have hroom' : asInt ((buffer.length : ℤ) - o) = buffer.length - o := asInt_of_fits (by unfold FitsInt; omega)
  rw [Reading.gotBuf]
  by_cases hleft : 0 < s.it.len - s.it.off
  · rw [Checked.nextBuf_below ho hfits hroom hleft]
    refine iff_of_false (not_accounted_error _ _) ?_
    rintro ⟨hzero, hbuf⟩
    omega
  · obtain ⟨draws', hok⟩ := Checked.nextBuf_none s.it hroom' hroom (by omega) (by omega)
    have hmin : min ((buffer.length : ℤ) - o) (s.it.len - s.it.off) = 0 := by omega
    rw [hmin, Int.zero_add, asInt_of_fits hfits] at hok
    rw [hok, Except.map, accounted_got_iff h (le_max_left _ _), Int.sub_self, Int.toNat_zero, List.take_zero, List.length_nil, Checked.bytesLeft_moved]
    exact iff_of_true ⟨by omega, rfl, fun b hb => absurd hb List.not_mem_nil⟩ ⟨by omega, by omega⟩

/-- There is less than no room. -/
theorem not_accounted_gotBuf (hI : InUse len s) (h : Accounted len s) {o : ℤ} (hback : asInt ((buffer.length : ℤ) - o) < 0) :
    ¬ Accounted len (s.gotBuf buffer o) := by
  obtain ⟨hbufOff, -⟩ := hI.bufOff
  have hnonneg := h.nonneg
  have hoff := left_eq s.it
  obtain ⟨draws', hok⟩ := Checked.nextBuf_none s.it rfl (hback.trans (by decide)) (by omega) (by omega)
  rw [Reading.gotBuf, hok, Except.map, accounted_got_iff h (le_max_left _ _), Checked.bytesLeft_moved]
  rintro ⟨-, hleft, -⟩
  omega

end NextBuf

/-- `nextBuf` keeps the accounts just if the buffer can be filled. -/
theorem accounted_nextBuf_iff (hI : InUse len s) (h : Accounted len s) (buffer : Buffer) (bufOffset : Word) :
    Accounted len (s.gotBuf buffer.1 bufOffset.1) ↔ Fits s.it buffer bufOffset := by
  obtain ⟨buffer, hlen⟩ := buffer
  obtain ⟨o, hfits⟩ := bufOffset
  rw [Fits]
  dsimp only
  by_cases hin : 0 ≤ o ∧ o ≤ buffer.length
  · obtain ⟨o, rfl⟩ := Int.eq_ofNat_of_zero_le hin.1
    refine Iff.trans ?_ (or_iff_left fun hneg => not_lt.mpr hin.1 hneg.1).symm
    rw [accounted_gotBuf_inside hI h hlen (Int.ofNat_le.mp hin.2)]
    exact ⟨fun hkeeps => ⟨hin.1, hin.2, hkeeps⟩, fun hkeeps => hkeeps.2.2⟩
  · rw [or_iff_right fun hkeeps => hin ⟨hkeeps.1, hkeeps.2.1⟩]
    by_cases hroom : o < 0 ∧ buffer.length - o < 2 ^ 31
    · rw [accounted_gotBuf_below hI h hroom.1 hfits hroom.2]
      exact ⟨fun hkeeps => ⟨hroom.1, hroom.2, hkeeps⟩, fun hkeeps => hkeeps.2.2⟩
    · have hback : asInt ((buffer.length : ℤ) - o) < 0 := by
        unfold FitsInt at hfits
        unfold asInt
        omega
      exact iff_of_false (not_accounted_gotBuf hI h hback) fun hkeeps => hroom ⟨hkeeps.1, hkeeps.2.1⟩

/-- **One call**: the accounts are kept just by those that keep them. -/
theorem accounted_step_iff {s' : Reading} {c : Call} (hI : InUse len s) (h : Accounted len s) (hstep : s.step c = some s') :
    Accounted len s' ↔ Keeps s c := by
  cases c with
  | nextByte =>
    rw [Reading.step] at hstep
    split_ifs at hstep with hnext
    cases hstep
    exact iff_of_true (accounted_nextByte hI h hnext) trivial
  | nextBuf buffer bufOffset =>
    cases hstep
    exact accounted_nextBuf_iff hI h buffer bufOffset
  | toArray =>
    rw [Reading.step] at hstep
    split_ifs at hstep with hmany
    · cases hstep
      refine iff_of_true h fun heq => hmany ?_
      rw [heq]
      rfl
    · cases hstep
      exact accounted_toArray_iff hI h (asInt_eq_self.mp (not_not.mp hmany).symm).2

/-- `reset` gives all the bytes back just after calls of the others. -/
theorem resets_step_iff {s' : Reading} {c : Call} (hI : InUse len s) (h : Resets len s) (hstep : s.step c = some s') :
    Resets len s' ↔ c ≠ .nextByte := by
  have hresets : ∀ {s : Reading}, InUse len s → (Resets len s ↔ s.it.bufOff = 0) := fun {s} hI => by
    rw [Resets, reset, bytesLeft]
    dsimp only
    have := hI.len
    omega
  rw [hresets (Reading.inUse_step hI hstep)]
  rw [hresets hI] at h
  have hkept : ∀ {asked : ℤ} {x : Except Throwable (Bytes × RandomByteIterator)}, (∀ r, x = .ok r → r.2.bufOff = s.it.bufOff) →
      (s.got asked x).it.bufOff = 0 := fun {asked x} hx => by
    cases x with
    | error e => exact h
    | ok r => exact (hx r rfl).trans h
  cases c with
  | nextByte =>
    rw [Reading.step] at hstep
    split_ifs at hstep
    cases hstep
    obtain ⟨b, it', hb, -, -, -, -, hlo, -⟩ := nextByte_spec hI
    rw [hb]
    exact iff_of_false hlo.ne' fun hne => hne rfl
  | nextBuf buffer bufOffset =>
    cases hstep
    refine iff_of_true (hkept fun r hr => ?_) Call.noConfusion
    obtain ⟨r', hr', rfl⟩ := map_inv hr
    exact (Checked.nextBuf_frame hr').2.2
  | toArray =>
    rw [Reading.step] at hstep
    split_ifs at hstep <;> cases hstep
    · exact iff_of_true h Call.noConfusion
    · exact iff_of_true (hkept fun r hr => (Checked.toArray_frame hr).2.2) Call.noConfusion

/-! ### Any number of calls -/

variable {draws : ℕ → UInt32} {calls : List Call} {t : Reading}

/-- **When the accounts are in order throughout**: when every buffer can be filled. -/
theorem delivers_iff (h : 0 ≤ len) (hrun : exec Reading.step (.start len draws) calls = some t) :
    Always Reading.step (Accounted len) (.start len draws) calls ↔ Meets Reading.step Keeps (.start len draws) calls :=
  always_iff_meets (I := InUse len) (fun _ _ _ hI hs => Reading.inUse_step hI hs) (fun _ _ _ hI hP hs => accounted_step_iff hI hP hs)
    (inUse_start len draws) (accounted_start h draws) hrun

/-- **When `reset` would give all the bytes back**: before the first `nextByte`. -/
theorem resets_iff (hrun : exec Reading.step (.start len draws) calls = some t) :
    Always Reading.step (Resets len) (.start len draws) calls ↔ Meets Reading.step (fun _ c => c ≠ .nextByte) (.start len draws) calls :=
  always_iff_meets (I := InUse len) (fun _ _ _ hI hs => Reading.inUse_step hI hs) (fun _ _ _ hI hP hs => resets_step_iff hI hP hs)
    (inUse_start len draws) (by simp [Resets, reset, bytesLeft, Reading.start, ofLength]) hrun

/-- **When both are so throughout**: without a `nextByte`, and with buffers that can be filled. -/
theorem accounts_iff (h : 0 ≤ len) (hrun : exec Reading.step (.start len draws) calls = some t) :
    Always Reading.step (fun s => Accounted len s ∧ Resets len s) (.start len draws) calls ↔
      Meets Reading.step (fun s c => Keeps s c ∧ c ≠ .nextByte) (.start len draws) calls :=
  always_iff_meets (I := InUse len) (fun _ _ _ hI hs => Reading.inUse_step hI hs)
    (fun _ _ _ hI hP hs => and_congr (accounted_step_iff hI hP.1 hs) (resets_step_iff hI hP.2 hs))
    (inUse_start len draws) ⟨accounted_start h draws, by simp [Resets, reset, bytesLeft, Reading.start, ofLength]⟩ hrun

/-- One byte, taken as an array. -/
theorem accounts_iff_one :
    Always Reading.step (fun s => Accounted 1 s ∧ Resets 1 s) (.start 1 fun _ => 0) [.toArray] ↔
      Meets Reading.step (fun s c => Keeps s c ∧ c ≠ .nextByte) (.start 1 fun _ => 0) [.toArray] :=
  accounts_iff (by decide) (show exec Reading.step (.start 1 fun _ => 0) [.toArray] = some _ from rfl)

/-- An iterator of one byte gives it to `nextByte`, and then another to `nextBuf`; and after the `nextByte`, `reset` does not give it back. -/
theorem not_accounts :
    ¬ Always Reading.step (Accounted 1) (.start 1 fun _ => 0) [.nextByte, .nextBuf ⟨[0], by decide⟩ ⟨0, by decide⟩] ∧
      ¬ Always Reading.step (Resets 1) (.start 1 fun _ => 0) [.nextByte] := by
  constructor
  · intro h
    exact absurd (h.last rfl).nonneg (by decide)
  · intro h
    exact absurd (h.last rfl) (by rw [Resets]; decide)

end RandomByteIterator

end YcsbIvs.Core
