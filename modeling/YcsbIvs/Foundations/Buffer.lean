import YcsbIvs.Foundations.Runs
import YcsbIvs.Foundations.Utf
import YcsbIvs.Foundations.Words

/-!
# Byte buffers

A byte buffer is a cursor in an array of fixed length, for reading and for writing. Numbers
take four bytes, most significant first. Whatever would go past the end of the array
throws.

A buffer whose array is `pre ++ post`, with the cursor between the two, is `cut pre post`.
The lemmas say what each operation makes of it: reading and skipping move bytes from the
front of `post` to the end of `pre`, and writing puts bytes at the end of `pre` for as many of
`post`.
-/

namespace YcsbIvs.Foundations

/-- What an operation on a buffer or an array throws. -/
inductive BufferError where
  /-- A read past the end. -/
  | underflow
  /-- A write past the end. -/
  | overflow
  /-- A position out of the array. -/
  | illegalArgument
  /-- A slice or an index out of the array. -/
  | indexOutOfBounds
  /-- An array of negative length. -/
  | negativeArraySize
  deriving DecidableEq, Repr

/-- A cursor in an array. -/
structure ByteBuffer where
  /-- The array. -/
  array : Bytes
  /-- The cursor. -/
  position : ℕ

namespace ByteBuffer

/-- A buffer over an array. -/
def wrap (array : Bytes) : ByteBuffer := ⟨array, 0⟩

/-- Read a number. -/
def getInt (b : ByteBuffer) : Except BufferError (ℤ × ByteBuffer) :=
  match b.array.drop b.position with
  | b₀ :: b₁ :: b₂ :: b₃ :: _ => .ok (Foundations.getInt b₀ b₁ b₂ b₃, { b with position := b.position + 4 })
  | _ => .error .underflow

/-- Move the cursor. -/
def setPosition (b : ByteBuffer) (n : ℤ) : Except BufferError ByteBuffer :=
  if n < 0 ∨ b.array.length < n then .error .illegalArgument else .ok { b with position := n.toNat }

/-- Write bytes. -/
def putBytes (b : ByteBuffer) (bs : Bytes) : Except BufferError ByteBuffer :=
  if b.array.length < b.position + bs.length then .error .overflow
  else .ok ⟨b.array.take b.position ++ bs ++ b.array.drop (b.position + bs.length), b.position + bs.length⟩

/-- Write a number. -/
def putInt (b : ByteBuffer) (n : ℤ) : Except BufferError ByteBuffer := b.putBytes (Foundations.putInt n)

/-- Write a slice of an array. -/
def put (b : ByteBuffer) (src : Bytes) (offset length : ℤ) : Except BufferError ByteBuffer :=
  if offset < 0 ∨ length < 0 ∨ src.length < offset + length then .error .indexOutOfBounds
  else b.putBytes ((src.drop offset.toNat).take length.toNat)

/-- The buffer with the cursor between `pre` and `post`. -/
def cut (pre post : Bytes) : ByteBuffer := ⟨pre ++ post, pre.length⟩

@[simp] theorem position_cut (pre post : Bytes) : (cut pre post).position = pre.length := rfl

@[simp] theorem array_cut (pre post : Bytes) : (cut pre post).array = pre ++ post := rfl

theorem wrap_eq (array : Bytes) : wrap array = cut [] array := rfl

/-- A number is read off the front of what follows. -/
theorem getInt_cut {n : ℤ} (h : FitsInt n) (pre post : Bytes) :
    (cut pre (Foundations.putInt n ++ post)).getInt = .ok (n, cut (pre ++ Foundations.putInt n) post) := by
  obtain ⟨b₀, b₁, b₂, b₃, hput, hget⟩ := getInt_putInt h
  rw [getInt, hput]
  simp [cut, hget]

/-- Moving the cursor past some bytes. -/
theorem setPosition_cut {n : ℤ} (pre bs post : Bytes) (h : n = pre.length + bs.length) :
    (cut pre (bs ++ post)).setPosition n = .ok (cut (pre ++ bs) post) := by
  subst h
  rw [setPosition, if_neg]
  · have hnat : ((pre.length : ℤ) + bs.length).toNat = (pre ++ bs).length := by
      rw [List.length_append]
      omega
    rw [hnat]
    simp [cut]
  · simp only [array_cut, List.length_append]
    omega

/-- Moving the cursor to the start. -/
theorem setPosition_zero (b : ByteBuffer) : b.setPosition 0 = .ok (cut [] b.array) := by
  rw [setPosition, if_neg (by omega)]
  rfl

/-- Bytes are written over as many. -/
theorem putBytes_cut (bs old : Bytes) (h : old.length = bs.length) (pre post : Bytes) :
    (cut pre (old ++ post)).putBytes bs = .ok (cut (pre ++ bs) post) := by
  rw [putBytes, if_neg]
  · simp [cut, ← h]
  · simp only [array_cut, position_cut, List.length_append]
    omega

/-- Bytes can be written where there is room. -/
theorem putBytes_room {bs post : Bytes} (h : bs.length ≤ post.length) (pre : Bytes) :
    (cut pre post).putBytes bs = .ok (cut (pre ++ bs) (post.drop bs.length)) := by
  have hsplit := putBytes_cut bs (post.take bs.length) (by simp [h]) pre (post.drop bs.length)
  rwa [List.take_append_drop] at hsplit

/-- Bytes that could be written had room. -/
theorem putBytes_inv {bs pre post : Bytes} {b : ByteBuffer} (h : (cut pre post).putBytes bs = .ok b) :
    bs.length ≤ post.length ∧ b = cut (pre ++ bs) (post.drop bs.length) := by
  have hroom : bs.length ≤ post.length := by
    by_contra hno
    rw [putBytes, if_pos (by simp; omega)] at h
    cases h
  refine ⟨hroom, ?_⟩
  rw [putBytes_room hroom] at h
  cases h
  rfl

/-- A slice is written where there is room. -/
theorem put_room (bs post : Bytes) (h : bs.length ≤ post.length) (pre before after : Bytes) (offset length : ℤ)
    (hoff : offset = before.length) (hlen : length = bs.length) :
    (cut pre post).put (before ++ bs ++ after) offset length = .ok (cut (pre ++ bs) (post.drop bs.length)) := by
  subst hoff hlen
  rw [put, if_neg, ← putBytes_room h pre]
  · simp
  · simp only [List.length_append]
    omega

end ByteBuffer

end YcsbIvs.Foundations
