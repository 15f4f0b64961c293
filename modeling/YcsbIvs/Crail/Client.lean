import YcsbIvs.Core.DB
import YcsbIvs.Foundations.Runs

/-!
# The Crail binding: a record as a stream

`insert` writes each field as the length of its name, the name, the length of its value and the value. `read` reads one field so,
whatever fields it is asked for.

A stream is the bytes that are left in it, as an `InputStream` is: `available()` is how many. `read` waits for the bytes it wants, and does not return if they are not
there. Arrays are shorter than `2³¹`.

**What has been inserted reads back** just if one field is asked for, which is the first in the order of the map (`reads_iff`).
-/

namespace YcsbIvs.Crail

open YcsbIvs.Foundations YcsbIvs.Core

/-- What `read` and `insert` return. -/
inductive CrailStatus where
  /-- `OK`. -/
  | ok
  /-- `ERROR`. -/
  | error
  /-- `read error`. -/
  | readError
  deriving DecidableEq

/-- The files, by path. -/
abbrev Files := Utf16 → Option Bytes

/-- The path of a record. -/
def path (table key : Utf16) : Utf16 := table ++ 0x2F :: key

/-- An array of these bytes. -/
def newArray (bytes : Bytes) : Except Throwable Bytes := if bytes.length < 2 ^ 31 then .ok bytes else .error .outOfMemory

/-- `stream.writeInt(array.length)`, `stream.write(array)`. -/
def writeArray (array : Bytes) : Bytes := putInt array.length ++ array

/-- The loop of `insert`: what it writes. -/
def writeFields : List (Sigma fun _ : Utf16 => ByteIterator) → Except Throwable Bytes
  | [] => .ok []
  | entry :: entries => do
    let fieldKey ← newArray (encode entry.1)
    let (bytes, _) ← entry.2.toArray
    let fieldValue ← newArray bytes
    let rest ← writeFields entries
    .ok (writeArray fieldKey ++ writeArray fieldValue ++ rest)

/-- `insert(table, key, values)`; `creates` says whether creating the file, and writing it, succeed. An `OutOfMemoryError` is no exception, and
is not caught. -/
def insert (creates : Bool) (files : Files) (table key : Utf16) (values : Values Utf16) : Except Throwable (CrailStatus × Files) :=
  if !creates then .ok (.error, files)
  else
    match writeFields values.entries with
    | .ok stream => .ok (.ok, Function.update files (path table key) (some stream))
    | .error .outOfMemory => .error .outOfMemory
    | .error .nonTermination => .error .nonTermination
    | .error _ => .ok (.error, files)

/-- `stream.readInt()`, after waiting for it. -/
def readInt : Bytes → Except Throwable (ℤ × Bytes)
  | b₀ :: b₁ :: b₂ :: b₃ :: stream => .ok (getInt b₀ b₁ b₂ b₃, stream)
  | _ => .error .nonTermination

/-- Waiting for so many bytes, and `stream.read(new byte[length])`; no array if it does not fill it. -/
def readArray (length : ℤ) (stream : Bytes) : Except Throwable (Option Bytes × Bytes) :=
  if stream.length < length then .error .nonTermination
  else if length < 0 then .error .negativeArraySize
  else if (stream.take length.toNat).length = length then .ok (some (stream.take length.toNat), stream.drop length.toNat)
  else .ok (none, stream.drop length.toNat)

/-- The body of `read`: the field, or nothing if it returns `ERROR`. -/
def readField (stream : Bytes) : Except Throwable (Option (Utf16 × Bytes)) := do
  let (fieldKeyLength, stream) ← readInt stream
  let (fieldKey, stream) ← readArray fieldKeyLength stream
  match fieldKey with
  | none => .ok none
  | some fieldKey => do
    let (fieldValueLength, stream) ← readInt stream
    let (fieldValue, _) ← readArray fieldValueLength stream
    .ok (fieldValue.map fun fieldValue => (decode fieldKey, fieldValue))

/-- `read(table, key, fields, result)`, into an empty map. A file that is not there is a `NullPointerException`. -/
def read (files : Files) (table key : Utf16) (_fields : Option (List Utf16)) : Except Throwable (CrailStatus × Values Utf16) :=
  match files (path table key) with
  | none => .ok (.readError, ∅)
  | some stream =>
    match readField stream with
    | .ok (some (name, value)) => .ok (.ok, AList.singleton name (.byteArray (.ofArray value)))
    | .ok none => .ok (.error, ∅)
    | .error .nonTermination => .error .nonTermination
    | .error .outOfMemory => .error .outOfMemory
    | .error _ => .ok (.readError, ∅)

/-- It reads the fields that are asked for, and of each what was inserted. -/
def Reads (files : Files) (table key : Utf16) (fields : Option (List Utf16)) (values : Values Utf16) : Prop :=
  ∃ result, read files table key fields = .ok (.ok, result) ∧ HoldsRecord result ((contentsOf values).restrict fields)

/-- One field is asked for, which is the first, as its name comes back from UTF-8. -/
def AsksFirst (fields : Option (List Utf16)) (values : Values Utf16) : Prop :=
  ∃ name it entries, values.entries = ⟨name, it⟩ :: entries ∧
    (∀ f ∈ values, (∀ names ∈ fields, f ∈ names) ↔ f = scrub name) ∧ contentsOf values (scrub name) = it.contents

section

variable {files files' : Files} {table key : Utf16} {fields : Option (List Utf16)} {values : Values Utf16} {creates : Bool}

/-! ### Arrays -/

theorem newArray_inv {bytes array : Bytes} (h : newArray bytes = .ok array) : array = bytes ∧ bytes.length < 2 ^ 31 := by
  rw [newArray] at h
  split_ifs at h with hlt
  exact ⟨(Except.ok.inj h).symm, hlt⟩

theorem readInt_putInt {n : ℤ} (h : FitsInt n) (stream : Bytes) : readInt (putInt n ++ stream) = .ok (n, stream) := by
  obtain ⟨b₀, b₁, b₂, b₃, hput, hget⟩ := getInt_putInt h
  rw [hput, ← hget]
  rfl

theorem readArray_append (array stream : Bytes) : readArray array.length (array ++ stream) = .ok (some array, stream) := by
  have hlong : ¬ ((array ++ stream).length : ℤ) < array.length := by
    rw [List.length_append]
    omega
  rw [readArray, if_neg hlong, if_neg (by omega), Int.toNat_natCast, List.take_left, if_pos rfl, List.drop_left]

/-- A field that has been written is read. -/
theorem readField_append {fieldKey fieldValue : Bytes} (hkey : fieldKey.length < 2 ^ 31) (hvalue : fieldValue.length < 2 ^ 31) (stream : Bytes) :
    readField (writeArray fieldKey ++ writeArray fieldValue ++ stream) = .ok (some (decode fieldKey, fieldValue)) := by
  have hfits : ∀ {array : Bytes}, array.length < 2 ^ 31 → FitsInt array.length := fun h => ⟨by omega, by omega⟩
  simp only [readField, writeArray, List.append_assoc]
  rw [bind_ok (readInt_putInt (hfits hkey) _)]
  dsimp only
  rw [bind_ok (readArray_append _ _)]
  dsimp only
  rw [bind_ok (readInt_putInt (hfits hvalue) _)]
  dsimp only
  rw [bind_ok (readArray_append _ _)]
  rfl

/-! ### Fields -/

/-- The fields that are written can be read, and the first of them is at the beginning. -/
theorem writeFields_inv {entries : List (Sigma fun _ : Utf16 => ByteIterator)} {stream : Bytes} (h : writeFields entries = .ok stream) :
    (∀ entry ∈ entries, ∃ bytes, entry.2.contents = some bytes ∧ bytes.length < 2 ^ 31) ∧
      ∀ entry ∈ entries.head?, ∃ fieldValue rest, entry.2.contents = some fieldValue ∧ (encode entry.1).length < 2 ^ 31 ∧
        stream = writeArray (encode entry.1) ++ writeArray fieldValue ++ rest := by
  induction entries generalizing stream with
  | nil => exact ⟨fun _ hentry => absurd hentry List.not_mem_nil, fun _ hentry => nomatch hentry⟩
  | cons entry entries ih =>
    obtain ⟨fieldKey, hnewKey, h⟩ := bind_inv h
    obtain ⟨⟨bytes, it⟩, hbytes, h⟩ := bind_inv h
    obtain ⟨fieldValue, hnewValue, h⟩ := bind_inv h
    obtain ⟨rest, hrest, h⟩ := bind_inv h
    cases h
    obtain ⟨rfl, hkey⟩ := newArray_inv hnewKey
    obtain ⟨rfl, hvalue⟩ := newArray_inv hnewValue
    have hcontents : entry.2.contents = some fieldValue := by
      rw [ByteIterator.contents, hbytes]
      rfl
    exact ⟨List.forall_mem_cons.mpr ⟨⟨_, hcontents, hvalue⟩, (ih hrest).1⟩, fun e he => Option.some.inj he ▸ ⟨_, _, hcontents, hkey, rfl⟩⟩

/-- An `insert` that succeeds has written the fields. -/
theorem insert_inv (hinsert : insert creates files table key values = .ok (.ok, files')) :
    ∃ stream, writeFields values.entries = .ok stream ∧ files' = Function.update files (path table key) (some stream) := by
  rw [insert] at hinsert
  split_ifs at hinsert
  · cases hinsert
  · cases hwrite : writeFields values.entries with
    | error e =>
      rw [hwrite] at hinsert
      cases e <;> cases hinsert
    | ok stream =>
      rw [hwrite] at hinsert
      cases hinsert
      exact ⟨stream, rfl, rfl⟩

/-- After that `read` gives the first field. -/
theorem read_insert (fields : Option (List Utf16)) (hinsert : insert creates files table key values = .ok (.ok, files')) {name : Utf16} {it : ByteIterator}
    {entries : List (Sigma fun _ : Utf16 => ByteIterator)} (hvalues : values.entries = ⟨name, it⟩ :: entries) :
    Readable values ∧ ∃ fieldValue, it.contents = some fieldValue ∧ fieldValue.length < 2 ^ 31 ∧
      read files' table key fields = .ok (.ok, AList.singleton (scrub name) (.byteArray (.ofArray fieldValue))) := by
  obtain ⟨stream, hwrite, rfl⟩ := insert_inv hinsert
  obtain ⟨hreadable, hfirst⟩ := writeFields_inv hwrite
  rw [hvalues] at hreadable hfirst
  obtain ⟨fieldValue, rest, hcontents, hkey, hstream⟩ := hfirst ⟨name, it⟩ rfl
  obtain ⟨bytes, hbytes, hlength⟩ := hreadable ⟨name, it⟩ List.mem_cons_self
  have hsame : bytes = fieldValue := Option.some.inj (hbytes.symm.trans hcontents)
  rw [hsame] at hlength
  refine ⟨fun f it hf => ?_, fieldValue, hcontents, hlength, ?_⟩
  · have hmem : (⟨f, it⟩ : Sigma fun _ : Utf16 => ByteIterator) ∈ values.entries := AList.mem_lookup_iff.mp hf
    rw [hvalues] at hmem
    obtain ⟨bytes, hbytes, -⟩ := hreadable _ hmem
    exact ⟨bytes, hbytes⟩
  · rw [read, Function.update_self]
    dsimp only
    rw [hstream, readField_append hkey hlength, decode_encode_scrub]

/-- If it reads back, the first field is asked for, and no other. -/
theorem asksFirst_of_reads (hne : values.entries ≠ []) (hinsert : insert creates files table key values = .ok (.ok, files'))
    (h : Reads files' table key fields values) : AsksFirst fields values := by
  obtain ⟨⟨name, it⟩, entries, hvalues⟩ := List.exists_cons_of_ne_nil hne
  obtain ⟨hreadable, fieldValue, hcontents, hlength, hread⟩ := read_insert fields hinsert hvalues
  obtain ⟨result, hread', -, hrecord⟩ := h
  have hresult : AList.singleton (scrub name) (.byteArray (.ofArray fieldValue)) = result :=
    (Prod.mk.inj (Except.ok.inj (hread.symm.trans hread'))).2
  have hfield : ∀ f, (if f = scrub name then some fieldValue else none) = (contentsOf values).restrict fields f := by
    intro f
    rw [← hrecord, ← hresult, contentsOf_singleton, ByteIterator.contents_byteArray (ByteArrayByteIterator.holds_ofArray hlength)]
  have hfirst := hfield (scrub name)
  have hin : ∀ names ∈ fields, scrub name ∈ names := by
    by_contra hnot
    rw [if_pos rfl, Record.restrict_of_not_forall _ hnot] at hfirst
    cases hfirst
  rw [if_pos rfl, Record.restrict_of_forall _ hin] at hfirst
  refine ⟨name, it, entries, hvalues, fun f hf => ⟨fun hin => ?_, fun heq => heq ▸ hin⟩, by rw [← hfirst, hcontents]⟩
  obtain ⟨it', hit'⟩ := Option.isSome_iff_exists.mp (AList.lookup_isSome.mpr hf)
  obtain ⟨bytes, hbytes⟩ := hreadable f it' hit'
  have hf' := hfield f
  by_contra hne
  rw [if_neg hne, Record.restrict_of_forall _ hin, contentsOf, hit', Option.bind_some, hbytes] at hf'
  cases hf'

/-- **What has been inserted reads back**, just if one field is asked for, which is the first. -/
theorem reads_iff (hne : values.entries ≠ []) (hinsert : insert creates files table key values = .ok (.ok, files')) :
    Reads files' table key fields values ↔ AsksFirst fields values := by
  refine ⟨asksFirst_of_reads hne hinsert, ?_⟩
  rintro ⟨name, it, entries, hvalues, hask, hsame⟩
  obtain ⟨-, fieldValue, hcontents, hlength, hread⟩ := read_insert fields hinsert hvalues
  have hholds : (ByteIterator.byteArray (.ofArray fieldValue)).contents = some fieldValue :=
    ByteIterator.contents_byteArray (ByteArrayByteIterator.holds_ofArray hlength)
  refine ⟨_, hread, fun f it' hit' => ?_, funext fun f => ?_⟩
  · obtain ⟨-, rfl⟩ := eq_of_lookup_singleton hit'
    exact ⟨fieldValue, hholds⟩
  · rw [contentsOf_singleton, hholds]
    by_cases hf : f ∈ values
    · by_cases hname : f = scrub name
      · rw [if_pos hname, Record.restrict_of_forall _ ((hask f hf).mpr hname), hname, hsame, hcontents]
      · rw [if_neg hname, Record.restrict_of_not_forall _ (mt (hask f hf).mp hname)]
    · have hnone : contentsOf values f = none := by rw [contentsOf, AList.lookup_eq_none.mpr hf, Option.bind_none]
      have hname : f ≠ scrub name := by
        rintro rfl
        rw [hsame, hcontents] at hnone
        cases hnone
      rw [if_neg hname]
      by_cases hin : ∀ names ∈ fields, f ∈ names
      · rw [Record.restrict_of_forall _ hin, hnone]
      · rw [Record.restrict_of_not_forall _ hin]

end

/-- Two fields of one letter. -/
def twoFields : Values Utf16 :=
  (AList.singleton [0x61] (.byteArray (.ofArray [0x31]))).insert [0x62] (.byteArray (.ofArray [0x32]))

/-- All of two fields are asked for: one of them is not read. -/
theorem not_reads_two : ∃ files', insert true (fun _ => none) [0x74] [0x6B] twoFields = .ok (.ok, files') ∧
    ¬ Reads files' [0x74] [0x6B] none twoFields := by
  obtain ⟨files', hinsert⟩ : ∃ files', insert true (fun _ => none) [0x74] [0x6B] twoFields = .ok (.ok, files') := ⟨_, rfl⟩
  refine ⟨files', hinsert, fun h => ?_⟩
  obtain ⟨name, it, entries, hvalues, hask, -⟩ := asksFirst_of_reads (by decide) hinsert h
  cases hvalues
  exact absurd ((hask [0x61] (by decide)).mp fun names hnames => nomatch hnames) (by decide)

theorem reads_iff_two : ∃ files', insert true (fun _ => none) [0x74] [0x6B] twoFields = .ok (.ok, files') ∧
    (Reads files' [0x74] [0x6B] (some [[0x62]]) twoFields ↔ AsksFirst (some [[0x62]]) twoFields) := by
  obtain ⟨files', hinsert⟩ : ∃ files', insert true (fun _ => none) [0x74] [0x6B] twoFields = .ok (.ok, files') := ⟨_, rfl⟩
  exact ⟨files', hinsert, reads_iff (by decide) hinsert⟩

end YcsbIvs.Crail
