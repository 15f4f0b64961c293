import YcsbIvs.VoltDB.Put

/-!
# Merging packed records

What `Put.merge` makes of two records as `VoltClient4` packs them (`Packed`): a record that
unpacks to the fields of the first overridden by those of the second (`merge_packed`).

The second loop keeps an invariant (`Copied`): what has been written so far, with the block
that is still to be copied, is the stored fields so far that are not updated. The bytes
written never outgrow the bytes read, so there is always room.
-/

namespace YcsbIvs.VoltDB

open YcsbIvs.Foundations YcsbIvs.Core
open ByteBuffer (cut getInt_cut setPosition_cut)
open YcsbIvs.RocksDB (Name entryBytes encodeRecord encodeRecord_cons selects)

/-- A record as bytes: the number of its fields, and the fields. -/
def pack (es : List (Name × Bytes)) : Bytes := putInt es.length ++ encodeRecord es

/-- `data` is a record that `VoltClient4` has packed, or that a merge has left, of fields with distinct
names: the buffer it is packed in has room for `2²⁰` bytes, and the column it is stored in for fewer. -/
structure Packed (es : List (Name × Bytes)) (data : Bytes) : Prop where
  /-- The bytes. -/
  eq : data = pack es
  /-- The names are distinct. -/
  nodup : (es.map Prod.fst).Nodup
  /-- They fit the buffer. -/
  fits : data.length ≤ 2 ^ 20

@[simp] theorem encodeRecord_append (es es' : List (Name × Bytes)) :
    encodeRecord (es ++ es') = encodeRecord es ++ encodeRecord es' := by
  simp [encodeRecord]

@[simp] theorem encodeRecord_nil : encodeRecord [] = [] := rfl

@[simp] theorem encodeRecord_singleton (e : Name × Bytes) : encodeRecord [e] = entryBytes e.1.getBytes e.2 := by
  simp [encodeRecord]

@[simp] theorem length_pack (es : List (Name × Bytes)) : (pack es).length = 4 + (encodeRecord es).length := by
  simp [pack]

@[simp] theorem length_entryBytes (k v : Bytes) : (entryBytes k v).length = 4 + k.length + (4 + v.length) := by
  simp [entryBytes]
  omega

/-- A field has bytes of its own. -/
theorem length_le_encodeRecord (es : List (Name × Bytes)) : es.length ≤ (encodeRecord es).length :=
  YcsbIvs.RocksDB.length_encodeRecord_ge es

/-! ### One field -/

/-- Where the cursor goes in a field: past the length of the name, the name, the length of the value, the value. -/
theorem field_cut {pre k v post : Bytes} (hlen : (pre ++ (entryBytes k v ++ post)).length < 2 ^ 31) :
    ∃ b₁ b₂ b₃, (cut pre (entryBytes k v ++ post)).getInt = .ok ((k.length : ℤ), b₁) ∧ b₁.position = pre.length + 4 ∧
      b₁.setPosition (asInt (b₁.position + k.length)) = .ok b₂ ∧ b₂.getInt = .ok ((v.length : ℤ), b₃) ∧
      b₃.position = pre.length + 4 + k.length + 4 ∧
      b₃.setPosition (asInt (b₃.position + v.length)) = .ok (cut (pre ++ entryBytes k v) post) := by
  have hsum : pre.length + (4 + k.length + (4 + v.length) + post.length) < 2 ^ 31 := by
    simpa using hlen
  have hsplit : entryBytes k v ++ post = putInt k.length ++ (k ++ (putInt v.length ++ (v ++ post))) := by
    simp [entryBytes]
  have hjoin : pre ++ entryBytes k v = pre ++ putInt k.length ++ k ++ putInt v.length ++ v := by
    simp [entryBytes]
  refine ⟨cut (pre ++ putInt k.length) (k ++ (putInt v.length ++ (v ++ post))),
    cut (pre ++ putInt k.length ++ k) (putInt v.length ++ (v ++ post)),
    cut (pre ++ putInt k.length ++ k ++ putInt v.length) (v ++ post), ?_, by simp, ?_, ?_, by simp; omega, ?_⟩
  · rw [hsplit]
    exact getInt_cut (by unfold FitsInt; omega) _ _
  · refine setPosition_cut _ _ _ ?_
    simp only [ByteBuffer.position_cut, List.length_append, length_putInt]
    exact asInt_of_fits (by unfold FitsInt; omega)
  · exact getInt_cut (by unfold FitsInt; omega) _ _
  · rw [hjoin]
    refine setPosition_cut _ _ _ ?_
    simp only [ByteBuffer.position_cut, List.length_append, length_putInt]
    exact asInt_of_fits (by unfold FitsInt; omega)

/-- The name of a field is where the cursor finds it. -/
theorem name_slice (pre k v post : Bytes) :
    ((pre ++ (entryBytes k v ++ post)).drop (pre.length + 4)).take k.length = k := by
  have hsplit : pre ++ (entryBytes k v ++ post) = (pre ++ putInt k.length) ++ (k ++ (putInt v.length ++ (v ++ post))) := by
    simp [entryBytes]
  have hlen : pre.length + 4 = (pre ++ putInt k.length).length := by simp
  rw [hsplit, hlen, List.drop_left, List.take_left]

/-- So is its value. -/
theorem value_slice {pre k v post : Bytes} (hlen : (pre ++ (entryBytes k v ++ post)).length < 2 ^ 31) :
    (ByteArrayByteIterator.ofSlice (pre ++ (entryBytes k v ++ post)) ((pre.length + 4 + k.length + 4 : ℕ) : ℤ) v.length).Holds v := by
  have hsplit : pre ++ (entryBytes k v ++ post) = (pre ++ putInt k.length ++ k ++ putInt v.length) ++ (v ++ post) := by
    simp [entryBytes]
  have hpos : pre.length + 4 + k.length + 4 = (pre ++ putInt k.length ++ k ++ putInt v.length).length := by
    simp
    omega
  rw [hsplit] at hlen ⊢
  rw [hpos]
  exact YcsbIvs.RocksDB.holds_ofSlice hlen

theorem byteWrapper_name (pre k v post : Bytes) :
    byteWrapper (pre ++ (entryBytes k v ++ post)) (pre.length + 4) k.length = .ok ((k.length : ℤ), k) := by
  rw [byteWrapper, if_neg, Int.toNat_natCast, name_slice]
  simp only [List.length_append, length_entryBytes]
  omega

theorem newString_name (pre v post : Bytes) (k : Name) :
    newString (pre ++ (entryBytes k.getBytes v ++ post)) (pre.length + 4) k.getBytes.length = .ok k := by
  rw [newString, if_neg, Int.toNat_natCast, name_slice, YcsbIvs.RocksDB.Name.ofBytes_getBytes]
  simp only [List.length_append, length_entryBytes]
  omega

/-! ### The loops -/

/-- The `ByteWrapper` of a field's name. -/
def wrapperOf (e : Name × Bytes) : ByteWrapper := ((e.1.getBytes.length : ℤ), e.1.getBytes)

theorem wrapperOf_mem {e : Name × Bytes} {es : List (Name × Bytes)} :
    wrapperOf e ∈ es.map wrapperOf ↔ e.1 ∈ es.map Prod.fst := by
  simp only [List.mem_map]
  constructor
  · rintro ⟨e', he', heq⟩
    exact ⟨e', he', YcsbIvs.RocksDB.Name.getBytes_inj (congrArg Prod.snd heq)⟩
  · rintro ⟨e', he', heq⟩
    exact ⟨e', he', by rw [wrapperOf, wrapperOf, heq]⟩

/-- One round of the first loop of `merge`. -/
theorem namesLoop_round {src : Bytes} {n off : ℕ} {buf b₁ b₂ b₃ b₄ : ByteBuffer} {keyLen valueLen : ℤ} {name : ByteWrapper}
    (h₁ : buf.getInt = .ok (keyLen, b₁)) (p₁ : b₁.position = off)
    (hname : byteWrapper src off keyLen = .ok name) (h₂ : b₁.setPosition (asInt (b₁.position + keyLen)) = .ok b₂)
    (h₃ : b₂.getInt = .ok (valueLen, b₃)) (h₄ : b₃.setPosition (asInt (b₃.position + valueLen)) = .ok b₄)
    (mergeSet : List ByteWrapper) :
    namesLoop src (n + 1) buf mergeSet = namesLoop src n b₄ (name :: mergeSet) := by
  subst p₁
  rw [namesLoop]
  simp only [bind, Except.bind, h₁, hname, h₂, h₃, h₄]

/-- The first loop of `merge` collects the names of the fields that are left. -/
theorem namesLoop_encodeRecord (es : List (Name × Bytes)) (pre : Bytes) (hlen : (pre ++ encodeRecord es).length < 2 ^ 31)
    (mergeSet : List ByteWrapper) :
    namesLoop (pre ++ encodeRecord es) es.length (cut pre (encodeRecord es)) mergeSet =
      .ok ((es.map wrapperOf).reverse ++ mergeSet) := by
  induction es generalizing pre mergeSet with
  | nil => rfl
  | cons e es ih =>
    rw [encodeRecord_cons] at hlen ⊢
    obtain ⟨b₁, b₂, b₃, h₁, p₁, h₂, h₃, p₃, h₄⟩ := field_cut hlen
    have hround := namesLoop_round (n := es.length) h₁ p₁ (byteWrapper_name pre _ e.2 (encodeRecord es)) h₂ h₃ h₄
    rw [← List.append_assoc] at hlen
    have hrest := ih (pre ++ entryBytes e.1.getBytes e.2) hlen (wrapperOf e :: mergeSet)
    rw [List.append_assoc] at hrest
    rw [List.length_cons, hround mergeSet]
    refine hrest.trans ?_
    simp

/-- **What the second loop has written**: with the block that is still to be copied, `header` and the fields in
`kept`; `dropped` fields have been left out. -/
structure Copied (size : ℕ) (header : Bytes) (nFields : ℤ) (pre : Bytes) (kept : List (Name × Bytes)) (dropped : ℕ)
    (s : MergeState) : Prop where
  /-- The block ends where the cursor is. -/
  blockEnd : s.blockEnd = pre.length
  /-- And starts before. -/
  blockStart : s.blockStart ≤ pre.length
  /-- The fields that are left out are not counted. -/
  nFields : s.nFields = nFields - dropped
  /-- The output, and the block. -/
  written : ∃ w post, s.out = cut w post ∧ w.length + post.length = size ∧
    w ++ pre.drop s.blockStart = header ++ encodeRecord kept
  /-- No more is written than has been read. -/
  le : (header ++ encodeRecord kept).length ≤ pre.length

/-- Copying the block. -/
theorem Copied.flush {size : ℕ} {header : Bytes} {nFields : ℤ} {pre : Bytes} {kept : List (Name × Bytes)} {dropped : ℕ}
    {s : MergeState} (h : Copied size header nFields pre kept dropped s) (rest : Bytes) (hsize : pre.length ≤ size) :
    ∃ post, s.flush (pre ++ rest) = .ok (cut (header ++ encodeRecord kept) post) ∧
      (header ++ encodeRecord kept).length + post.length = size := by
  obtain ⟨w, post, hout, htotal, hw⟩ := h.written
  have hwlen : w.length + (pre.length - s.blockStart) = (header ++ encodeRecord kept).length := by
    rw [← hw]
    simp
  have hle := h.le
  have hstart := h.blockStart
  rw [MergeState.flush, hout, h.blockEnd]
  split_ifs with hlt
  · have hroom : (pre.drop s.blockStart).length ≤ post.length := by
      rw [List.length_drop]
      omega
    have hput := ByteBuffer.put_room _ post hroom w (pre.take s.blockStart) rest s.blockStart (pre.length - s.blockStart)
      (by simp; omega) (by simp; omega)
    rw [List.take_append_drop, hw] at hput
    refine ⟨_, hput, ?_⟩
    rw [List.length_drop, List.length_drop]
    omega
  · have hnil : pre.drop s.blockStart = [] := List.drop_eq_nil_iff.mpr (by omega)
    rw [hnil, List.append_nil] at hw
    rw [hw] at htotal ⊢
    exact ⟨post, rfl, htotal⟩

/-- A field that is not updated is left for a block. -/
theorem Copied.keep {size : ℕ} {header : Bytes} {nFields : ℤ} {pre : Bytes} {kept : List (Name × Bytes)} {dropped : ℕ}
    {s : MergeState} (h : Copied size header nFields pre kept dropped s) (e : Name × Bytes) :
    Copied size header nFields (pre ++ entryBytes e.1.getBytes e.2) (kept ++ [e]) dropped
      { s with blockEnd := (pre ++ entryBytes e.1.getBytes e.2).length } where
  blockEnd := rfl
  blockStart := h.blockStart.trans (by simp)
  nFields := h.nFields
  written := by
    obtain ⟨w, post, hout, htotal, hw⟩ := h.written
    refine ⟨w, post, hout, htotal, ?_⟩
    rw [List.drop_append_of_le_length h.blockStart, ← List.append_assoc, hw]
    simp
  le := by
    have := h.le
    simp at this ⊢
    omega

/-- A field that is updated is left out, and the block before it is copied. -/
theorem Copied.drop {size : ℕ} {header : Bytes} {nFields : ℤ} {pre post : Bytes} {kept : List (Name × Bytes)} {dropped : ℕ}
    {s : MergeState} (h : Copied size header nFields pre kept dropped s) (hfits : FitsInt (nFields - dropped - 1))
    (e : Name × Bytes) (hsize : (header ++ encodeRecord kept).length + post.length = size) :
    Copied size header nFields (pre ++ entryBytes e.1.getBytes e.2) kept (dropped + 1)
      ⟨cut (header ++ encodeRecord kept) post, asInt (s.nFields - 1), (pre ++ entryBytes e.1.getBytes e.2).length,
        (pre ++ entryBytes e.1.getBytes e.2).length⟩ where
  blockEnd := rfl
  blockStart := le_rfl
  nFields := by
    have hone : ((dropped + 1 : ℕ) : ℤ) = dropped + 1 := Int.natCast_succ dropped
    dsimp only
    rw [h.nFields, asInt_of_fits hfits, hone]
    omega
  written := ⟨_, post, rfl, hsize, by simp⟩
  le := h.le.trans (by simp)

/-- One round of the second loop of `merge`. -/
theorem mergeLoop_round (mergeSet : List ByteWrapper) {dest : Bytes} {n off : ℕ} {buf b₁ b₂ b₃ b₄ : ByteBuffer}
    {keyLen valueLen : ℤ} {name : ByteWrapper}
    (h₁ : buf.getInt = .ok (keyLen, b₁)) (p₁ : b₁.position = off)
    (hname : byteWrapper dest off keyLen = .ok name) (h₂ : b₁.setPosition (asInt (b₁.position + keyLen)) = .ok b₂)
    (h₃ : b₂.getInt = .ok (valueLen, b₃)) (h₄ : b₃.setPosition (asInt (b₃.position + valueLen)) = .ok b₄)
    (s : MergeState) :
    mergeLoop mergeSet dest (n + 1) buf s =
      if name ∈ mergeSet then
        (s.flush dest).bind fun out =>
          mergeLoop mergeSet dest n b₄ ⟨out, asInt (s.nFields - 1), b₄.position, b₄.position⟩
      else mergeLoop mergeSet dest n b₄ { s with blockEnd := b₄.position } := by
  subst p₁
  rw [mergeLoop]
  simp only [bind, Except.bind, h₁, hname, h₂, h₃, h₄]

/-- **What the second loop of `merge` keeps** of the fields that are left: those whose names are not in the set. -/
theorem mergeLoop_encodeRecord (mergeSet : List ByteWrapper) {size : ℕ} {header : Bytes} {nFields : ℤ} (hn : nFields < 2 ^ 31)
    (es : List (Name × Bytes)) (pre : Bytes) (kept : List (Name × Bytes)) (dropped : ℕ) (s : MergeState)
    (hlen : (pre ++ encodeRecord es).length < 2 ^ 31) (hsize : (pre ++ encodeRecord es).length ≤ size)
    (hcount : (dropped + es.length : ℤ) ≤ nFields) (h : Copied size header nFields pre kept dropped s) :
    ∃ s', mergeLoop mergeSet (pre ++ encodeRecord es) es.length (cut pre (encodeRecord es)) s = .ok s' ∧
      Copied size header nFields (pre ++ encodeRecord es) (kept ++ es.filter fun e => wrapperOf e ∉ mergeSet)
        (dropped + (es.filter fun e => wrapperOf e ∈ mergeSet).length) s' := by
  induction es generalizing pre kept dropped s with
  | nil => exact ⟨s, rfl, by simpa using h⟩
  | cons e es ih =>
    rw [encodeRecord_cons] at hlen hsize ⊢
    obtain ⟨b₁, b₂, b₃, h₁, p₁, h₂, h₃, p₃, h₄⟩ := field_cut hlen
    have hround := mergeLoop_round mergeSet (n := es.length) h₁ p₁
      (byteWrapper_name pre _ e.2 (encodeRecord es)) h₂ h₃ h₄
    have hpre : pre.length ≤ size := by
      simp at hsize
      omega
    rw [List.length_cons] at hcount ⊢
    rw [hround s]
    by_cases hmem : wrapperOf e ∈ mergeSet
    · have hin : ((e.1.getBytes.length : ℤ), e.1.getBytes) ∈ mergeSet := hmem
      obtain ⟨post, hflush, hpost⟩ := h.flush (entryBytes e.1.getBytes e.2 ++ encodeRecord es) hpre
      rw [if_pos hin, hflush]
      have hfits : FitsInt (nFields - dropped - 1) := by
        unfold FitsInt
        omega
      rw [← List.append_assoc] at hlen hsize ⊢
      obtain ⟨s', hs', hcopied⟩ := ih _ kept (dropped + 1) _ hlen hsize (by omega) (h.drop hfits e hpost)
      refine ⟨s', hs', ?_⟩
      simpa [hmem, Nat.add_assoc, Nat.add_comm] using hcopied
    · have hout : ((e.1.getBytes.length : ℤ), e.1.getBytes) ∉ mergeSet := hmem
      rw [if_neg hout]
      rw [← List.append_assoc] at hlen hsize ⊢
      obtain ⟨s', hs', hcopied⟩ := ih _ (kept ++ [e]) dropped _ hlen hsize (by omega) (h.keep e)
      refine ⟨s', hs', ?_⟩
      simpa [hmem] using hcopied

/-! ### The whole -/

/-- The fields that a merge leaves: the stored ones that are not updated, and the new ones. -/
def merged (es es' : List (Name × Bytes)) : List (Name × Bytes) :=
  (es.filter fun e => e.1 ∉ es'.map Prod.fst) ++ es'

/-- The length of a packed record, and how many fields it has. -/
theorem Packed.length {es : List (Name × Bytes)} {data : Bytes} (h : Packed es data) :
    data.length = 4 + (encodeRecord es).length ∧ es.length ≤ data.length := by
  have := length_le_encodeRecord es
  have hlen : data.length = 4 + (encodeRecord es).length := by rw [h.eq, length_pack]
  omega

/-- The number of fields of a packed record is read first. -/
theorem Packed.getInt {es : List (Name × Bytes)} {data : Bytes} (h : Packed es data) :
    (ByteBuffer.wrap data).getInt = .ok ((es.length : ℤ), cut (putInt es.length) (encodeRecord es)) := by
  obtain ⟨hlen, hle⟩ := h.length
  have hfits := h.fits
  rw [h.eq, ByteBuffer.wrap_eq, pack, getInt_cut (by unfold FitsInt; omega), List.nil_append]

/-- Correcting the number of fields. -/
theorem patch_header (n n' : ℤ) (body post : Bytes) :
    ∃ out, (if n' ≠ n then ((cut (putInt n ++ body) post).setPosition 0).bind fun out => out.putInt n'
        else .ok (cut (putInt n ++ body) post)) = .ok out ∧
      out.array = putInt n' ++ body ++ post := by
  split_ifs with hne
  · refine ⟨cut (putInt n') (body ++ post), ?_, by simp⟩
    rw [ByteBuffer.setPosition_zero, ByteBuffer.array_cut, List.append_assoc]
    have hlen : (putInt n).length = (putInt n').length := rfl
    exact ByteBuffer.putBytes_cut _ _ hlen [] (body ++ post)
  · rw [not_not] at hne
    exact ⟨_, rfl, by rw [hne, ByteBuffer.array_cut]⟩

/-- A merge, step by step. -/
theorem merge_of {dest src : Bytes} {nSrc nDest : ℤ} {b₁ b₂ out₁ out₂ out₃ out₄ : ByteBuffer} {mergeSet : List ByteWrapper}
    {size : ℕ} {s : MergeState} (h₁ : (ByteBuffer.wrap src).getInt = .ok (nSrc, b₁))
    (h₂ : namesLoop src nSrc.toNat b₁ [] = .ok mergeSet) (h₃ : asInt (src.length + dest.length) = size)
    (h₄ : (ByteBuffer.wrap dest).getInt = .ok (nDest, b₂))
    (h₅ : (ByteBuffer.wrap (List.replicate size 0)).putInt (asInt (nSrc + nDest)) = .ok out₁)
    (h₆ : mergeLoop mergeSet dest nDest.toNat b₂ ⟨out₁, asInt (nSrc + nDest), 4, 4⟩ = .ok s)
    (h₇ : s.flush dest = .ok out₂) (h₈ : out₂.put src 4 (src.length - 4) = .ok out₃)
    (h₉ : (if s.nFields ≠ asInt (nSrc + nDest) then (out₃.setPosition 0).bind fun out => out.putInt s.nFields
      else .ok out₃) = .ok out₄) :
    merge dest src = .ok (out₄.array.take out₃.position) := by
  have hsize : ¬ (size : ℤ) < 0 := by omega
  have hnat : (size : ℤ).toNat = size := Int.toNat_natCast size
  rw [merge, bind_ok h₁]
  dsimp only
  rw [bind_ok h₂, h₃, if_neg hsize, hnat, bind_ok h₄]
  dsimp only
  rw [bind_ok h₅, bind_ok h₆, bind_ok h₇, bind_ok h₈]
  split_ifs at h₉ ⊢
  · cases hpos : out₃.setPosition 0 with
    | error e =>
      rw [hpos] at h₉
      cases h₉
    | ok v =>
      rw [hpos] at h₉
      have hput : v.putInt s.nFields = .ok out₄ := h₉
      rw [bind_ok rfl, bind_ok hput]
  · cases h₉
    rfl

/-- **What a merge writes**: the fields that are left, packed. -/
theorem merge_eq {es es' : List (Name × Bytes)} {dest src : Bytes} (hd : Packed es dest) (hs : Packed es' src) :
    merge dest src = .ok (pack (merged es es')) := by
  obtain ⟨hdlen, hdle⟩ := hd.length
  obtain ⟨hslen, hsle⟩ := hs.length
  have hdfits := hd.fits
  have hsfits := hs.fits
  have hsize : asInt (src.length + dest.length) = ((src.length + dest.length : ℕ) : ℤ) := by
    rw [asInt_of_fits (by unfold FitsInt; omega), Int.natCast_add]
  have hn : asInt ((es'.length : ℤ) + es.length) = (es'.length : ℤ) + es.length :=
    asInt_of_fits (by unfold FitsInt; omega)
  have hnames := namesLoop_encodeRecord es' (putInt es'.length) (by rw [← pack, ← hs.eq]; omega) []
  rw [← pack, ← hs.eq, List.append_nil] at hnames
  -- the output, with the number of fields of both
  have hout : (ByteBuffer.wrap (List.replicate (src.length + dest.length) 0)).putInt ((es'.length : ℤ) + es.length) =
      .ok (cut (putInt ((es'.length : ℤ) + es.length)) ((List.replicate (src.length + dest.length) 0).drop 4)) := by
    rw [ByteBuffer.wrap_eq, ByteBuffer.putInt, ByteBuffer.putBytes_room (by simp; omega)]
    rfl
  -- the stored fields that are kept
  have hstart : Copied (src.length + dest.length) (putInt ((es'.length : ℤ) + es.length)) ((es'.length : ℤ) + es.length)
      (putInt es.length) [] 0 ⟨cut (putInt ((es'.length : ℤ) + es.length)) ((List.replicate (src.length + dest.length) 0).drop 4),
        (es'.length : ℤ) + es.length, 4, 4⟩ :=
    ⟨rfl, le_rfl, by simp, ⟨_, _, rfl, by simp; omega, by simp⟩, by simp⟩
  obtain ⟨s, hloop, hcopied⟩ := mergeLoop_encodeRecord (es'.map wrapperOf).reverse (by omega) es
    (putInt es.length) [] 0 _ (by rw [← pack, ← hd.eq]; omega) (by rw [← pack, ← hd.eq]; omega) (by omega) hstart
  rw [← pack, ← hd.eq] at hloop hcopied
  rw [List.nil_append, Nat.zero_add] at hcopied
  have hkept : (es.filter fun e => wrapperOf e ∉ (es'.map wrapperOf).reverse) = es.filter fun e => e.1 ∉ es'.map Prod.fst := by
    refine List.filter_congr fun e _ => ?_
    simp only [List.mem_reverse, wrapperOf_mem]
  rw [hkept] at hcopied
  obtain ⟨post, hflush, hpost⟩ := hcopied.flush [] (by omega)
  rw [List.append_nil] at hflush
  -- the new fields
  have hle := hcopied.le
  have hput := ByteBuffer.put_room (encodeRecord es') post (by omega)
    (putInt ((es'.length : ℤ) + es.length) ++ encodeRecord (es.filter fun e => e.1 ∉ es'.map Prod.fst))
    (putInt es'.length) [] 4 (src.length - 4) (by simp) (by omega)
  rw [List.append_nil, ← pack, ← hs.eq] at hput
  -- the number of fields
  have hcount : s.nFields = ((merged es es').length : ℤ) := by
    have hsplit := List.length_eq_length_filter_add (l := es) fun e => decide (wrapperOf e ∈ (es'.map wrapperOf).reverse)
    have hneg : (es.filter fun e => !decide (wrapperOf e ∈ (es'.map wrapperOf).reverse)) =
        es.filter fun e => e.1 ∉ es'.map Prod.fst := by
      rw [← hkept]
      exact List.filter_congr fun e _ => by simp
    rw [hneg] at hsplit
    rw [hcopied.nFields, merged, List.length_append]
    omega
  obtain ⟨out, hpatch, harray⟩ := patch_header ((es'.length : ℤ) + es.length) s.nFields
    (encodeRecord (es.filter fun e => e.1 ∉ es'.map Prod.fst) ++ encodeRecord es') (post.drop (encodeRecord es').length)
  rw [← List.append_assoc] at hpatch
  rw [merge_of hs.getInt (by rw [Int.toNat_natCast]; exact hnames) hsize hd.getInt (by rw [hn]; exact hout)
    (by rw [hn, Int.toNat_natCast]; exact hloop) hflush hput (by rw [hn]; exact hpatch), harray]
  rw [hcount, pack, merged, encodeRecord_append, ByteBuffer.position_cut]
  refine congrArg Except.ok (List.take_left' ?_)
  simp

/-! ### Unpacking -/

/-- One round of the loop of `unpackRowData`. -/
theorem unpackLoop_round {rowData : Bytes} {n off off' : ℕ} {buf b₁ b₂ b₃ b₄ : ByteBuffer} {keyLen valueLen : ℤ} {key : Name}
    (h₁ : buf.getInt = .ok (keyLen, b₁)) (p₁ : b₁.position = off) (hkey : newString rowData off keyLen = .ok key)
    (h₂ : b₁.setPosition (asInt (b₁.position + keyLen)) = .ok b₂) (h₃ : b₂.getInt = .ok (valueLen, b₃))
    (p₃ : b₃.position = off') (h₄ : b₃.setPosition (asInt (b₃.position + valueLen)) = .ok b₄) (fields : Option (List Name))
    (result : Values Name) :
    unpackLoop rowData fields (n + 1) buf result =
      unpackLoop rowData fields n b₄
        (if selects fields key then result.insert key (.byteArray (.ofSlice rowData off' valueLen)) else result) := by
  subst p₁ p₃
  rw [unpackLoop, bind_ok h₁]
  dsimp only
  rw [bind_ok hkey, bind_ok h₂, bind_ok h₃]
  dsimp only
  rw [bind_ok h₄]

/-- **What the loop unpacks** of the fields that are left: each, as an iterator over its value; the rest of the
map is as it was. -/
theorem unpackLoop_encodeRecord (es : List (Name × Bytes)) (hnd : (es.map Prod.fst).Nodup) (pre : Bytes)
    (hlen : (pre ++ encodeRecord es).length < 2 ^ 31) (result : Values Name) :
    ∃ result', unpackLoop (pre ++ encodeRecord es) none es.length (cut pre (encodeRecord es)) result = .ok result' ∧
      (∀ e ∈ es, ∃ a, result'.lookup e.1 = some (.byteArray a) ∧ a.Holds e.2) ∧
      (∀ f, f ∉ es.map Prod.fst → result'.lookup f = result.lookup f) := by
  induction es generalizing pre result with
  | nil => exact ⟨result, rfl, fun _ he => absurd he List.not_mem_nil, fun _ _ => rfl⟩
  | cons e es ih =>
    obtain ⟨hnot, hnd⟩ := List.nodup_cons.mp hnd
    rw [encodeRecord_cons] at hlen ⊢
    obtain ⟨b₁, b₂, b₃, h₁, p₁, h₂, h₃, p₃, h₄⟩ := field_cut hlen
    have hround := unpackLoop_round (n := es.length) h₁ p₁ (newString_name pre e.2 (encodeRecord es) e.1) h₂ h₃ p₃ h₄ none result
    have hholds := value_slice hlen
    rw [List.length_cons, hround]
    rw [← List.append_assoc] at hlen
    obtain ⟨result', hloop, hin, hout⟩ := ih hnd (pre ++ entryBytes e.1.getBytes e.2) hlen
      (result.insert e.1 (.byteArray (.ofSlice (pre ++ (entryBytes e.1.getBytes e.2 ++ encodeRecord es))
        ((pre.length + 4 + e.1.getBytes.length + 4 : ℕ) : ℤ) e.2.length)))
    rw [List.append_assoc] at hloop
    refine ⟨result', hloop, fun e' he' => ?_, fun f hf => ?_⟩
    · rcases List.mem_cons.mp he' with rfl | he'
      · exact ⟨_, by rw [hout _ hnot, AList.lookup_insert], hholds⟩
      · exact hin e' he'
    · rw [List.map_cons, List.mem_cons, not_or] at hf
      rw [hout f hf.2, AList.lookup_insert_ne hf.1]

/-- The value of a field, if the record has it. -/
def fieldOf (es : List (Name × Bytes)) (f : Name) : Option Bytes := (es.find? fun e => e.1 = f).map Prod.snd

theorem fieldOf_eq_none {es : List (Name × Bytes)} {f : Name} (h : f ∉ es.map Prod.fst) : fieldOf es f = none := by
  rw [fieldOf, List.find?_eq_none.mpr, Option.map_none]
  intro e he heq
  exact h (List.mem_map.mpr ⟨e, he, of_decide_eq_true heq⟩)

theorem fieldOf_of_mem {es : List (Name × Bytes)} (hnd : (es.map Prod.fst).Nodup) {e : Name × Bytes} (he : e ∈ es) :
    fieldOf es e.1 = some e.2 := by
  induction es with
  | nil => cases he
  | cons e' es ih =>
    rw [List.map_cons, List.nodup_cons] at hnd
    rw [fieldOf]
    rcases List.mem_cons.mp he with rfl | he
    · simp
    · have hne : e'.1 ≠ e.1 := fun heq => hnd.1 (heq ▸ List.mem_map_of_mem he)
      rw [List.find?_cons_of_neg (by simpa using hne)]
      exact ih hnd.2 he

/-- **A packed record unpacks to its fields**. -/
theorem unpackRowData_pack {es : List (Name × Bytes)} (hnd : (es.map Prod.fst).Nodup) (hlen : (pack es).length < 2 ^ 31) :
    ∃ result, unpackRowData (pack es) none ∅ = .ok result ∧ HoldsRecord result (fieldOf es) := by
  have hle := length_le_encodeRecord es
  have hcount := length_pack es
  obtain ⟨result, hloop, hin, hout⟩ := unpackLoop_encodeRecord es hnd (putInt es.length) hlen ∅
  have hget := getInt_cut (n := es.length) (by unfold FitsInt; omega) [] (encodeRecord es)
  rw [List.nil_append, ← pack] at hget
  refine ⟨result, ?_, fun f it hit => ?_, funext fun f => ?_⟩
  · rw [unpackRowData, ByteBuffer.wrap_eq, bind_ok hget]
    exact hloop
  · by_cases hf : f ∈ es.map Prod.fst
    · obtain ⟨e, he, rfl⟩ := List.mem_map.mp hf
      obtain ⟨a, ha, hholds⟩ := hin e he
      obtain rfl : _ = it := Option.some.inj (ha.symm.trans hit)
      exact ⟨e.2, ByteIterator.contents_byteArray hholds⟩
    · rw [hout f hf] at hit
      cases hit
  · rw [contentsOf]
    by_cases hf : f ∈ es.map Prod.fst
    · obtain ⟨e, he, rfl⟩ := List.mem_map.mp hf
      obtain ⟨a, ha, hholds⟩ := hin e he
      rw [ha, fieldOf_of_mem hnd he]
      exact ByteIterator.contents_byteArray hholds
    · rw [hout f hf, fieldOf_eq_none hf]
      rfl

/-- The fields that are left have distinct names. -/
theorem nodup_merged {es es' : List (Name × Bytes)} (h : (es.map Prod.fst).Nodup) (h' : (es'.map Prod.fst).Nodup) :
    ((merged es es').map Prod.fst).Nodup := by
  rw [merged, List.map_append, List.nodup_append]
  refine ⟨h.sublist (List.filter_sublist.map _), h', fun f hf f' hf' heq => ?_⟩
  obtain ⟨e, he, rfl⟩ := List.mem_map.mp hf
  exact of_decide_eq_true (List.mem_filter.mp he).2 (heq ▸ hf')

/-- A field of a merged record is the new one, or else the stored one. -/
theorem fieldOf_merged {es es' : List (Name × Bytes)} (h : (es.map Prod.fst).Nodup) (h' : (es'.map Prod.fst).Nodup) (f : Name) :
    fieldOf (merged es es') f = (fieldOf es' f).or (fieldOf es f) := by
  have hnd := nodup_merged h h'
  by_cases hf' : f ∈ es'.map Prod.fst
  · obtain ⟨e, he, rfl⟩ := List.mem_map.mp hf'
    rw [fieldOf_of_mem h' he, fieldOf_of_mem hnd (List.mem_append_right _ he)]
    rfl
  · rw [fieldOf_eq_none hf', Option.none_or]
    by_cases hf : f ∈ es.map Prod.fst
    · obtain ⟨e, he, rfl⟩ := List.mem_map.mp hf
      have hkept : e ∈ merged es es' := List.mem_append_left _ (List.mem_filter.mpr ⟨he, decide_eq_true hf'⟩)
      rw [fieldOf_of_mem h he, fieldOf_of_mem hnd hkept]
    · rw [fieldOf_eq_none hf, fieldOf_eq_none]
      intro hmem
      obtain ⟨e, he, rfl⟩ := List.mem_map.mp hmem
      rcases List.mem_append.mp he with he | he
      · exact hf (List.mem_map_of_mem (List.mem_of_mem_filter he))
      · exact hf' (List.mem_map_of_mem he)

/-- A map that holds a record has as many entries as the record has fields. -/
theorem length_keys_of_holds {es : List (Name × Bytes)} (hnd : (es.map Prod.fst).Nodup) {result : Values Name}
    (h : HoldsRecord result (fieldOf es)) : result.keys.length = es.length := by
  have hperm : result.keys.Perm (es.map Prod.fst) := by
    rw [List.perm_ext_iff_of_nodup (AList.keys_nodup result) hnd]
    intro f
    rw [← AList.mem_keys, ← AList.lookup_isSome]
    have hf := congrFun h.2 f
    rw [contentsOf] at hf
    constructor
    · intro hsome
      obtain ⟨it, hit⟩ := Option.isSome_iff_exists.mp hsome
      obtain ⟨bs, hbs⟩ := h.1 f it hit
      by_contra hno
      rw [hit, fieldOf_eq_none hno, Option.bind_some, hbs] at hf
      cases hf
    · intro hmem
      obtain ⟨e, he, rfl⟩ := List.mem_map.mp hmem
      rw [fieldOf_of_mem hnd he] at hf
      cases hit : result.lookup e.1 with
      | some it => rfl
      | none =>
        rw [hit] at hf
        cases hf
  rw [hperm.length_eq, List.length_map]

theorem length_encodeRecord_filter (es : List (Name × Bytes)) (p : Name × Bytes → Bool) :
    (encodeRecord (es.filter p)).length ≤ (encodeRecord es).length := by
  induction es with
  | nil => exact le_rfl
  | cons e es ih =>
    rw [List.filter_cons]
    split_ifs <;> simp only [encodeRecord_cons, List.length_append] <;> omega

/-- **Merging overrides**: what a merge makes unpacks to the fields of the stored record overridden by those of the
update, the number it starts with is that of its fields, and no write goes past the end of the output. -/
theorem merge_packed {es es' : List (Name × Bytes)} {dest src : Bytes} (hd : Packed es dest) (hs : Packed es' src) :
    ∃ data nFields buf result, merge dest src = .ok data ∧ (ByteBuffer.wrap data).getInt = .ok (nFields, buf) ∧
      unpackRowData data none ∅ = .ok result ∧ nFields = result.keys.length ∧
      HoldsRecord result fun f => (fieldOf es' f).or (fieldOf es f) := by
  obtain ⟨hdlen, hdle⟩ := hd.length
  obtain ⟨hslen, hsle⟩ := hs.length
  have hdfits := hd.fits
  have hsfits := hs.fits
  have hnd := nodup_merged hd.nodup hs.nodup
  have hfilter : (encodeRecord (es.filter fun e => e.1 ∉ es'.map Prod.fst)).length ≤ (encodeRecord es).length :=
    length_encodeRecord_filter es fun e => e.1 ∉ es'.map Prod.fst
  have hlen : (pack (merged es es')).length = 4 + ((encodeRecord (es.filter fun e => e.1 ∉ es'.map Prod.fst)).length +
      (encodeRecord es').length) := by
    rw [length_pack, merged, encodeRecord_append, List.length_append]
  have hle := length_le_encodeRecord (merged es es')
  rw [length_pack] at hlen
  obtain ⟨result, hunpack, hholds⟩ := unpackRowData_pack hnd (by rw [length_pack]; omega)
  have hget := getInt_cut (n := (merged es es').length) (by unfold FitsInt; omega) [] (encodeRecord (merged es es'))
  rw [List.nil_append, ← pack] at hget
  refine ⟨_, _, _, result, merge_eq hd hs, hget, hunpack, by rw [length_keys_of_holds hnd hholds], ?_⟩
  have hfields : (fun f => (fieldOf es' f).or (fieldOf es f)) = fieldOf (merged es es') :=
    funext fun f => (fieldOf_merged hd.nodup hs.nodup f).symm
  rw [hfields]
  exact hholds

/-- A record of `a` and `b`, updated in `b` and `c`. -/
theorem merge_packed_three :
    ∃ data nFields buf result,
      merge (pack [(⟨[0x61], rfl⟩, [1]), (⟨[0x62], rfl⟩, [2])]) (pack [(⟨[0x62], rfl⟩, [3]), (⟨[0x63], rfl⟩, [])]) = .ok data ∧
      (ByteBuffer.wrap data).getInt = .ok (nFields, buf) ∧ unpackRowData data none ∅ = .ok result ∧
      nFields = result.keys.length ∧
      HoldsRecord result fun f => (fieldOf [(⟨[0x62], rfl⟩, [3]), (⟨[0x63], rfl⟩, [])] f).or
        (fieldOf [(⟨[0x61], rfl⟩, [1]), (⟨[0x62], rfl⟩, [2])] f) :=
  merge_packed ⟨rfl, by decide, by decide⟩ ⟨rfl, by decide, by decide⟩

/-! ### What `VoltClient4` packs -/

/-- The name of a column as it is packed. -/
def nameOf (key : Utf16) : Name := ⟨scrub key, (encode_scrub key).1⟩

theorem getBytes_nameOf (key : Utf16) : (nameOf key).getBytes = encode key := (encode_scrub key).2

/-- Filling in a value and moving past it. -/
theorem nextBuf_inv {pre post v : Bytes} {b : ByteBuffer} (hv : v.length < 2 ^ 31) (hlen : pre.length + post.length < 2 ^ 30)
    (h : (nextBuf (cut pre post) v).setPosition (asInt ((nextBuf (cut pre post) v).position + asInt v.length)) = .ok b) :
    v.length ≤ post.length ∧ b = cut (pre ++ v) (post.drop v.length) := by
  have hpos : (nextBuf (cut pre post) v).position = pre.length := rfl
  have hvlen : asInt v.length = v.length := asInt_of_fits (by unfold FitsInt; omega)
  rw [hpos, hvlen] at h
  have harray : (nextBuf (cut pre post) v).array = pre ++ v.take post.length ++ post.drop v.length := by
    simp [nextBuf]
  have hroom : v.length ≤ post.length := by
    by_contra hno
    rw [ByteBuffer.setPosition, harray, if_pos] at h
    · cases h
    · simp only [List.length_append, List.length_take, List.length_drop]
      unfold asInt
      omega
  have hsum : asInt ((pre.length : ℤ) + v.length) = pre.length + v.length := asInt_of_fits (by unfold FitsInt; omega)
  rw [ByteBuffer.setPosition, harray, hsum, if_neg] at h
  · cases h
    refine ⟨hroom, ?_⟩
    have hnat : ((pre.length : ℤ) + v.length).toNat = (pre ++ v).length := by
      rw [List.length_append]
      omega
    rw [hnat, List.take_of_length_le hroom]
    rfl
  · simp only [List.length_append, List.length_take, List.length_drop]
    omega

/-- What the loop of `packRowData` has written. -/
theorem packLoop_inv (columns : List (Utf16 × Bytes)) (hv : ∀ c ∈ columns, c.2.length < 2 ^ 31) {pre post : Bytes}
    (hlen : pre.length + post.length < 2 ^ 30) {b : ByteBuffer} (h : packLoop columns (cut pre post) = .ok b) :
    ∃ post', b = cut (pre ++ encodeRecord (columns.map fun c => (nameOf c.1, c.2))) post' ∧
      b.array.length = pre.length + post.length := by
  induction columns generalizing pre post with
  | nil =>
    cases h
    exact ⟨post, by simp, by simp⟩
  | cons c columns ih =>
    obtain ⟨key, v⟩ := c
    have hvlt : v.length < 2 ^ 31 := hv _ List.mem_cons_self
    have hvlen : asInt v.length = v.length := asInt_of_fits (by unfold FitsInt; omega)
    rw [packLoop] at h
    obtain ⟨b₁, h₁, h⟩ := bind_inv h
    obtain ⟨hr₁, rfl⟩ := ByteBuffer.putBytes_inv h₁
    obtain ⟨b₂, h₂, h⟩ := bind_inv h
    obtain ⟨hr₂, rfl⟩ := ByteBuffer.putBytes_inv h₂
    dsimp only at h
    obtain ⟨b₃, h₃, h⟩ := bind_inv h
    obtain ⟨hr₃, rfl⟩ := ByteBuffer.putBytes_inv h₃
    obtain ⟨b₄, h₄, h⟩ := bind_inv h
    simp only [List.length_drop, length_putInt] at hr₁ hr₂ hr₃
    obtain ⟨hr₄, rfl⟩ := nextBuf_inv hvlt (by simp; omega) h₄
    simp only [List.length_drop, length_putInt] at hr₄
    obtain ⟨post', hb, harray⟩ := ih (fun c hc => hv c (List.mem_cons_of_mem _ hc)) (by simp; omega) h
    refine ⟨post', ?_, ?_⟩
    · rw [hb, List.map_cons, encodeRecord_cons, entryBytes, getBytes_nameOf, hvlen]
      simp
    · rw [harray]
      simp
      omega

/-- **What `VoltClient4` packs is a packed record**, if the names of its columns are distinct as bytes. -/
theorem packRowData_packed {mworkingData data : Bytes} (hbuf : mworkingData.length = 1024 * 1024) (columns : List (Utf16 × Bytes))
    (hv : ∀ c ∈ columns, c.2.length < 2 ^ 31) (hnd : (columns.map fun c => nameOf c.1).Nodup)
    (h : packRowData mworkingData columns = .ok data) : Packed (columns.map fun c => (nameOf c.1, c.2)) data := by
  rw [packRowData, ByteBuffer.wrap_eq] at h
  obtain ⟨b₁, h₁, h⟩ := bind_inv h
  obtain ⟨hr₁, rfl⟩ := ByteBuffer.putBytes_inv h₁
  obtain ⟨b₂, h₂, h⟩ := bind_inv h
  rw [length_putInt] at hr₁
  obtain ⟨post, hb, harray⟩ := packLoop_inv columns hv (by simp; omega) h₂
  cases h
  have heq : b₂.array.take b₂.position = pack (columns.map fun c => (nameOf c.1, c.2)) := by
    rw [hb, List.nil_append, ByteBuffer.array_cut, ByteBuffer.position_cut, List.take_left, pack, List.length_map]
  refine ⟨heq, by simpa [Function.comp_def] using hnd, ?_⟩
  rw [List.length_take, harray]
  simp
  omega

end YcsbIvs.VoltDB
