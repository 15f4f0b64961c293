import YcsbIvs.Core.DB
import YcsbIvs.Workloads.KeyNumbers

/-!
# Values of fields

What `CoreWorkload` writes into the fields of a record. Without `dataintegrity` it is random
bytes of a drawn length, and with it the string that `buildDeterministicValue` makes of the
key and the name of the field, so that a reader can tell what has to be there.

The values of all the fields, or of one, are put into a new map (`buildValues`,
`buildSingleValue`); for an extend the lengths come from another generator. Names are of any
type `ν` with a string for each.
-/

namespace YcsbIvs.Workloads

open YcsbIvs.Foundations YcsbIvs.Core

/-! ### Deterministic values -/

/-- `s.hashCode()`. -/
def hashCode (s : Utf16) : ℤ := s.foldl (fun h c => asInt (31 * h + c.toNat)) 0

/-- The loop of `buildDeterministicValue`, at most `fuel` times round. -/
def growLoop (size : ℕ) : ℕ → Utf16 → Except Throwable Utf16
  | 0, _ => .error .nonTermination
  | fuel + 1, sb =>
    if sb.length < size then
      let sb := sb ++ [0x3A]
      let sb := sb ++ longToString (hashCode sb)
      if sb.length < 2 ^ 31 then growLoop size fuel sb else .error .outOfMemory
    else .ok sb

/-- `buildDeterministicValue(key, fieldkey)`, for a `size` from `fieldlengthgenerator`. The
string grows in each round. -/
def buildDeterministicValue (key fieldkey : Utf16) (size : ℤ) : Except Throwable Utf16 :=
  if size < 0 then .error .negativeArraySize
  else
    let sb := key ++ [0x3A] ++ fieldkey
    if sb.length < 2 ^ 31 then (growLoop size.toNat (size.toNat + 1) sb).map (List.take size.toNat)
    else .error .outOfMemory

theorem length_le_of_growLoop {size fuel : ℕ} {sb v : Utf16} (h : growLoop size fuel sb = .ok v) : size ≤ v.length := by
  induction fuel generalizing sb with
  | zero => cases h
  | succ fuel ih =>
    rw [growLoop] at h
    split_ifs at h with hlt
    · dsimp only at h
      split_ifs at h with hfits
      exact ih h
    · cases h
      omega

/-- A deterministic value is as long as `fieldlengthgenerator` says. -/
theorem length_buildDeterministicValue {key fieldkey v : Utf16} {size : ℤ}
    (h : buildDeterministicValue key fieldkey size = .ok v) : (v.length : ℤ) = size := by
  rw [buildDeterministicValue] at h
  dsimp only at h
  split_ifs at h with hneg hfits
  cases hloop : growLoop size.toNat (size.toNat + 1) (key ++ [0x3A] ++ fieldkey) with
  | error e =>
    rw [hloop] at h
    cases h
  | ok sb =>
    have hlen := length_le_of_growLoop hloop
    rw [hloop] at h
    cases h
    rw [List.length_take]
    omega

/-- Every code unit of the string is below `0x80`. -/
def AsciiString (s : Utf16) : Prop := ∀ c ∈ s, c.toNat < 0x80

theorem asciiString_of_all {s : Utf16} (h : s.all (fun c => c.toNat < 0x80) = true) : AsciiString s := by
  intro c hc
  simpa using List.all_eq_true.mp h c hc

theorem AsciiString.append {s t : Utf16} (hs : AsciiString s) (ht : AsciiString t) : AsciiString (s ++ t) := by
  intro c hc
  rcases List.mem_append.mp hc with hc | hc
  · exact hs c hc
  · exact ht c hc

theorem asciiString_colon : AsciiString [0x3A] := asciiString_of_all rfl

/-- Such a string comes back from a cast and a decode. -/
theorem decode_toBytes {s : Utf16} (h : AsciiString s) : decode (toBytes s) = s := by
  have hascii : IsAscii (toBytes s) := by
    intro b hb
    obtain ⟨c, hc, rfl⟩ := List.mem_map.mp hb
    have hlt := h c hc
    rw [toByte, UInt8.toNat_ofNat']
    omega
  rw [decode_ascii hascii, toBytes, List.map_map]
  conv_rhs => rw [← List.map_id s]
  refine List.map_congr_left fun c hc => ?_
  have hlt := h c hc
  show UInt16.ofNat (toByte c).toNat = c
  rw [toByte, UInt8.toNat_ofNat', Nat.mod_eq_of_lt (by omega), UInt16.ofNat_toNat]

theorem asciiString_longToString (n : ℤ) : AsciiString (longToString n) := by
  have hdigits : AsciiString ((Nat.toDigits 10 n.natAbs).map fun c => UInt16.ofNat c.toNat) := by
    intro c hc
    obtain ⟨d, hd, rfl⟩ := List.mem_map.mp hc
    have hdigit := Nat.isDigit_of_mem_toDigits (by decide) (by decide) hd
    have hle : d.toNat ≤ 57 := by
      simp only [Char.isDigit, Bool.and_eq_true, decide_eq_true_eq] at hdigit
      exact hdigit.2
    rw [UInt16.toNat_ofNat']
    omega
  rw [longToString]
  split_ifs
  · intro c hc
    rcases List.mem_cons.mp hc with rfl | hc
    · decide
    · exact hdigits c hc
  · exact hdigits

theorem asciiString_growLoop {size fuel : ℕ} {sb v : Utf16} (hsb : AsciiString sb) (h : growLoop size fuel sb = .ok v) :
    AsciiString v := by
  induction fuel generalizing sb with
  | zero => cases h
  | succ fuel ih =>
    rw [growLoop] at h
    split_ifs at h with hlt
    · dsimp only at h
      split_ifs at h with hfits
      exact ih ((hsb.append asciiString_colon).append (asciiString_longToString _)) h
    · cases h
      exact hsb

/-- The deterministic values of ASCII names are ASCII. -/
theorem asciiString_buildDeterministicValue {key fieldkey v : Utf16} {size : ℤ} (hkey : AsciiString key)
    (hfield : AsciiString fieldkey) (h : buildDeterministicValue key fieldkey size = .ok v) : AsciiString v := by
  rw [buildDeterministicValue] at h
  dsimp only at h
  split_ifs at h with hneg hfits
  cases hloop : growLoop size.toNat (size.toNat + 1) (key ++ [0x3A] ++ fieldkey) with
  | error e =>
    rw [hloop] at h
    cases h
  | ok sb =>
    have hsb := asciiString_growLoop ((hkey.append asciiString_colon).append hfield) hloop
    rw [hloop] at h
    cases h
    exact fun c hc => hsb c (List.mem_of_mem_take hc)

/-! ### Maps of values -/

variable {ν : Type} [DecidableEq ν]

/-- The fields of a workload. -/
structure Fields (ν : Type) where
  /-- `fieldnames`. -/
  fieldnames : List ν
  /-- The string of a name. -/
  string : ν → Utf16
  /-- `dataintegrity`. -/
  dataintegrity : Bool

/-- What the generators give for the value of one field. -/
structure Draw where
  /-- `fieldlengthgenerator.nextValue()`. -/
  fieldlength : ℤ
  /-- `extendfieldlengthgenerator.nextValue()`. -/
  extendfieldlength : ℤ
  /-- The random numbers its bytes are made of. -/
  bytes : ℕ → UInt32

/-- The value of one field, `length` bytes long where it is random. -/
def Fields.data (w : Fields ν) (length : Draw → ℤ) (key fieldkey : ν) (draw : Draw) : Except Throwable ByteIterator :=
  if w.dataintegrity then
    (buildDeterministicValue (w.string key) (w.string fieldkey) (asInt draw.fieldlength)).map fun v =>
      .string (.ofString v)
  else .ok (.random (.ofLength (length draw) draw.bytes))

/-- The loop over `fieldnames` that puts a value for each into `values`. -/
def Fields.putAll (w : Fields ν) (length : Draw → ℤ) (key : ν) :
    List ν → (ℕ → Draw) → Values ν → Except Throwable (Values ν)
  | [], _, values => .ok values
  | fieldkey :: fields, draws, values => do
    let data ← w.data length key fieldkey (draws 0)
    w.putAll length key fields (fun i => draws (i + 1)) (values.insert fieldkey data)

/-- A value for the field that `fieldchooser` gives the index of. -/
def Fields.putOne (w : Fields ν) (length : Draw → ℤ) (key : ν) (chosen : ℕ) (draw : Draw) :
    Except Throwable (Values ν) :=
  match w.fieldnames[chosen]? with
  | some fieldkey => (w.data length key fieldkey draw).map (AList.singleton fieldkey)
  | none => .error .arrayIndexOutOfBounds

/-- `buildValues(key)`. -/
def buildValues (w : Fields ν) (key : ν) (draws : ℕ → Draw) : Except Throwable (Values ν) :=
  w.putAll Draw.fieldlength key w.fieldnames draws ∅

/-- `buildValuesExtend(key)`. -/
def buildValuesExtend (w : Fields ν) (key : ν) (draws : ℕ → Draw) : Except Throwable (Values ν) :=
  w.putAll Draw.extendfieldlength key w.fieldnames draws ∅

/-- `buildSingleValue(key)`. -/
def buildSingleValue (w : Fields ν) (key : ν) (chosen : ℕ) (draw : Draw) : Except Throwable (Values ν) :=
  w.putOne Draw.fieldlength key chosen draw

/-- `buildSingleValueExtend(key)`. -/
def buildSingleValueExtend (w : Fields ν) (key : ν) (chosen : ℕ) (draw : Draw) : Except Throwable (Values ν) :=
  w.putOne Draw.extendfieldlength key chosen draw

/-- What the loop puts into the map: for each of the fields the value made with one of its
draws, the last one if a name is there twice. -/
theorem Fields.putAll_lookup {w : Fields ν} {length : Draw → ℤ} {key : ν} {fields : List ν} {draws : ℕ → Draw}
    {values values' : Values ν} (h : w.putAll length key fields draws values = .ok values') :
    (∀ f, f ∉ fields → values'.lookup f = values.lookup f) ∧
      ∀ f ∈ fields, ∃ i it, fields[i]? = some f ∧ w.data length key f (draws i) = .ok it ∧ values'.lookup f = some it := by
  induction fields generalizing draws values with
  | nil =>
    cases h
    exact ⟨fun _ _ => rfl, fun _ hf => absurd hf List.not_mem_nil⟩
  | cons g fields ih =>
    rw [Fields.putAll] at h
    cases hdata : w.data length key g (draws 0) with
    | error e => simp [hdata, bind, Except.bind] at h
    | ok data =>
      simp only [hdata, bind, Except.bind] at h
      obtain ⟨hout, hin⟩ := ih h
      constructor
      · intro f hf
        rw [List.mem_cons, not_or] at hf
        obtain ⟨hfg, hf⟩ := hf
        rw [hout f hf, AList.lookup_insert_ne hfg]
      · intro f hf
        by_cases hmem : f ∈ fields
        · obtain ⟨i, it, hi, hit, hlook⟩ := hin f hmem
          exact ⟨i + 1, it, hi, hit, hlook⟩
        · obtain rfl : f = g := (List.mem_cons.mp hf).resolve_right hmem
          exact ⟨0, data, rfl, hdata, by rw [hout f hmem, AList.lookup_insert]⟩

/-- What is in the map of one value. -/
theorem Fields.putOne_lookup {w : Fields ν} {length : Draw → ℤ} {key : ν} {chosen : ℕ} {draw : Draw}
    {values : Values ν} (h : w.putOne length key chosen draw = .ok values) {f : ν} {it : ByteIterator}
    (hit : values.lookup f = some it) : w.fieldnames[chosen]? = some f ∧ w.data length key f draw = .ok it := by
  rw [Fields.putOne] at h
  cases hname : w.fieldnames[chosen]? with
  | none => simp [hname] at h
  | some g =>
    cases hdata : w.data length key g draw with
    | error e => simp [hname, hdata, Except.map] at h
    | ok data =>
      simp only [hname, hdata, Except.map, Except.ok.injEq] at h
      subst h
      obtain ⟨rfl, rfl⟩ := eq_of_lookup_singleton hit
      exact ⟨rfl, hdata⟩

omit [DecidableEq ν] in
/-- A value, if it can be read, has the length drawn for it, and can be read once. -/
theorem Fields.data_holds {w : Fields ν} {key fieldkey : ν} {draw : Draw} {it : ByteIterator}
    (h : w.data Draw.fieldlength key fieldkey draw = .ok it) {bs : Bytes} (hbs : it.contents = some bs) :
    it.Holds bs ∧ (bs.length : ℤ) = asInt draw.fieldlength ∧
      (w.dataintegrity = false → asInt draw.fieldlength = draw.fieldlength) := by
  rw [Fields.data] at h
  split_ifs at h with hdet
  · cases hv : buildDeterministicValue (w.string key) (w.string fieldkey) (asInt draw.fieldlength) with
    | error e => simp [hv, Except.map] at h
    | ok v =>
      simp only [hv, Except.map, Except.ok.injEq] at h
      subst h
      have hholds := ByteIterator.holds_ofString v
      obtain rfl : toBytes v = bs := Option.some.inj ((ByteIterator.contents_of_holds hholds).symm.trans hbs)
      refine ⟨hholds, ?_, fun hno => absurd hno (by rw [hdet]; decide)⟩
      rw [length_toBytes]
      exact length_buildDeterministicValue hv
  · cases h
    obtain ⟨h0, hlt⟩ := ByteIterator.fits_of_contents hbs
    obtain ⟨bs', hholds, hlen⟩ := ByteIterator.holds_ofLength h0 hlt draw.bytes
    obtain rfl : bs' = bs := Option.some.inj ((ByteIterator.contents_of_holds hholds).symm.trans hbs)
    have hfits : asInt draw.fieldlength = draw.fieldlength := asInt_of_fits (by unfold FitsInt; omega)
    exact ⟨hholds, by rw [hlen, hfits], fun _ => hfits⟩

end YcsbIvs.Workloads
