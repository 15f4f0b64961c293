import YcsbIvs.Couchbase.Client

/-!
# The Couchbase binding: what is decoded of what was encoded

`decode` reads the object that `encode` makes: a JSON object or a map, by the setting. Of a JSON object it leaves out the fields it is given, of a map
none.

**Both modes decode just the fields that are asked for** if none are given, or there are no fields, and otherwise the JSON mode does not
(`roundTrips_iff`).
-/

namespace YcsbIvs.Couchbase

open YcsbIvs.Foundations YcsbIvs.Core YcsbIvs.Extend

/-- What `decode` puts for a field of these values: a new iterator over its string. -/
def iteratorOf (values : Values Utf16) (f : Utf16) : Option ByteIterator := (textOf values f).map fun s => .string (.ofString s)

/-- The field is asked for: it is one of those given, or none are. -/
def Asked (fields : Option (List Utf16)) (f : Utf16) : Prop := ∀ names ∈ fields, names ≠ [] → f ∈ names

/-- `decode(encode(values), fields, dest)` leaves this in an empty map. -/
def DecodesTo (config : Config) (values : Values Utf16) (fields : Option (List Utf16)) (dest : Values Utf16) : Prop :=
  ∃ object, encode config values = .ok object ∧ decode config object fields = some dest

/-- It has the fields of `values` that are asked for, and no others. -/
def Projects (values : Values Utf16) (fields : Option (List Utf16)) (dest : Values Utf16) : Prop :=
  ∀ f, (Asked fields f → dest.lookup f = iteratorOf values f) ∧ (¬ Asked fields f → dest.lookup f = none)

/-- Both modes decode just the fields that are asked for, and the same. -/
def RoundTrips (checkFutures : Bool) (values : Values Utf16) (fields : Option (List Utf16)) : Prop :=
  ∃ dest dest', DecodesTo ⟨true, checkFutures⟩ values fields dest ∧ DecodesTo ⟨false, checkFutures⟩ values fields dest' ∧
    Projects values fields dest ∧ Projects values fields dest' ∧ ∀ f, dest.lookup f = dest'.lookup f

section

variable {config : Config} {values dest : Values Utf16} {fields : Option (List Utf16)} {object : Stored} {checkFutures : Bool}

/-! ### What is encoded -/

theorem iteratorOf_eq_none_iff (h : ∀ e ∈ values.entries, ∃ r, e.2.toString = .ok r) (f : Utf16) : iteratorOf values f = none ↔ f ∉ values := by
  rw [iteratorOf, Option.map_eq_none_iff, textOf_eq_none_iff h]

/-- What is encoded of a field that is there, and of one that is not. -/
theorem fields_encode_eq (h : encode config values = .ok object) (f : Utf16) :
    (object.fields f).map (fun node => ByteIterator.string (.ofString node.asText)) = iteratorOf values f := by
  cases hf : values.lookup f with
  | some it =>
    obtain ⟨s, it', hs, hobject⟩ := fields_encode h hf
    simp [iteratorOf, textOf, hf, hs, hobject, JsonNode.asText, Except.toOption]
  | none =>
    obtain ⟨⟨stringMap, entries⟩, hmap, h⟩ := bind_inv h
    have hnot : f ∉ stringMap.map Prod.fst := by
      rw [keys_getStringMap hmap]
      exact fun hmem => AList.lookup_eq_none.mp hf (AList.mem_keys.mpr hmem)
    have hnone : object.fields f = none := by
      dsimp only at h
      split_ifs at h
      · obtain ⟨node, hnode, h⟩ := bind_inv h
        cases h
        exact (putAll_lookup_of_notMem hnode hnot).trans (AList.lookup_empty f)
      · obtain ⟨map, hput, h⟩ := bind_inv h
        cases h
        rw [Stored.fields, putAll_lookup_of_notMem hput hnot, AList.lookup_empty, Option.map_none]
    simp [iteratorOf, textOf, hf, hnone]

/-- Values that can be read are encoded and decoded, in either mode. -/
theorem exists_decodesTo (config : Config) (fields : Option (List Utf16)) (h : ∀ e ∈ values.entries, ∃ r, e.2.toString = .ok r) :
    ∃ dest, DecodesTo config values fields dest := by
  obtain ⟨⟨stringMap, entries⟩, hmap⟩ := getStringMap_of_readable h
  obtain ⟨useJson, checkFutures⟩ := config
  cases useJson with
  | true =>
    obtain ⟨node, hnode⟩ : ∃ node, putAll Prod.fst (fun pair : Utf16 × Utf16 => .ok (some (JsonNode.text pair.2))) stringMap ∅ = .ok node :=
      exists_putAll (fun _ _ => ⟨_, rfl⟩) ∅
    obtain ⟨dest, hdest⟩ : ∃ dest, putAll Sigma.fst (decodeField fields) node.entries ∅ = .ok dest := by
      refine exists_putAll (fun jsonField _ => ?_) ∅
      rw [decodeField]
      split_ifs <;> exact ⟨_, rfl⟩
    refine ⟨dest, .json node, ?_, ?_⟩
    · rw [encode, bind_ok hmap]
      dsimp only
      rw [if_pos rfl, bind_ok hnode]
    · rw [decode, if_pos rfl, hdest]
      rfl
  | false =>
    obtain ⟨map, hput⟩ : ∃ map, putAll Prod.fst (fun pair : Utf16 × Utf16 => .ok (some pair.2)) stringMap ∅ = .ok map :=
      exists_putAll (fun _ _ => ⟨_, rfl⟩) ∅
    obtain ⟨dest, hdest⟩ : ∃ dest, putAll Sigma.fst (fun entry => .ok (some (ByteIterator.string (.ofString entry.2)))) map.entries ∅ = .ok dest :=
      exists_putAll (fun _ _ => ⟨_, rfl⟩) ∅
    refine ⟨dest, .map map, ?_, ?_⟩
    · rw [encode, bind_ok hmap]
      dsimp only
      rw [if_neg Bool.false_ne_true, bind_ok hput]
    · rw [decode, if_neg Bool.false_ne_true, hdest]
      rfl

/-! ### What is decoded -/

/-- The JSON mode leaves out the fields that it is given. -/
theorem DecodesTo.lookup_json (h : DecodesTo ⟨true, checkFutures⟩ values fields dest) (f : Utf16) :
    ((∃ names ∈ fields, f ∈ names) → dest.lookup f = none) ∧ ((¬ ∃ names ∈ fields, f ∈ names) → dest.lookup f = iteratorOf values f) := by
  obtain ⟨object, hencode, hdecode⟩ := h
  cases object with
  | map strings => cases hdecode
  | json object =>
    constructor
    · rintro ⟨names, hnames, hf⟩
      obtain rfl : fields = some names := hnames
      exact lookup_decode_of_mem hdecode hf
    · intro hnot
      have htext := fields_encode_eq hencode f
      rw [Stored.fields] at htext
      cases hobject : object.lookup f with
      | none =>
        have hmem : f ∉ object.entries.map Sigma.fst := fun hmem => AList.lookup_eq_none.mp hobject (AList.mem_keys.mpr hmem)
        rw [← htext, hobject, putAll_lookup_of_notMem (decode_json hdecode) hmem, AList.lookup_empty, Option.map_none]
      | some node =>
        have hnull : node ≠ .null := fun hnull => encode_noNull hencode f (hnull ▸ hobject)
        have hkeep : decodeField fields ⟨f, node⟩ = .ok (some (.string (.ofString node.asText))) := by
          have hskip : ¬ (((fields.any fun fields => !fields.isEmpty) && fields.any fun fields => fields.contains f) = true) := by
            cases fields with
            | none => exact Bool.false_ne_true
            | some names =>
              intro hskip
              exact hnot ⟨names, rfl, List.contains_iff_mem.mp (Bool.and_eq_true_iff.mp hskip).2⟩
          rw [decodeField]
          dsimp only
          rw [if_neg hskip, if_neg hnull]
        rw [← htext, hobject, Option.map_some]
        exact (Except.ok.inj (hkeep.symm.trans (putAll_entries (decode_json hdecode) hobject))).symm

/-- The other mode leaves out none. -/
theorem DecodesTo.lookup_map (h : DecodesTo ⟨false, checkFutures⟩ values fields dest) (f : Utf16) : dest.lookup f = iteratorOf values f := by
  obtain ⟨object, hencode, hdecode⟩ := h
  cases object with
  | json object => cases hdecode
  | map strings =>
    have htext := fields_encode_eq hencode f
    have hput := ok_of_toOption hdecode
    rw [Stored.fields] at htext
    cases hstrings : strings.lookup f with
    | none =>
      have hmem : f ∉ strings.entries.map Sigma.fst := fun hmem => AList.lookup_eq_none.mp hstrings (AList.mem_keys.mpr hmem)
      rw [← htext, hstrings, putAll_lookup_of_notMem hput hmem, AList.lookup_empty, Option.map_none, Option.map_none]
    | some string =>
      rw [← htext, hstrings]
      exact (Except.ok.inj (putAll_entries hput hstrings)).symm

/-- If a field is given, and there is one, the JSON mode decodes another than it is asked for. -/
theorem of_roundTrips (h : ∀ e ∈ values.entries, ∃ r, e.2.toString = .ok r) (hright : RoundTrips checkFutures values fields) :
    (∀ names ∈ fields, names = []) ∨ values.entries = [] := by
  by_contra hnot
  rw [not_or] at hnot
  obtain ⟨hfields, hvalues⟩ := hnot
  obtain ⟨names, hnames, hne⟩ : ∃ names ∈ fields, names ≠ [] := by
    by_contra hall
    exact hfields fun names hnames => by_contra fun hne => hall ⟨names, hnames, hne⟩
  obtain ⟨e, he⟩ := List.exists_mem_of_ne_nil _ hvalues
  have htext : iteratorOf values e.1 ≠ none := fun hnone =>
    (iteratorOf_eq_none_iff h e.1).mp hnone (AList.mem_keys.mpr (List.mem_map_of_mem he))
  obtain ⟨dest, dest', hjson, -, hproject, -⟩ := hright
  obtain ⟨hasked, hnotasked⟩ := hproject e.1
  by_cases hin : e.1 ∈ names
  · have hask : Asked fields e.1 := fun names' hnames' _ => Option.some.inj (hnames.symm.trans hnames') ▸ hin
    exact htext ((hasked hask).symm.trans ((hjson.lookup_json e.1).1 ⟨names, hnames, hin⟩))
  · have hask : ¬ Asked fields e.1 := fun hask => hin (hask names hnames hne)
    have hskip : ¬ ∃ names ∈ fields, e.1 ∈ names := by
      rintro ⟨names', hnames', hin'⟩
      obtain rfl : names = names' := Option.some.inj (hnames.symm.trans hnames')
      exact hin hin'
    exact htext (((hjson.lookup_json e.1).2 hskip).symm.trans (hnotasked hask))

/-- **Both modes decode just the fields that are asked for**, and the same, just if none are given, or there are none. -/
theorem roundTrips_iff (h : ∀ e ∈ values.entries, ∃ r, e.2.toString = .ok r) :
    RoundTrips checkFutures values fields ↔ (∀ names ∈ fields, names = []) ∨ values.entries = [] := by
  refine ⟨of_roundTrips h, fun hcond => ?_⟩
  obtain ⟨dest, hjson⟩ := exists_decodesTo ⟨true, checkFutures⟩ fields h
  obtain ⟨dest', hmap⟩ := exists_decodesTo ⟨false, checkFutures⟩ fields h
  have hsame : ∀ f, dest.lookup f = iteratorOf values f ∧ (Asked fields f ∨ iteratorOf values f = none) := by
    intro f
    rcases hcond with hnone | hempty
    · refine ⟨(hjson.lookup_json f).2 ?_, .inl fun names hnames hne => absurd (hnone names hnames) hne⟩
      rintro ⟨names, hnames, hf⟩
      rw [hnone names hnames] at hf
      cases hf
    · have htext : iteratorOf values f = none := by
        refine (iteratorOf_eq_none_iff h f).mpr fun hf => ?_
        have hmem : f ∈ values.entries.map Sigma.fst := AList.mem_keys.mp hf
        rw [hempty] at hmem
        cases hmem
      refine ⟨?_, .inr htext⟩
      by_cases hf : ∃ names ∈ fields, f ∈ names
      · rw [htext, (hjson.lookup_json f).1 hf]
      · exact (hjson.lookup_json f).2 hf
  refine ⟨dest, dest', hjson, hmap, fun f => ?_, fun f => ?_, fun f => by rw [(hsame f).1, hmap.lookup_map]⟩
  · obtain ⟨hdest, hasked⟩ := hsame f
    rw [hdest]
    exact ⟨fun _ => rfl, fun hnot => hasked.resolve_left hnot⟩
  · rw [hmap.lookup_map]
    exact ⟨fun _ => rfl, fun hnot => (hsame f).2.resolve_left hnot⟩

end

/-- A field is asked for that there is: the JSON mode leaves it out. -/
theorem not_roundTrips_one : ¬ RoundTrips false (AList.singleton [0x66] (.string (.ofString [0x31]))) (some [[0x66]]) := fun h => by
  have hcond := of_roundTrips (fun e he => by rw [List.mem_singleton.mp he]; exact ⟨_, rfl⟩) h
  rcases hcond with hnone | hempty
  · cases hnone _ rfl
  · cases hempty

theorem roundTrips_iff_one : RoundTrips false (AList.singleton [0x66] (.string (.ofString [0x31]))) none ↔
    (∀ names ∈ (none : Option (List Utf16)), names = []) ∨
      (AList.singleton [0x66] (.string (.ofString [0x31])) : Values Utf16).entries = [] :=
  roundTrips_iff fun e he => by rw [List.mem_singleton.mp he]; exact ⟨_, rfl⟩

end YcsbIvs.Couchbase
