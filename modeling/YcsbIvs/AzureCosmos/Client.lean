import YcsbIvs.Core.Consumption
import YcsbIvs.Extend.Inherited
import YcsbIvs.Foundations.Loops

/-!
# The Azure Cosmos binding

`insert` puts the values into an object as text nodes, with the key as its `id`. `read` returns of each node what `toString` renders it as, which for a text
node is a JSON literal: the text in quotation marks, with characters escaped. `update` reads the object, puts the values in and replaces it.
`extend` is inherited: so it appends to the literal, and puts that in.

The service sets fields of its own in an object that it stores (`serverFields`). An `ETag` that no longer matches is one of the ways in which a call may
throw.

**No field that is read back is what was inserted**, and an extend that appends has stored two characters too many at least
(`roundTrip_iff`). Over a run of extends they add up (`length_run`).
-/

namespace YcsbIvs.AzureCosmos

open YcsbIvs.Foundations YcsbIvs.Core YcsbIvs.Extend

/-! ### JSON -/

/-- A digit of a hexadecimal number. -/
def hexDigit (n : ℕ) : UInt16 := UInt16.ofNat (if n < 10 then 0x30 + n else 0x41 + (n - 10))

/-- A character of a JSON string, escaped if it has to be. -/
def escape (c : UInt16) : Utf16 :=
  if c = 0x22 then [0x5C, 0x22]
  else if c = 0x5C then [0x5C, 0x5C]
  else if c = 0x08 then [0x5C, 0x62]
  else if c = 0x09 then [0x5C, 0x74]
  else if c = 0x0A then [0x5C, 0x6E]
  else if c = 0x0C then [0x5C, 0x66]
  else if c = 0x0D then [0x5C, 0x72]
  else if c < 0x20 then [0x5C, 0x75, 0x30, 0x30, hexDigit (c.toNat / 16), hexDigit (c.toNat % 16)]
  else [c]

/-- The JSON literal of a string. -/
def literal (s : Utf16) : Utf16 := 0x22 :: s.flatMap escape ++ [0x22]

/-- `JsonNode`. -/
inductive JsonNode where
  /-- `TextNode`. -/
  | text (s : Utf16)
  /-- Any other, by its JSON text. -/
  | other (json : Utf16)
  deriving DecidableEq

/-- `toString()`. -/
def JsonNode.toString : JsonNode → Utf16
  | text s => literal s
  | other json => json

/-- `ObjectNode`. -/
abbrev ObjectNode := AList fun _ : Utf16 => JsonNode

/-! ### The service -/

/-- `id`. -/
def idField : Utf16 := [0x69, 0x64]

/-- The fields that the service sets: `_rid`, `_self`, `_etag`, `_attachments`, `_ts`. -/
def serverFields : List Utf16 :=
  [[0x5F, 0x72, 0x69, 0x64], [0x5F, 0x73, 0x65, 0x6C, 0x66], [0x5F, 0x65, 0x74, 0x61, 0x67],
    [0x5F, 0x61, 0x74, 0x74, 0x61, 0x63, 0x68, 0x6D, 0x65, 0x6E, 0x74, 0x73], [0x5F, 0x74, 0x73]]

/-- What the service does with a call that writes. -/
structure Write where
  /-- It throws. -/
  throws : Bool
  /-- What it sets. -/
  metadata : ObjectNode
  /-- These are fields of its own. -/
  names : ∀ f ∈ metadata, f ∈ serverFields

/-- The objects of the containers, by table and `id`. -/
abbrev Database := Utf16 → Utf16 → Option ObjectNode

/-- The object is stored. -/
def Database.store (db : Database) (table key : Utf16) (write : Write) (node : ObjectNode) : Database := fun t k =>
  if t = table ∧ k = key then some (write.metadata ∪ node) else db t k

/-! ### The binding -/

/-- The loop `node.put(name, string)`. -/
def putTexts (node : ObjectNode) (strings : List (Utf16 × Utf16)) : Except Throwable ObjectNode :=
  putAll Prod.fst (fun pair => .ok (some (.text pair.2))) strings node

/-- `insert(table, key, values)`. An object whose `id` is not the partition key is not accepted, nor without `useUpsert` one that is there. -/
def insert (useUpsert : Bool) (write : Write) (db : Database) (table key : Utf16) (values : Values Utf16) :
    Except Throwable (Status × Database) := do
  let (strings, _) ← getStringMap values.entries
  let node ← putTexts (AList.singleton idField (.text key)) strings
  if write.throws ∨ node.lookup idField ≠ some (.text key) ∨ (useUpsert = false ∧ (db table key).isSome) then .ok (.error, db)
  else .ok (.ok, db.store table key write node)

/-- What `read` puts for a field of an object, if it is asked for. -/
def readField (fields : Option (List Utf16)) (pair : Sigma fun _ : Utf16 => JsonNode) : Except Throwable (Option ByteIterator) :=
  if fields.all fun fields => fields.contains pair.1 then .ok (some (.string (.ofString pair.2.toString))) else .ok none

/-- `read(table, key, fields, result)`; `readItem` throws if there is no object. -/
def read (throws : Bool) (db : Database) (table key : Utf16) (fields : Option (List Utf16)) :
    Except Throwable (Status × Values Utf16 × Database) :=
  if throws then .ok (.notFound, ∅, db)
  else
    match db table key with
    | none => .ok (.notFound, ∅, db)
    | some node => do
      let result ← putAll Sigma.fst (readField fields) node.entries ∅
      .ok (.ok, result, db)

/-- What the service does in an attempt of `update`. -/
structure Attempt where
  /-- `readItem` throws. -/
  readThrows : Bool
  /-- `replaceItem`. -/
  write : Write

/-- `NUM_UPDATE_ATTEMPTS`. -/
def numUpdateAttempts : ℕ := 4

/-- The body of the loop in `update`: it goes on after a `CosmosException`. -/
def updateBody (db : Database) (table key : Utf16) (values : Entries) (attempt : Attempt) : Except Throwable (Status × Database) ⊕ Entries :=
  if attempt.readThrows then .inr values
  else
    match db table key with
    | none => .inr values
    | some node =>
      match getStringMap values with
      | .error e => .inl (.error e)
      | .ok (strings, values) =>
        match putTexts node strings with
        | .error e => .inl (.error e)
        | .ok node =>
          if attempt.write.throws ∨ node.lookup idField ≠ some (.text key) then .inr values
          else .inl (.ok (.ok, db.store table key attempt.write node))

/-- `update(table, key, values)`. -/
def update (attempts : ℕ → Attempt) (db : Database) (table key : Utf16) (values : Values Utf16) : Except Throwable (Status × Database) :=
  match loop (updateBody db table key) values.entries (firstRounds attempts numUpdateAttempts) with
  | .inl r => r
  | .inr _ => .ok (.error, db)

/-- `extend(table, key, values, maxfieldlength)`. -/
def extend (readThrows : Bool) (attempts : ℕ → Attempt) (db : Database) (table key : Utf16) (values : Values Utf16) (maxfieldlength : ℤ) :
    Except Throwable (Status × Values Utf16 × Database) :=
  inherited .ok (read readThrows) (update attempts) db table key values maxfieldlength

/-- The text of a field. -/
def Database.fieldText (db : Database) (table key f : Utf16) : Option Utf16 :=
  match (db table key).bind fun node => node.lookup f with
  | some (.text s) => some s
  | _ => none

/-- The fields that the client and the service add. -/
def Added (f : Utf16) : Prop := f = idField ∨ f ∈ serverFields

/-- `read` of all fields returns each of these values as it was, those left out that may be added ones. -/
def ReadsBack (db : Database) (table key : Utf16) (values : Values Utf16) : Prop :=
  ∃ result, read false db table key none = .ok (.ok, result, db) ∧
    ∀ f it s it', values.lookup f = some it → it.toString = .ok (s, it') → ¬ Added f → result.lookup f = some (.string (.ofString s))

/-- A field with a text, and what it is to be extended by. -/
structure Extended (db : Database) (table key : Utf16) (values : Values Utf16) (f old incr : Utf16) : Prop where
  /-- It is one of the record. -/
  notAdded : ¬ Added f
  /-- The text. -/
  old_eq : db.fieldText table key f = some old
  /-- What its iterator gives. -/
  incr_eq : ∃ it it', values.lookup f = some it ∧ it.toString = .ok (incr, it')

/-- Each field that stays below the cap has been extended. -/
def ExtendsBelow (db db' : Database) (table key : Utf16) (values : Values Utf16) (maxfieldlength : ℤ) : Prop :=
  ∀ f old incr, Extended db table key values f old incr → (old.length + incr.length : ℤ) < maxfieldlength →
    db'.fieldText table key f = some (old ++ incr)

/-! ### Literals -/

theorem length_escape (c : UInt16) : 1 ≤ (escape c).length := by
  rw [escape]
  split_ifs <;> simp

/-- A literal is longer than its string. -/
theorem length_literal (s : Utf16) : s.length + 2 ≤ (literal s).length := by
  have hescaped : s.length ≤ (s.flatMap escape).length := by
    induction s with
    | nil => exact Nat.zero_le _
    | cons c s ih =>
      have hc := length_escape c
      rw [List.flatMap_cons, List.length_append, List.length_cons]
      omega
  rw [literal, List.length_append, List.length_cons, List.length_singleton]
  omega

theorem literal_ne (s : Utf16) : literal s ≠ s := fun h => by
  have := length_literal s
  rw [h] at this
  omega

/-! ### Reading and writing -/

section

variable {node node' : ObjectNode} {strings : List (Utf16 × Utf16)} {fields : Option (List Utf16)} {result : Values Utf16}

theorem lookup_putTexts (hnd : (strings.map Prod.fst).Nodup) (h : putTexts node strings = .ok node') {pair : Utf16 × Utf16}
    (hpair : pair ∈ strings) : node'.lookup pair.1 = some (.text pair.2) := by
  obtain ⟨o, ho, hlookup⟩ := putAll_lookup hnd h hpair
  cases ho
  exact hlookup

theorem readField_ok (fields : Option (List Utf16)) (pair : Sigma fun _ : Utf16 => JsonNode) : ∃ o, readField fields pair = .ok o := by
  rw [readField]
  split_ifs
  · exact ⟨_, rfl⟩
  · exact ⟨_, rfl⟩

/-- A field that is asked for comes back as its node is rendered. -/
theorem lookup_read (h : putAll Sigma.fst (readField fields) node.entries ∅ = .ok result) {f : Utf16} {value : JsonNode}
    (hf : node.lookup f = some value) (hasked : (fields.all fun fields => fields.contains f) = true) :
    result.lookup f = some (.string (.ofString value.toString)) := by
  have hput := putAll_entries h hf
  rw [readField, if_pos hasked] at hput
  exact (Except.ok.inj hput).symm

/-- All that comes back are strings. -/
theorem string_of_read (h : putAll Sigma.fst (readField fields) node.entries ∅ = .ok result) {f : Utf16} {it : ByteIterator}
    (hf : result.lookup f = some it) : ∃ s, it = .string (.ofString s) := by
  have hmem : f ∈ node.entries.map Sigma.fst := mem_of_putAll h (AList.lookup_isSome.mp (by rw [hf]; rfl))
  obtain ⟨value, hvalue⟩ : ∃ value, node.lookup f = some value := Option.isSome_iff_exists.mp (AList.lookup_isSome.mpr (AList.mem_keys.mpr hmem))
  have hput := putAll_entries h hvalue
  rw [hf, readField] at hput
  split_ifs at hput
  · exact ⟨value.toString, (Option.some.inj (Except.ok.inj hput)).symm⟩
  · cases hput

theorem read_ok {throws : Bool} {db db' : Database} {table key : Utf16} (h : read throws db table key fields = .ok (.ok, result, db')) :
    db' = db ∧ ∃ node, db table key = some node ∧ putAll Sigma.fst (readField fields) node.entries ∅ = .ok result := by
  rw [read] at h
  split_ifs at h
  · cases h
  · cases hnode : db table key with
    | none =>
      rw [hnode] at h
      cases h
    | some node =>
      rw [hnode] at h
      obtain ⟨result', hput, h⟩ := bind_inv h
      cases h
      exact ⟨rfl, node, rfl, hput⟩

end

section

variable {db db' : Database} {table key : Utf16} {write : Write} {values : Values Utf16} {f : Utf16}

theorem store_self (db : Database) (table key : Utf16) (write : Write) (node : ObjectNode) :
    db.store table key write node table key = some (write.metadata ∪ node) := if_pos ⟨rfl, rfl⟩

/-- The service leaves the fields alone that are not its own. -/
theorem lookup_metadata (hf : ¬ Added f) (write : Write) (node : ObjectNode) : (write.metadata ∪ node).lookup f = node.lookup f :=
  AList.lookup_union_right fun hmem => hf (.inr (write.names f hmem))

theorem insert_ok {useUpsert : Bool} (h : insert useUpsert write db table key values = .ok (.ok, db')) :
    ∃ strings left node, getStringMap values.entries = .ok (strings, left) ∧
      putTexts (AList.singleton idField (.text key)) strings = .ok node ∧ db' = db.store table key write node := by
  obtain ⟨⟨strings, left⟩, hmap, h⟩ := bind_inv h
  obtain ⟨node, hput, h⟩ := bind_inv h
  split_ifs at h
  · cases h
  · cases h
    exact ⟨strings, left, node, hmap, hput, rfl⟩

/-- **What is read back after an insert** is what was inserted just if there are no fields but added ones. -/
theorem readsBack_iff {useUpsert : Bool} (h : insert useUpsert write db table key values = .ok (.ok, db')) :
    ReadsBack db' table key values ↔ ∀ f ∈ values, Added f := by
  obtain ⟨strings, left, node, hmap, hput, rfl⟩ := insert_ok h
  have hnd : (strings.map Prod.fst).Nodup := (keys_getStringMap hmap).symm ▸ values.nodupKeys
  constructor
  · rintro ⟨result, hread, hback⟩ f hf
    by_contra hadded
    obtain ⟨it, hit⟩ := Option.isSome_iff_exists.mp (AList.lookup_isSome.mpr hf)
    obtain ⟨s, it', hs, hmem⟩ := mem_getStringMap hmap (AList.mem_lookup_iff.mp hit)
    obtain ⟨-, node', hnode', hresult⟩ := read_ok hread
    obtain rfl : write.metadata ∪ node = node' := Option.some.inj ((store_self db table key write node).symm.trans hnode')
    have hstored : (write.metadata ∪ node).lookup f = some (.text s) := by
      rw [lookup_metadata hadded, lookup_putTexts hnd hput hmem]
    have hsame := (lookup_read hresult hstored rfl).symm.trans (hback f it s it' hit hs hadded)
    exact literal_ne s (by injection hsame with hsame; injection hsame with hsame; injection hsame)
  · intro hall
    obtain ⟨result, hresult⟩ := exists_putAll (fun pair _ => readField_ok none pair) ∅
    refine ⟨result, ?_, fun f it s it' hit _ hnot => absurd (hall f (AList.lookup_isSome.mp (by rw [hit]; rfl))) hnot⟩
    rw [read, if_neg Bool.false_ne_true, store_self]
    dsimp only
    rw [bind_ok hresult]

/-! ### Updating -/

/-- The iterators are strings that have not been read. -/
def Untouched (values : Entries) : Prop := ∀ e ∈ values, ∃ s, e.2 = .string (.ofString s)

/-- Reading leaves them as they are. -/
theorem getStringMap_untouched {entries left : Entries} (h : Untouched entries) {strings : List (Utf16 × Utf16)}
    (hmap : getStringMap entries = .ok (strings, left)) : left = entries := by
  induction entries generalizing strings left with
  | nil =>
    cases hmap
    rfl
  | cons e entries ih =>
    obtain ⟨⟨s, hs⟩, hrest⟩ := List.forall_mem_cons.mp h
    obtain ⟨name, it⟩ := e
    obtain rfl : it = .string (.ofString s) := hs
    obtain ⟨o, ho, hmap⟩ := bind_inv hmap
    cases ho
    obtain ⟨⟨strings', left'⟩, hmap', hmap⟩ := bind_inv hmap
    cases hmap
    rw [ih hrest hmap']

theorem updateBody_again {entries entries' : Entries} {attempt : Attempt} (h : Untouched entries)
    (hbody : updateBody db table key entries attempt = .inr entries') : entries' = entries := by
  rw [updateBody] at hbody
  split_ifs at hbody
  · exact (Sum.inr.inj hbody).symm
  · split at hbody
    · exact (Sum.inr.inj hbody).symm
    · split at hbody
      · cases hbody
      · next strings left hmap =>
        split at hbody
        · cases hbody
        · split_ifs at hbody
          rw [← Sum.inr.inj hbody]
          exact getStringMap_untouched h hmap

theorem updateBody_ok {entries : Entries} {attempt : Attempt} (hbody : updateBody db table key entries attempt = .inl (.ok (.ok, db'))) :
    ∃ node strings left node', db table key = some node ∧ getStringMap entries = .ok (strings, left) ∧
      putTexts node strings = .ok node' ∧ db' = db.store table key attempt.write node' := by
  rw [updateBody] at hbody
  split_ifs at hbody
  split at hbody
  · cases hbody
  · next node hnode =>
    split at hbody
    · cases hbody
    · next strings left hmap =>
      split at hbody
      · cases hbody
      · next node' hput =>
        split_ifs at hbody
        cases hbody
        exact ⟨node, strings, left, node', hnode, hmap, hput, rfl⟩

/-- An update with such iterators that succeeds has replaced the object by one with the texts put in. -/
theorem update_ok {attempts : ℕ → Attempt} (hvalues : Untouched values.entries) (h : update attempts db table key values = .ok (.ok, db')) :
    ∃ node strings left node' write, db table key = some node ∧ getStringMap values.entries = .ok (strings, left) ∧
      putTexts node strings = .ok node' ∧ db' = db.store table key write node' := by
  rw [update] at h
  cases hloop : loop (updateBody db table key) values.entries (firstRounds attempts numUpdateAttempts) with
  | inr left =>
    rw [hloop] at h
    cases h
  | inl r =>
    rw [hloop] at h
    obtain rfl : r = .ok (.ok, db') := h
    obtain ⟨done, attempt, rest, entries, -, hdone, hlast⟩ := loop_ends hloop
    have hsame : entries = values.entries :=
      loop_again (I := fun entries => entries = values.entries)
        (fun entries attempt entries' heq hbody => (updateBody_again (heq ▸ hvalues) hbody).trans heq) rfl hdone
    rw [hsame] at hlast
    obtain ⟨node, strings, left, node', hnode, hmap, hput, hdb⟩ := updateBody_ok hlast
    exact ⟨node, strings, left, node', attempt.write, hnode, hmap, hput, hdb⟩

/-! ### Extending -/

theorem fieldText_eq_some {s : Utf16} :
    db.fieldText table key f = some s ↔ ∃ node, db table key = some node ∧ node.lookup f = some (.text s) := by
  rw [Database.fieldText]
  cases db table key with
  | none => simp
  | some node =>
    simp only [Option.bind_some, Option.some_inj, exists_eq_left']
    cases node.lookup f with
    | none => simp
    | some value => cases value <;> simp

/-- What the loop of `extend` leaves of a string that has been read is a string. -/
theorem left_of_extends {maxfieldlength : ℤ} {s : Utf16} {given left : ByteIterator}
    (e : Extends maxfieldlength (.string (.ofString s)) given left) :
    left = .string (.ofString (if asInt (s.length + e.incr.length) < maxfieldlength then s ++ e.incr else s)) := by
  have hread : (ByteIterator.string (.ofString s)).toString = .ok (s, .string (.ofString s)) := rfl
  obtain ⟨horig, hused⟩ := Prod.mk.inj (Except.ok.inj (hread.symm.trans e.read_eq))
  refine e.left_eq.trans ?_
  rw [← horig, ← hused]
  split_ifs <;> rfl

/-- **What an extend stores**: the literal of the text with the increment, or at the cap the literal. -/
theorem fieldText_extend {readThrows : Bool} {attempts : ℕ → Attempt} {maxfieldlength : ℤ} {left : Values Utf16}
    (h : extend readThrows attempts db table key values maxfieldlength = .ok (.ok, left, db')) {old incr : Utf16}
    (hf : Extended db table key values f old incr) :
    db'.fieldText table key f =
      some (if asInt ((literal old).length + incr.length) < maxfieldlength then literal old ++ incr else literal old) := by
  obtain ⟨result, db₁, result', hread, hloop, hupdate⟩ := inherited_ok h
  obtain ⟨rfl, node, hnode, hresult⟩ := read_ok hread
  obtain ⟨hout, hin⟩ := extendLoop_lookup values.keys_nodup hloop
  -- All that is given to `update` are strings.
  have hstrings : Untouched result'.entries := by
    intro e he
    have hlookup : result'.lookup e.1 = some e.2 := AList.mem_lookup_iff.mpr he
    by_cases hasked : e.1 ∈ values.keys
    · obtain ⟨read, given, left', ⟨ext⟩, hreadf, -, hleft⟩ := hin e.1 hasked
      obtain ⟨s, rfl⟩ := string_of_read hresult hreadf
      obtain rfl : left' = e.2 := Option.some.inj (hleft.symm.trans hlookup)
      exact ⟨_, left_of_extends ext⟩
    · rw [hout e.1 hasked] at hlookup
      exact string_of_read hresult hlookup
  -- What it is given for the field.
  obtain ⟨it, it', hit, hincr⟩ := hf.incr_eq
  have hasked : f ∈ values.keys := AList.mem_keys.mp (AList.lookup_isSome.mp (by rw [hit]; rfl))
  obtain ⟨node', hnode', hold⟩ := fieldText_eq_some.mp hf.old_eq
  obtain rfl : node = node' := Option.some.inj (hnode.symm.trans hnode')
  obtain ⟨read, given, left', ⟨ext⟩, hreadf, hgiven, hleft⟩ := hin f hasked
  have hliteral := lookup_read hresult hold (by simpa using hasked)
  obtain rfl : read = .string (.ofString (literal old)) := Option.some.inj (hreadf.symm.trans hliteral)
  obtain rfl : given = it := Option.some.inj (hgiven.symm.trans hit)
  obtain rfl : ext.incr = incr := (Prod.mk.inj (Except.ok.inj (ext.given_eq.symm.trans hincr))).1
  -- What it stores for it.
  obtain ⟨node₁, strings, rest, node₂, write, hnode₁, hmap, hput, rfl⟩ := update_ok hstrings hupdate
  obtain ⟨s, it₂, hs, hmem⟩ := mem_getStringMap hmap (AList.mem_lookup_iff.mp hleft)
  rw [left_of_extends ext] at hs
  obtain rfl := (Prod.mk.inj (Except.ok.inj hs)).1
  have hnd : (strings.map Prod.fst).Nodup := (keys_getStringMap hmap).symm ▸ result'.nodupKeys
  refine fieldText_eq_some.mpr ⟨_, store_self _ table key write node₂, ?_⟩
  rw [lookup_metadata hf.notAdded, lookup_putTexts hnd hput hmem]
  rfl

/-- **When an extend stores what it should**: no field stays below the cap, but for those that only their literals take to the cap, and whose
literals happen to be what should be stored. -/
theorem extendsBelow_iff {readThrows : Bool} {attempts : ℕ → Attempt} {maxfieldlength : ℤ} {left : Values Utf16}
    (h : extend readThrows attempts db table key values maxfieldlength = .ok (.ok, left, db')) :
    ExtendsBelow db db' table key values maxfieldlength ↔
      ∀ f old incr, Extended db table key values f old incr → (old.length + incr.length : ℤ) < maxfieldlength →
        maxfieldlength ≤ asInt ((literal old).length + incr.length) ∧ literal old = old ++ incr := by
  refine forall₃_congr fun f old incr => forall₂_congr fun hf hbelow => ?_
  rw [fieldText_extend h hf, Option.some_inj]
  split_ifs with hcap
  · refine iff_of_false (fun heq => ?_) fun hboth => absurd hboth.1 (not_le.mpr hcap)
    exact literal_ne old (List.append_cancel_right heq)
  · exact (and_iff_right (not_lt.mp hcap)).symm

/-- Each field that is given has an increment. -/
theorem exists_incr {readThrows : Bool} {attempts : ℕ → Attempt} {maxfieldlength : ℤ} {left : Values Utf16}
    (h : extend readThrows attempts db table key values maxfieldlength = .ok (.ok, left, db')) (hf : f ∈ values) :
    ∃ incr it it', values.lookup f = some it ∧ it.toString = .ok (incr, it') := by
  obtain ⟨result, db₁, result', -, hloop, -⟩ := inherited_ok h
  obtain ⟨read, given, left', ⟨ext⟩, -, hgiven, -⟩ := (extendLoop_lookup values.keys_nodup hloop).2 f (AList.mem_keys.mp hf)
  exact ⟨ext.incr, given, ext.spent, hgiven, ext.given_eq⟩

/-- An extend leaves a text that is longer by two at least, below the cap or not. -/
theorem length_extend {readThrows : Bool} {attempts : ℕ → Attempt} {maxfieldlength : ℤ} {left : Values Utf16}
    (h : extend readThrows attempts db table key values maxfieldlength = .ok (.ok, left, db')) (hf : f ∈ values) (hadded : ¬ Added f)
    {old : Utf16} (hold : db.fieldText table key f = some old) : ∃ new, db'.fieldText table key f = some new ∧ old.length + 2 ≤ new.length := by
  obtain ⟨incr, hincr⟩ := exists_incr h hf
  refine ⟨_, fieldText_extend h ⟨hadded, hold, hincr⟩, ?_⟩
  have hlong := length_literal old
  split_ifs
  · rw [List.length_append]
    omega
  · exact hlong

/-- A call of `extend`. -/
structure ExtendCall where
  /-- `readItem` throws. -/
  readThrows : Bool
  /-- What the service does in the attempts of `update`. -/
  attempts : ℕ → Attempt
  /-- `values`. -/
  values : Values Utf16
  /-- `maxfieldlength`. -/
  maxfieldlength : ℤ

/-- A call that succeeds. -/
def extendStep (table key : Utf16) (db : Database) (call : ExtendCall) : Option Database :=
  match extend call.readThrows call.attempts db table key call.values call.maxfieldlength with
  | .ok (.ok, _, db') => some db'
  | _ => none

/-- **The difference accumulates**: in a run of extends of a field each makes it longer by two at least, so it passes any cap. -/
theorem length_run {calls : List ExtendCall} (hf : ∀ call ∈ calls, f ∈ call.values) (hadded : ¬ Added f) {old : Utf16}
    (hold : db.fieldText table key f = some old) (h : exec (extendStep table key) db calls = some db') :
    ∃ new, db'.fieldText table key f = some new ∧ old.length + 2 * calls.length ≤ new.length := by
  induction calls generalizing db old with
  | nil =>
    cases h
    exact ⟨old, hold, le_refl _⟩
  | cons call calls ih =>
    obtain ⟨hcall, hcalls⟩ := List.forall_mem_cons.mp hf
    obtain ⟨db₁, hstep, hrest⟩ := exec_cons h
    rw [extendStep] at hstep
    split at hstep
    · next left db₂ hextend =>
      cases hstep
      obtain ⟨mid, hmid, hlong⟩ := length_extend hextend hcall hadded hold
      obtain ⟨new, hnew, hlonger⟩ := ih hcalls hmid hrest
      refine ⟨new, hnew, ?_⟩
      rw [List.length_cons]
      omega
    · cases hstep

/-- **The round trip**: of an insert that succeeds what is read back, and of an extend that succeeds, in any state, what is stored. -/
theorem roundTrip_iff {useUpsert : Bool} (hinsert : insert useUpsert write db table key values = .ok (.ok, db')) {readThrows : Bool}
    {attempts : ℕ → Attempt} {before after : Database} {increments left : Values Utf16} {maxfieldlength : ℤ}
    (hextend : extend readThrows attempts before table key increments maxfieldlength = .ok (.ok, left, after)) :
    (ReadsBack db' table key values ↔ ∀ f ∈ values, Added f) ∧
      (ExtendsBelow before after table key increments maxfieldlength ↔
        ∀ f old incr, Extended before table key increments f old incr → (old.length + incr.length : ℤ) < maxfieldlength →
          maxfieldlength ≤ asInt ((literal old).length + incr.length) ∧ literal old = old ++ incr) :=
  ⟨readsBack_iff hinsert, extendsBelow_iff hextend⟩

end

/-- A service that sets nothing and does not throw. -/
def quiet : Write := ⟨false, ∅, fun _ h => absurd h (AList.notMem_empty _)⟩

/-- A field with a letter. -/
def letter (c : UInt16) : Values Utf16 := AList.singleton [0x66] (.string (.ofString [c]))

/-- The database in which `a` has been inserted. -/
def inserted : Database :=
  Database.store (fun _ _ => none) [0x74] [0x6B] quiet ((AList.singleton idField (.text [0x6B])).insert [0x66] (.text [0x61]))

theorem notAdded_letter : ¬ Added [0x66] := by simp [Added, idField, serverFields]

/-- A letter comes back in quotation marks, and one more is stored after those. -/
theorem roundTrip_iff_letter :
    ¬ ReadsBack inserted [0x74] [0x6B] (letter 0x61) ∧
      ∃ after left, extend false (fun _ => ⟨false, quiet⟩) inserted [0x74] [0x6B] (letter 0x62) 100 = .ok (.ok, left, after) ∧
        ¬ ExtendsBelow inserted after [0x74] [0x6B] (letter 0x62) 100 := by
  have hinsert : insert false quiet (fun _ _ => none) [0x74] [0x6B] (letter 0x61) = .ok (.ok, inserted) := rfl
  have hextend : extend false (fun _ => ⟨false, quiet⟩) inserted [0x74] [0x6B] (letter 0x62) 100 = .ok (.ok, _, _) := rfl
  obtain ⟨hread, hbelow⟩ := roundTrip_iff hinsert hextend
  refine ⟨fun h => notAdded_letter (hread.mp h [0x66] (by decide)), _, _, hextend, fun h => ?_⟩
  obtain ⟨hcap, -⟩ := hbelow.mp h [0x66] [0x61] [0x62] ⟨notAdded_letter, rfl, _, _, rfl, rfl⟩ (by decide)
  exact absurd hcap (by decide)

/-- A letter does not come back. -/
theorem not_roundTrip :
    ¬ ∀ (useUpsert : Bool) (write : Write) (db db' : Database) (table key : Utf16) (values : Values Utf16) (readThrows : Bool)
        (attempts : ℕ → Attempt) (before after : Database) (increments left : Values Utf16) (maxfieldlength : ℤ),
      insert useUpsert write db table key values = .ok (.ok, db') →
        extend readThrows attempts before table key increments maxfieldlength = .ok (.ok, left, after) →
          ReadsBack db' table key values ∧ ExtendsBelow before after table key increments maxfieldlength := by
  intro h
  have hinsert : insert false quiet (fun _ _ => none) [0x74] [0x6B] (letter 0x61) = .ok (.ok, inserted) := rfl
  have hextend : extend false (fun _ => ⟨false, quiet⟩) inserted [0x74] [0x6B] (letter 0x62) 100 = .ok (.ok, _, _) := rfl
  obtain ⟨⟨result, hread, hback⟩, -⟩ := h _ _ _ _ _ _ _ _ _ _ _ _ _ _ hinsert hextend
  have hsame := hback [0x66] _ [0x61] _ rfl rfl notAdded_letter
  cases hread
  cases hsame

end YcsbIvs.AzureCosmos
