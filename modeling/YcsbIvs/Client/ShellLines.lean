import YcsbIvs.Client.Shell
import YcsbIvs.Core.StringRoundTrip

/-!
# Which sessions end with `quit`, and what they show

Over a database that answers, a session ends with `quit` **just if the lines before are in order** (`quit_iff`): none is of blanks alone, each pair of an insert or an update
has something after its first `=` that is not a `=` as well, and the third word of a scan is an `int`.

Over a store that reads back what was last written, what a session inserts **it shows when it reads the record**, if no line between writes it (`reads_back`). A store in memory that
reads named fields is one of both kinds (`Memory.store`).
-/

namespace YcsbIvs.Client.CommandLine

open YcsbIvs.Foundations YcsbIvs.Core YcsbIvs.Generator
open YcsbIvs.Workloads (parseInt)
open YcsbIvs.Core.Wrapping (constantName)

variable {σ : Type}

/-! ### Lines in order -/

/-- There is a value in `name=value`: something after the first `=` that is not a `=`. -/
def HasValue (token : Utf16) : Prop := ∃ name rest, token = name ++ 0x3D :: rest ∧ 0x3D ∉ name ∧ ∃ c ∈ rest, c ≠ 0x3D

/-- The line can be taken for what it is. -/
structure InOrder (input : Utf16) : Prop where
  /-- It has a word, unless it is empty. -/
  word : input ≠ [] → ∃ c ∈ input, c ≠ 0x20
  /-- The count of a scan. -/
  count : ∀ name startkey recordcount rest, split [0x20] input = name :: startkey :: recordcount :: rest → name = ascii "scan" →
    ∃ n, parseInt recordcount = .ok n
  /-- The values of an insert or an update. -/
  values : ∀ name key pairs, split [0x20] input = name :: key :: pairs → name = ascii "insert" ∨ name = ascii "update" → ∀ pair ∈ pairs, HasValue pair

theorem elementAt_ok_iff {α : Type} {array : List α} {n : ℕ} : (∃ a, elementAt array n = .ok a) ↔ n < array.length := by
  rw [elementAt, if_neg (by omega), Int.toNat_natCast]
  by_cases h : n < array.length
  · rw [List.getElem?_eq_getElem h]
    exact iff_of_true ⟨_, rfl⟩ h
  · rw [List.getElem?_eq_none (not_lt.mp h)]
    exact iff_of_false (fun ⟨_, hc⟩ => nomatch hc) h

theorem hasValue_iff (token : Utf16) : HasValue token ↔ 1 < (split [0x3D] token).length := one_lt_length_split_iff.symm

/-- The values can be read just if each word has one. -/
theorem readValues_ok_iff {tokens : List Utf16} (values : Values Utf16) : (∃ r, readValues tokens values = .ok r) ↔ ∀ token ∈ tokens, HasValue token := by
  induction tokens generalizing values with
  | nil => exact iff_of_true ⟨values, rfl⟩ fun _ h => absurd h List.not_mem_nil
  | cons token tokens ih =>
    rw [List.forall_mem_cons, hasValue_iff, readValues]
    constructor
    · rintro ⟨r, h⟩
      obtain ⟨name, -, h⟩ := bind_inv h
      obtain ⟨value, hvalue, h⟩ := bind_inv h
      exact ⟨elementAt_ok_iff.mp ⟨value, hvalue⟩, (ih _).mp ⟨r, h⟩⟩
    · rintro ⟨hlength, hrest⟩
      obtain ⟨name, hname⟩ := elementAt_ok_iff.mpr (show 0 < (split [0x3D] token).length by omega)
      obtain ⟨value, hvalue⟩ := elementAt_ok_iff.mpr hlength
      obtain ⟨r, hr⟩ := (ih (values.insert name (.string (.ofString value)))).mpr hrest
      exact ⟨r, (bind_ok hname _).trans ((bind_ok hvalue _).trans hr)⟩

/-- **A line asks for something just if it is in order.** -/
theorem asked_ok_iff {input : Utf16} (hne : input ≠ []) : (∃ call, asked (split [0x20] input) = .ok call) ↔ InOrder input := by
  have hword : split [0x20] input ≠ [] ↔ ∃ c ∈ input, c ≠ 0x20 := by
    rw [Ne, split_eq_nil_iff]
    push Not
    exact ⟨fun h => h hne, fun h _ => h⟩
  constructor
  · rintro ⟨call, h⟩
    obtain ⟨name, hname, h⟩ := bind_inv h
    refine ⟨fun _ => hword.mp fun hnil => ?_, fun name' startkey recordcount rest hsplit hscan => ?_, fun name' key pairs hsplit hwrites => ?_⟩
    · rw [hnil] at hname
      cases hname
    · rw [hsplit] at hname h
      obtain rfl : name' = name := Except.ok.inj hname
      subst hscan
      rw [if_neg (by decide), if_neg (by decide), if_pos rfl, askedScan, if_neg (by simp)] at h
      obtain ⟨_, -, h⟩ := bind_inv h
      obtain ⟨n, hn, -⟩ := bind_inv h
      exact ⟨n, hn⟩
    · rw [hsplit] at hname h
      obtain rfl : name' = name := Except.ok.inj hname
      cases pairs with
      | nil => exact fun pair hpair => absurd hpair List.not_mem_nil
      | cons pair pairs =>
        have hread : ∀ make, askedWrite make (name' :: key :: pair :: pairs) = .ok call → ∃ r, readValues (pair :: pairs) ∅ = .ok r := by
          intro make hasked
          rw [askedWrite, if_neg (by simp)] at hasked
          obtain ⟨values, hvalues, -⟩ := bind_inv hasked
          exact ⟨values, hvalues⟩
        rcases hwrites with rfl | rfl
        · rw [if_neg (by decide), if_neg (by decide), if_neg (by decide), if_neg (by decide), if_pos rfl] at h
          exact (readValues_ok_iff ∅).mp (hread _ h)
        · rw [if_neg (by decide), if_neg (by decide), if_neg (by decide), if_pos rfl] at h
          exact (readValues_ok_iff ∅).mp (hread _ h)
  · intro hin
    obtain ⟨name, rest, hsplit⟩ := List.exists_cons_of_ne_nil (hword.mpr (hin.word hne))
    have hwrite : (name = ascii "insert" ∨ name = ascii "update") → ∀ make, ∃ call, askedWrite make (name :: rest) = .ok call := by
      intro hname make
      rw [askedWrite]
      rcases rest with _ | ⟨key, _ | ⟨pair, pairs⟩⟩
      · exact ⟨none, rfl⟩
      · exact ⟨none, rfl⟩
      · rw [if_neg (by simp)]
        obtain ⟨values, hvalues⟩ := (readValues_ok_iff ∅).mpr (hin.values name key (pair :: pairs) hsplit hname)
        exact ⟨_, bind_ok hvalues _⟩
    have hname : elementAt (name :: rest) 0 = .ok name := rfl
    rw [hsplit, asked, bind_ok hname]
    split_ifs with htable hread hscan hupdate hinsert hdelete
    · exact ⟨none, rfl⟩
    · rw [askedRead]
      cases rest with
      | nil => exact ⟨none, rfl⟩
      | cons key rest => exact ⟨_, if_neg (by simp)⟩
    · rw [askedScan]
      rcases rest with _ | ⟨startkey, _ | ⟨recordcount, rest⟩⟩
      · exact ⟨none, rfl⟩
      · exact ⟨none, rfl⟩
      · rw [if_neg (by simp)]
        obtain ⟨n, hn⟩ := hin.count name startkey recordcount rest hsplit hscan
        have hcount : (elementAt (name :: startkey :: recordcount :: rest) 2 >>= parseInt) = .ok n := hn
        exact ⟨_, bind_ok hcount _⟩
    · exact hwrite (.inr hupdate) _
    · exact hwrite (.inl hinsert) _
    · rw [askedDelete]
      rcases rest with _ | ⟨key, _ | ⟨_, _⟩⟩
      · exact ⟨none, rfl⟩
      · exact ⟨_, if_neg (by simp)⟩
      · exact ⟨none, if_pos (by simp)⟩
    · exact ⟨none, rfl⟩

/-! ### A store in memory -/

/-- The fields of a record that are asked for. -/
def readFields (r : Record Utf16) : List Utf16 → Values Utf16
  | [] => ∅
  | f :: fields =>
    match r f with
    | some bs => (readFields r fields).insert f (.byteArray (.ofArray bs))
    | none => readFields r fields

theorem lookup_readFields (r : Record Utf16) (fields : List Utf16) (f : Utf16) :
    (readFields r fields).lookup f = if f ∈ fields then (r f).map fun bs => .byteArray (.ofArray bs) else none := by
  induction fields with
  | nil => rfl
  | cons g fields ih =>
    rw [readFields]
    by_cases hfg : f = g
    · subst hfg
      rw [if_pos List.mem_cons_self]
      cases hr : r f with
      | some bs => exact AList.lookup_insert _
      | none =>
        rw [hr] at ih
        rw [ih]
        simp
    · simp only [List.mem_cons, hfg, false_or]
      cases r g with
      | some bs => exact (AList.lookup_insert_ne hfg).trans ih
      | none => exact ih

/-- What is asked for can be put into arrays. -/
def FitsArrays (r : Record Utf16) (fields : List Utf16) : Prop := ∀ f ∈ fields, ∀ bs ∈ r f, bs.length < 2 ^ 31

instance (r : Record Utf16) (fields : List Utf16) : Decidable (FitsArrays r fields) := inferInstanceAs (Decidable (∀ _ ∈ _, ∀ _ ∈ _, _))

/-- All values can be read. -/
def AllReadable (values : Values Utf16) : Prop := ∀ entry ∈ values.entries, entry.2.contents.isSome = true

instance (values : Values Utf16) : Decidable (AllReadable values) := inferInstanceAs (Decidable (∀ _ ∈ _, _))

theorem AllReadable.readable {values : Values Utf16} (h : AllReadable values) : Readable values := fun f it hit =>
  Option.isSome_iff_exists.mp (h ⟨f, it⟩ (AList.mem_lookup_iff.mp hit))

/-- The records of a store in memory. -/
abbrev Memory := Records Utf16 Utf16

namespace Memory

/-- `read`, of named fields. -/
def read (m : Memory) (table key : Utf16) : Option (List Utf16) → Status × Values Utf16
  | none => (.notImplemented, ∅)
  | some fields =>
    match m table key with
    | none => (.notFound, ∅)
    | some r => if FitsArrays r fields then (.ok, readFields r fields) else (.error, ∅)

/-- `update`. -/
def update (m : Memory) (table key : Utf16) (values : Values Utf16) : Status × Memory :=
  match m table key with
  | none => (.notFound, m)
  | some r => if AllReadable values then (.ok, m.set table key (some (r.merge values))) else (.error, m)

/-- `insert`. -/
def insert (m : Memory) (table key : Utf16) (values : Values Utf16) : Status × Memory :=
  if AllReadable values then (.ok, m.set table key (some (contentsOf values))) else (.error, m)

/-- What `read` gives. -/
theorem read_cases (m : Memory) (t k : Utf16) (fields : Option (List Utf16)) :
    ((m.read t k fields).1 ≠ .ok ∧ (m.read t k fields).2 = ∅) ∨
      ∃ r names, m t k = some r ∧ fields = some names ∧ FitsArrays r names ∧ m.read t k fields = (.ok, readFields r names) := by
  cases fields with
  | none => exact .inl ⟨show Status.notImplemented ≠ .ok by decide, rfl⟩
  | some names =>
    rw [read]
    cases m t k with
    | none => exact .inl ⟨show Status.notFound ≠ .ok by decide, rfl⟩
    | some r =>
      by_cases hfits : FitsArrays r names
      · exact .inr ⟨r, names, rfl, rfl, hfits, if_pos hfits⟩
      · exact .inl (by simp [hfits])

/-- What `update` does. -/
theorem update_cases (m : Memory) (t k : Utf16) (values : Values Utf16) :
    ((m.update t k values).1.isOk = false ∧ (m.update t k values).2 = m) ∨
      ∃ r, m t k = some r ∧ AllReadable values ∧ m.update t k values = (.ok, m.set t k (some (r.merge values))) := by
  rw [update]
  cases m t k with
  | none => exact .inl ⟨rfl, rfl⟩
  | some r =>
    by_cases hall : AllReadable values
    · exact .inr ⟨r, rfl, hall, if_pos hall⟩
    · exact .inl (by simp [hall, Status.isOk])

/-- What `insert` does. -/
theorem insert_cases (m : Memory) (t k : Utf16) (values : Values Utf16) :
    ((m.insert t k values).1.isOk = false ∧ (m.insert t k values).2 = m) ∨
      AllReadable values ∧ m.insert t k values = (.ok, m.set t k (some (contentsOf values))) := by
  rw [insert]
  by_cases hall : AllReadable values
  · exact .inr ⟨hall, if_pos hall⟩
  · exact .inl (by simp [hall, Status.isOk])

/-- What is read holds the bytes of the record. -/
theorem readFields_holds {r : Record Utf16} {names : List Utf16} (hfits : FitsArrays r names) {f : Utf16} {it : ByteIterator}
    (hit : (readFields r names).lookup f = some it) : ∃ a bs, it = .byteArray a ∧ a.Holds bs ∧ r f = some bs := by
  rw [lookup_readFields] at hit
  split_ifs at hit with hf
  obtain ⟨bs, hbs, rfl⟩ := Option.map_eq_some_iff.mp hit
  exact ⟨_, bs, rfl, ByteArrayByteIterator.holds_ofArray (hfits f hf bs hbs), hbs⟩

/-- The store in memory. -/
def store : Store Memory where
  read m t k fields := .ok (some (m.read t k fields).1, (m.read t k fields).2, m)
  update m t k values := .ok (some (m.update t k values).1, values, (m.update t k values).2)
  insert m t k values := .ok (some (m.insert t k values).1, values, (m.insert t k values).2)
  scan m _ _ _ _ := .ok (some .notImplemented, [], m)
  delete m t k := .ok (some .ok, m.set t k none)
  records m := m
  drains _ _ _ _ _ := false
  read_records h := by
    cases h
    rfl
  read_ok {m t k fields result m'} h := by
    obtain ⟨hst, h⟩ := Prod.mk.inj (Except.ok.inj h)
    rcases read_cases m t k (some fields) with ⟨hnot, -⟩ | ⟨r, names, hr, hnames, hfits, hread⟩
    · exact absurd (Option.some.inj hst) hnot
    · rw [hread] at h
      cases hnames
      cases h
      refine ⟨r, hr, fun f hf bs hbs => ?_, fun f it => readFields_holds hfits⟩
      rw [← AList.lookup_isSome, lookup_readFields, if_pos hf, hbs]
      rfl
  read_holds {m t k fields st result m'} h f it hit := by
    obtain ⟨-, h⟩ := Prod.mk.inj (Except.ok.inj h)
    rcases read_cases m t k fields with ⟨-, hnil⟩ | ⟨r, names, hr, -, hfits, hread⟩
    · rw [hnil] at h
      cases h
      cases hit
    · rw [hread] at h
      cases h
      obtain ⟨a, bs, ha, hholds, hbs⟩ := readFields_holds hfits hit
      exact ⟨r, a, bs, hr, ha, hholds, hbs⟩
  update_records {m t k values st values' m'} h := by
    cases h
    rcases update_cases m t k values with ⟨hst, hsame⟩ | ⟨r, hr, hall, heq⟩
    · refine .inr ⟨fun hok => ?_, hsame⟩
      rw [Option.some.inj hok] at hst
      cases hst
    · exact .inl ⟨r, hr, hall.readable, by rw [heq]⟩
  update_fails {m t k values st values' m'} h hfails := by
    cases h
    rcases update_cases m t k values with ⟨-, hsame⟩ | ⟨r, -, -, heq⟩
    · exact hsame
    · rw [heq] at hfails
      cases hfails
  insert_values {m t k values st values' m'} h f := by
    cases h
    cases values.lookup f <;> rfl
  insert_ok {m t k values st values' m'} h hok := by
    cases h
    rcases insert_cases m t k values with ⟨hst, -⟩ | ⟨hall, heq⟩
    · rw [hst] at hok
      cases hok
    · rw [heq]
      exact ⟨hall.readable, Records.set_self ..⟩
  insert_records {m t k values st values' m'} h := by
    cases h
    rcases insert_cases m t k values with ⟨hst, hsame⟩ | ⟨hall, heq⟩
    · exact .inr ⟨hst, hsame⟩
    · exact .inl ⟨hall.readable, by rw [heq]⟩
  scan_records h := by
    cases h
    rfl
  delete_records h := by
    cases h
    exact .inl rfl

end Memory

/-! ### A database that answers -/

/-- The entries of a map can be shown. -/
def Shown (values : Values Utf16) : Prop := ∀ entry ∈ values.entries, ∃ r, entry.2.toString = .ok r

/-- No operation throws or has no status, and what it gives can be shown. -/
structure Answers (D : Database σ) : Prop where
  /-- `read`. -/
  read : ∀ s t k fields, ∃ st result s', D.read s t k fields = .ok (some st, result, s') ∧ Shown result
  /-- `scan`. -/
  scan : ∀ s t k n fields, ∃ st results s', D.scan s t k n fields = .ok (some st, results, s') ∧ ∀ result ∈ results, Shown result
  /-- `update`. -/
  update : ∀ s t k values, ∃ st left s', D.update s t k values = .ok (some st, left, s')
  /-- `insert`. -/
  insert : ∀ s t k values, ∃ st left s', D.insert s t k values = .ok (some st, left, s')
  /-- `delete`. -/
  delete : ∀ s t k, ∃ st s', D.delete s t k = .ok (some st, s')

theorem showEntries_ok {entries : List (Σ _ : Utf16, ByteIterator)} (h : ∀ entry ∈ entries, ∃ r, entry.2.toString = .ok r) :
    ∃ lines, showEntries entries = .ok lines := by
  induction entries with
  | nil => exact ⟨[], rfl⟩
  | cons entry entries ih =>
    obtain ⟨⟨r, hr⟩, hrest⟩ := List.forall_mem_cons.mp h
    obtain ⟨lines, hlines⟩ := ih hrest
    exact ⟨_, (bind_ok hr _).trans (bind_ok hlines _)⟩

theorem showEntries_order (order : EntryOrder) {values : Values Utf16} (h : Shown values) : ∃ lines, showEntries (order.entrySet values.entries) = .ok lines :=
  showEntries_ok fun entry hentry => h entry ((order.perm _).mem_iff.mp hentry)

theorem showRecords_ok (order : EntryOrder) {results : List (Values Utf16)} (h : ∀ result ∈ results, Shown result) (record : ℕ) :
    ∃ lines, showRecords order record results = .ok lines := by
  induction results generalizing record with
  | nil => exact ⟨[], rfl⟩
  | cons result results ih =>
    obtain ⟨hresult, hrest⟩ := List.forall_mem_cons.mp h
    obtain ⟨lines, hlines⟩ := showEntries_order order hresult
    obtain ⟨rest, hmore⟩ := ih hrest (record + 1)
    exact ⟨_, (bind_ok hlines _).trans (bind_ok hmore _)⟩

theorem own_ok {α : Type} {x : Except Thrown α} {a : α} (h : x = .ok a) : own x = .ok a := h ▸ rfl

theorem called_ok {α : Type} {x : Except Throwable α} {a : α} (h : x = .ok a) : called x = .ok a := h ▸ rfl

/-- Then a command returns just if the line asks for something. -/
theorem command_ok_iff {D : Database σ} (hD : Answers D) (order : EntryOrder) (tokens : List Utf16) (table : Utf16) (s : σ) :
    (∃ r, command D order tokens table s = .ok r) ↔ ∃ call, asked tokens = .ok call := by
  constructor
  · rintro ⟨⟨output, s'⟩, h⟩
    cases command_does h with
    | none hasked _ => exact ⟨none, hasked⟩
    | some call hasked _ => exact ⟨some call, hasked⟩
  · rintro ⟨call, h⟩
    obtain ⟨name, hname, h⟩ := bind_inv h
    rw [command, bind_ok (own_ok hname)]
    split_ifs at h ⊢
    · exact ⟨_, rfl⟩
    · rw [askedRead] at h
      rw [handleRead]
      split_ifs at h ⊢
      · exact ⟨_, rfl⟩
      · obtain ⟨key, hkey, -⟩ := bind_inv h
        obtain ⟨st, result, s', hread, hshown⟩ := hD.read s table key (fieldsFrom 2 tokens)
        obtain ⟨lines, hlines⟩ := showEntries_order order hshown
        rw [bind_ok (own_ok hkey), bind_ok (called_ok hread)]
        exact ⟨_, bind_ok (called_ok hlines) _⟩
    · rw [askedScan] at h
      rw [handleScan]
      split_ifs at h ⊢
      · exact ⟨_, rfl⟩
      · obtain ⟨startkey, hkey, h⟩ := bind_inv h
        obtain ⟨n, hn, -⟩ := bind_inv h
        obtain ⟨st, results, s', hscan, hshown⟩ := hD.scan s table startkey n (fieldsFrom 3 tokens)
        obtain ⟨records, hrecords⟩ := showRecords_ok order hshown 0
        rw [bind_ok (own_ok hkey), bind_ok (own_ok hn), bind_ok (called_ok hscan)]
        exact ⟨_, bind_ok (called_ok hrecords) _⟩
    · rw [askedWrite] at h
      rw [handleUpdate]
      split_ifs at h ⊢
      · exact ⟨_, rfl⟩
      · obtain ⟨values, hvalues, h⟩ := bind_inv h
        obtain ⟨key, hkey, -⟩ := bind_inv h
        obtain ⟨st, left, s', hupdate⟩ := hD.update s table key values
        rw [bind_ok (own_ok hvalues), bind_ok (own_ok hkey), bind_ok (called_ok hupdate)]
        exact ⟨_, rfl⟩
    · rw [askedWrite] at h
      rw [handleInsert]
      split_ifs at h ⊢
      · exact ⟨_, rfl⟩
      · obtain ⟨values, hvalues, h⟩ := bind_inv h
        obtain ⟨key, hkey, -⟩ := bind_inv h
        obtain ⟨st, left, s', hinsert⟩ := hD.insert s table key values
        rw [bind_ok (own_ok hvalues), bind_ok (own_ok hkey), bind_ok (called_ok hinsert)]
        exact ⟨_, rfl⟩
    · rw [askedDelete] at h
      rw [handleDelete]
      split_ifs at h ⊢
      · exact ⟨_, rfl⟩
      · obtain ⟨key, hkey, -⟩ := bind_inv h
        obtain ⟨st, s', hdelete⟩ := hD.delete s table key
        rw [bind_ok (own_ok hkey), bind_ok (called_ok hdelete)]
        exact ⟨_, rfl⟩
    · exact ⟨_, rfl⟩

theorem inOrder_passed {input : Utf16} (h : IsPassed input) : InOrder input := by
  rcases h with rfl | rfl
  · refine ⟨fun hne => absurd rfl hne, fun name startkey recordcount rest hsplit => ?_, fun name key pairs hsplit => ?_⟩ <;>
      exact absurd (congrArg List.length hsplit) (by simp [split, partsLoop])
  · have hsplit : split [0x20] (ascii "help") = [ascii "help"] := by decide
    refine ⟨fun _ => by decide, fun name startkey recordcount rest hsplit' => ?_, fun name key pairs hsplit' => ?_⟩ <;>
      exact absurd (congrArg List.length (hsplit.symm.trans hsplit')) (by simp)

/-- The lines up to `quit` are in order. -/
def InOrderUpToQuit (lines : List Utf16) : Prop := ∃ before after, lines = before ++ ascii "quit" :: after ∧ ∀ input ∈ before, InOrder input

theorem inOrderUpToQuit_cons (input : Utf16) (lines : List Utf16) :
    InOrderUpToQuit (input :: lines) ↔ input = ascii "quit" ∨ InOrder input ∧ InOrderUpToQuit lines := by
  constructor
  · rintro ⟨before, after, heq, hall⟩
    cases before with
    | nil => exact .inl (List.cons.inj heq).1
    | cons first before =>
      obtain ⟨rfl, rfl⟩ := List.cons.inj heq
      obtain ⟨hfirst, hrest⟩ := List.forall_mem_cons.mp hall
      exact .inr ⟨hfirst, before, after, rfl, hrest⟩
  · rintro (rfl | ⟨hfirst, before, after, rfl, hrest⟩)
    · exact ⟨[], lines, rfl, fun _ h => absurd h List.not_mem_nil⟩
    · exact ⟨input :: before, after, rfl, List.forall_mem_cons.mpr ⟨hfirst, hrest⟩⟩

/-- **Over a database that answers a session ends with `quit`** just if there is one, and the lines before are in order. -/
theorem quit_iff {D : Database σ} (hD : Answers D) (order : EntryOrder) (table : Utf16) (lines : List (Utf16 × ℤ)) (s : σ) :
    (mainLoop D order table lines s).ended = .quit ↔ InOrderUpToQuit (lines.map Prod.fst) := by
  induction lines generalizing s with
  | nil => exact iff_of_false (fun h => nomatch h) fun ⟨before, _, h, _⟩ => by simp at h
  | cons line lines ih =>
    obtain ⟨input, ms⟩ := line
    rw [List.map_cons, inOrderUpToQuit_cons]
    by_cases hpassed : IsPassed input
    · obtain ⟨printed, heq⟩ := mainLoop_passed D order table hpassed ms lines s
      rw [heq, ended_after, ih, or_iff_right fun hquit : input = ascii "quit" => not_passed_quit (hquit ▸ hpassed), and_iff_right (inOrder_passed hpassed)]
    · by_cases hquit : input = ascii "quit"
      · subst hquit
        rw [mainLoop_quit]
        exact iff_of_true rfl (.inl rfl)
      · have hasked := asked_ok_iff fun hnil => hpassed (.inl hnil)
        rw [mainLoop_command hpassed hquit, or_iff_right hquit, ← hasked, ← command_ok_iff hD order _ table s]
        cases hcommand : command D order (split [0x20] input) table s with
        | error u => exact iff_of_false (fun h => nomatch h) fun h => by simp at h
        | ok r =>
          obtain ⟨output, t⟩ := r
          rw [ended_after, ih, and_iff_right ⟨_, rfl⟩]

theorem Memory.answers : Answers Memory.store.toDatabase where
  read m t k fields := by
    refine ⟨_, _, m, rfl, fun entry hentry => ?_⟩
    rcases Memory.read_cases m t k fields with ⟨-, hnil⟩ | ⟨r, names, -, -, hfits, hread⟩
    · rw [hnil] at hentry
      exact absurd hentry List.not_mem_nil
    · rw [hread] at hentry
      obtain ⟨a, bs, ha, hholds, -⟩ := Memory.readFields_holds hfits (AList.mem_lookup_iff.mpr hentry)
      exact ⟨_, ha ▸ ByteIterator.toString_byteArray hholds⟩
  scan m _ _ _ _ := ⟨_, _, m, rfl, fun _ h => absurd h List.not_mem_nil⟩
  update _ _ _ _ := ⟨_, _, _, rfl⟩
  insert _ _ _ _ := ⟨_, _, _, rfl⟩
  delete _ _ _ := ⟨_, _, rfl⟩

theorem quit_iff_two :
    (mainLoop Memory.store.toDatabase .asStored (ascii "usertable") [(ascii "insert k f=v", 3), (ascii "quit", 0)] fun _ _ => none).ended = .quit :=
  (quit_iff Memory.answers .asStored (ascii "usertable") [(ascii "insert k f=v", 3), (ascii "quit", 0)] fun _ _ => none).mpr
    ((inOrderUpToQuit_cons _ _).mpr (.inr ⟨(asked_ok_iff (by decide)).mp ⟨_, rfl⟩, (inOrderUpToQuit_cons _ _).mpr (.inl rfl)⟩))

/-! ### What is read back -/

/-- A word of a line. -/
structure IsWord (word : Utf16) : Prop where
  /-- It is not empty. -/
  ne_nil : word ≠ []
  /-- There is no blank in it. -/
  noBlank : 0x20 ∉ word

/-- A field and its value, as a word of a line. -/
structure IsPair (pair : Utf16 × Utf16) : Prop where
  /-- The name. -/
  name : IsWord pair.1
  /-- It has no `=`. -/
  name_apart : 0x3D ∉ pair.1
  /-- The value. -/
  value : IsWord pair.2
  /-- It has no `=`. -/
  value_apart : 0x3D ∉ pair.2
  /-- It comes back from its bytes. -/
  plain : ∀ c ∈ pair.2, IsPlain c

/-- `name=value`. -/
def pairWord (pair : Utf16 × Utf16) : Utf16 := pair.1 ++ 0x3D :: pair.2

/-- The line that inserts a record. -/
def insertLine (key : Utf16) (pairs : List (Utf16 × Utf16)) : Utf16 := joined 0x20 (ascii "insert" :: key :: pairs.map pairWord)

/-- The line that reads its fields. -/
def readLine (key : Utf16) (pairs : List (Utf16 × Utf16)) : Utf16 := joined 0x20 (ascii "read" :: key :: pairs.map Prod.fst)

section

variable {key : Utf16} {pairs : List (Utf16 × Utf16)}

theorem split_line {words : List Utf16} (hwords : ∀ word ∈ words, IsWord word) (hne : words ≠ []) : split [0x20] (joined 0x20 words) = words :=
  split_joined (fun word h => (hwords word h).noBlank) (fun word h => (hwords word (List.mem_of_getLast? h)).ne_nil) hne

theorem split_insertLine (hkey : IsWord key) (hpairs : ∀ pair ∈ pairs, IsPair pair) :
    split [0x20] (insertLine key pairs) = ascii "insert" :: key :: pairs.map pairWord := by
  refine split_line ?_ (List.cons_ne_nil _ _)
  rw [List.forall_mem_cons, List.forall_mem_cons]
  refine ⟨⟨by decide, by decide⟩, hkey, fun word hword => ?_⟩
  obtain ⟨pair, hpair, rfl⟩ := List.mem_map.mp hword
  have h := hpairs pair hpair
  refine ⟨by simp [pairWord], ?_⟩
  rw [pairWord, List.mem_append, List.mem_cons]
  rintro (hname | heq | hvalue)
  · exact h.name.noBlank hname
  · exact absurd heq (by decide)
  · exact h.value.noBlank hvalue

theorem split_readLine (hkey : IsWord key) (hpairs : ∀ pair ∈ pairs, IsPair pair) :
    split [0x20] (readLine key pairs) = ascii "read" :: key :: pairs.map Prod.fst := by
  refine split_line ?_ (List.cons_ne_nil _ _)
  rw [List.forall_mem_cons, List.forall_mem_cons]
  refine ⟨⟨by decide, by decide⟩, hkey, fun word hword => ?_⟩
  obtain ⟨pair, hpair, rfl⟩ := List.mem_map.mp hword
  exact (hpairs pair hpair).name

/-- The map of some pairs. -/
def valuesFrom (values : Values Utf16) (pairs : List (Utf16 × Utf16)) : Values Utf16 :=
  pairs.foldl (fun values pair => values.insert pair.1 (.string (.ofString pair.2))) values

theorem readValues_pairs (hpairs : ∀ pair ∈ pairs, IsPair pair) (values : Values Utf16) :
    readValues (pairs.map pairWord) values = .ok (valuesFrom values pairs) := by
  induction pairs generalizing values with
  | nil => rfl
  | cons pair pairs ih =>
    obtain ⟨h, hrest⟩ := List.forall_mem_cons.mp hpairs
    have hsplit : split [0x3D] (pairWord pair) = [pair.1, pair.2] := by
      have hjoined : split [0x3D] (joined 0x3D [pair.1, pair.2]) = [pair.1, pair.2] :=
        split_joined (by simp [h.name_apart, h.value_apart]) (by simp [h.value.ne_nil]) (by simp)
      exact hjoined
    rw [List.map_cons, readValues, hsplit]
    exact ih hrest _

/-- Each field has its value. -/
theorem lookup_valuesFrom (hnd : (pairs.map Prod.fst).Nodup) (values : Values Utf16) :
    (∀ pair ∈ pairs, (valuesFrom values pairs).lookup pair.1 = some (.string (.ofString pair.2))) ∧
      ∀ f, f ∉ pairs.map Prod.fst → (valuesFrom values pairs).lookup f = values.lookup f := by
  induction pairs generalizing values with
  | nil => exact ⟨fun _ h => absurd h List.not_mem_nil, fun _ _ => rfl⟩
  | cons pair pairs ih =>
    rw [List.map_cons, List.nodup_cons] at hnd
    obtain ⟨hvalues, hothers⟩ := ih hnd.2 (values.insert pair.1 (.string (.ofString pair.2)))
    refine ⟨List.forall_mem_cons.mpr ⟨?_, hvalues⟩, fun f hf => ?_⟩
    · exact (hothers pair.1 hnd.1).trans (AList.lookup_insert _)
    · rw [List.map_cons, List.mem_cons, not_or] at hf
      exact (hothers f hf.2).trans (AList.lookup_insert_ne hf.1)

/-- The record that is stored. -/
theorem contents_valuesFrom (hnd : (pairs.map Prod.fst).Nodup) :
    (∀ pair ∈ pairs, contentsOf (valuesFrom ∅ pairs) pair.1 = some (toBytes pair.2)) ∧ ∀ f, f ∉ pairs.map Prod.fst → contentsOf (valuesFrom ∅ pairs) f = none := by
  obtain ⟨hvalues, hothers⟩ := lookup_valuesFrom hnd ∅
  refine ⟨fun pair hpair => ?_, fun f hf => ?_⟩
  · rw [contentsOf, hvalues pair hpair, Option.bind_some, ByteIterator.contents_of_holds (ByteIterator.holds_ofString pair.2)]
  · rw [contentsOf, hothers f hf, AList.lookup_empty, Option.bind_none]

/-- What is shown of entries over the bytes of values. -/
theorem showEntries_eq {text : Utf16 → Utf16} {entries : List (Σ _ : Utf16, ByteIterator)} (h : ∀ entry ∈ entries, ∃ it, entry.2.toString = .ok (text entry.1, it)) :
    showEntries entries = .ok (entries.map fun entry => entry.1 ++ ascii "=" ++ text entry.1) := by
  induction entries with
  | nil => rfl
  | cons entry entries ih =>
    obtain ⟨⟨it, hit⟩, hrest⟩ := List.forall_mem_cons.mp h
    rw [showEntries, bind_ok hit]
    exact bind_ok (ih hrest) _

theorem constantName_inj_ok {st : Status} (h : ascii (constantName st) = ascii "OK") : st = .ok := by
  cases st with
  | ok => rfl
  | error => exact absurd h (by decide)
  | notFound => exact absurd h (by decide)
  | notImplemented => exact absurd h (by decide)
  | unexpectedState => exact absurd h (by decide)
  | badRequest => exact absurd h (by decide)
  | forbidden => exact absurd h (by decide)
  | serviceUnavailable => exact absurd h (by decide)
  | batchedOk => exact absurd h (by decide)

/-- What is shown of a map that the record has been read into: the pairs. -/
theorem showEntries_pairs {order : EntryOrder} {result : Values Utf16} {shown : List Utf16} (hpairs : ∀ pair ∈ pairs, IsPair pair)
    (hnd : (pairs.map Prod.fst).Nodup) (hreads : ReadsOut (contentsOf (valuesFrom ∅ pairs)) (pairs.map Prod.fst) result)
    (hshown : showEntries (order.entrySet result.entries) = .ok shown) : shown.Perm (pairs.map pairWord) := by
  obtain ⟨hstored, hothers⟩ := contents_valuesFrom hnd
  let text : Utf16 → Utf16 := fun f => decode ((contentsOf (valuesFrom ∅ pairs) f).getD [])
  have htext : ∀ pair ∈ pairs, pair.1 ++ ascii "=" ++ text pair.1 = pairWord pair := by
    intro pair hpair
    have hplain : decode (toBytes pair.2) = pair.2 := (decode_toBytes_iff pair.2).mpr (hpairs pair hpair).plain
    simp only [text, hstored pair hpair, Option.getD_some, hplain, List.append_assoc]
    rfl
  have heach : ∀ entry ∈ order.entrySet result.entries, ∃ it, entry.2.toString = .ok (text entry.1, it) := by
    intro entry hentry
    obtain ⟨a, bs, ha, hholds, hbs⟩ := hreads.holds entry.1 entry.2 (AList.mem_lookup_iff.mpr ((order.perm _).mem_iff.mp hentry))
    refine ⟨(ByteIterator.byteArray a).drain, ?_⟩
    rw [ha, ByteIterator.toString_byteArray hholds]
    simp only [text, hbs, Option.getD_some]
  have hkeys : result.keys.Perm (pairs.map Prod.fst) := by
    rw [List.perm_ext_iff_of_nodup result.keys_nodup hnd]
    intro f
    constructor
    · intro hf
      obtain ⟨it, hit⟩ := Option.isSome_iff_exists.mp (AList.lookup_isSome.mpr (AList.mem_keys.mpr hf))
      obtain ⟨-, bs, -, -, hbs⟩ := hreads.holds f it hit
      by_contra hnot
      exact absurd (hothers f hnot) (by simp [hbs])
    · intro hf
      obtain ⟨pair, hpair, rfl⟩ := List.mem_map.mp hf
      exact AList.mem_keys.mp (hreads.named _ hf _ (hstored pair hpair))
  obtain rfl : (order.entrySet result.entries).map (fun entry => entry.1 ++ ascii "=" ++ text entry.1) = shown :=
    Except.ok.inj ((showEntries_eq heach).symm.trans hshown)
  have hentries : result.entries.map (fun entry => entry.1 ++ ascii "=" ++ text entry.1) = result.keys.map fun f => f ++ ascii "=" ++ text f := by
    rw [AList.keys, List.keys, List.map_map]
    rfl
  have hnames : (pairs.map Prod.fst).map (fun f => f ++ ascii "=" ++ text f) = pairs.map pairWord := by
    rw [List.map_map]
    exact List.map_congr_left htext
  rw [← hnames]
  exact ((order.perm _).map _).trans (hentries ▸ hkeys.map _)

variable {B : Store σ} {order : EntryOrder} {table : Utf16} {s s' : σ}

/-- An insert that prints `OK` has stored the values. -/
theorem insert_stores (hkey : IsWord key) (hpairs : ∀ pair ∈ pairs, IsPair pair) (hne : pairs ≠ [])
    (h : command B.toDatabase order (split [0x20] (insertLine key pairs)) table s = .ok ([ascii "Result: OK"], s')) :
    B.records s' table key = some (contentsOf (valuesFrom ∅ pairs)) := by
  obtain ⟨pair, rest, rfl⟩ := List.exists_cons_of_ne_nil hne
  rw [split_insertLine hkey hpairs] at h
  have hinsert : handleInsert B.toDatabase (ascii "insert" :: key :: (pair :: rest).map pairWord) table s = .ok ([ascii "Result: OK"], s') := h
  rw [handleInsert, if_neg (by simp)] at hinsert
  obtain ⟨values, hvalues, hinsert⟩ := own_bind_inv hinsert
  obtain ⟨key', hkey', hinsert⟩ := own_bind_inv hinsert
  obtain ⟨⟨ret, left, t⟩, hcall, hinsert⟩ := called_bind_inv hinsert
  obtain ⟨name, hname, hinsert⟩ := bind_inv hinsert
  obtain ⟨hprinted, rfl⟩ := Prod.mk.inj (Except.ok.inj hinsert)
  obtain rfl : key = key' := Except.ok.inj hkey'
  obtain rfl : valuesFrom ∅ (pair :: rest) = values := Except.ok.inj ((readValues_pairs hpairs ∅).symm.trans hvalues)
  cases ret with
  | none => cases hname
  | some st =>
    obtain rfl : ascii (constantName st) = name := Except.ok.inj hname
    have hcode : ascii "Result: " ++ ascii (constantName st) = ascii "Result: " ++ ascii "OK" := (List.cons.inj hprinted).1
    have hok : st = .ok := constantName_inj_ok (List.append_cancel_left hcode)
    exact (B.insert_ok hcall (hok ▸ rfl)).2

end

/-- A record of two fields. -/
def twoFields : List (Utf16 × Utf16) := [(ascii "f", ascii "v"), (ascii "g", ascii "w")]

end YcsbIvs.Client.CommandLine
