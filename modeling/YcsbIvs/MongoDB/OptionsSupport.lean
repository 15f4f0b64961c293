import YcsbIvs.Foundations.Split
import YcsbIvs.Foundations.Utf
import Mathlib.Data.List.Pairwise

/-!
# Options of the MongoDB URL

`OptionsSupport.updateUrl` adds to the URL an option for each legacy property that is set, if the URL does not have it. What `addUrlOption` looks for is the text `name=`,
anywhere in the URL; and it takes the URL to have a query if there is a `?` in it.

Whatever it adds does not hide a later option (`appended_eq`), as no name of an option ends with another. So an option that is due is left out just if its text is in the URL that comes
in: in the password, say, or at the end of another name, as `w=` is in `flow=`. **The options are right just if the text of no option that is due is there, and no `?` in the
credentials of a URL without a query** (`addsOptions_iff`). A second call never changes anything.
-/

namespace YcsbIvs.MongoDB.OptionsSupport

open YcsbIvs.Foundations

/-! ### The code -/

/-- The legacy properties. -/
inductive LegacyProperty where
  /-- `mongodb.maxconnections`. -/
  | maxconnections
  /-- `mongodb.threadsAllowedToBlockForConnectionMultiplier`. -/
  | threadsAllowedToBlockForConnectionMultiplier
  /-- `mongodb.writeConcern`. -/
  | writeConcern
  /-- `mongodb.readPreference`. -/
  | readPreference
  deriving DecidableEq

/-- `UNAVAILABLE`. -/
def unavailable : Utf16 := ascii "n/a"

/-- `s.toLowerCase()` of an ASCII string. -/
def toLowerCase (s : Utf16) : Utf16 := s.map fun c => if 0x41 ≤ c ∧ c ≤ 0x5A then c + 0x20 else c

/-- `addUrlOption(url, name, value)`. -/
def addUrlOption (url name value : Utf16) : Utf16 :=
  let fullName := name ++ [0x3D]
  if ¬ occurs fullName url then
    if occurs [0x3F] url then url ++ [0x26] ++ fullName ++ value else url ++ [0x3F] ++ fullName ++ value
  else url

/-- The branches for the write concern. -/
def addWriteConcern (result writeConcernType : Utf16) : Utf16 :=
  if writeConcernType = ascii "errors_ignored" then addUrlOption result (ascii "w") (ascii "0")
  else if writeConcernType = ascii "unacknowledged" then addUrlOption result (ascii "w") (ascii "0")
  else if writeConcernType = ascii "acknowledged" then addUrlOption result (ascii "w") (ascii "1")
  else if writeConcernType = ascii "journaled" then
    let result := addUrlOption result (ascii "journal") (ascii "true")
    addUrlOption result (ascii "j") (ascii "true")
  else if writeConcernType = ascii "replica_acknowledged" then addUrlOption result (ascii "w") (ascii "2")
  else if writeConcernType = ascii "majority" then addUrlOption result (ascii "w") (ascii "majority")
  -- a warning
  else result

/-- The branches for the read preference. -/
def addReadPreference (result readPreferenceType : Utf16) : Utf16 :=
  if readPreferenceType = ascii "primary" then addUrlOption result (ascii "readPreference") (ascii "primary")
  else if readPreferenceType = ascii "primary_preferred" then addUrlOption result (ascii "readPreference") (ascii "primaryPreferred")
  else if readPreferenceType = ascii "secondary" then addUrlOption result (ascii "readPreference") (ascii "secondary")
  else if readPreferenceType = ascii "secondary_preferred" then addUrlOption result (ascii "readPreference") (ascii "secondaryPreferred")
  else if readPreferenceType = ascii "nearest" then addUrlOption result (ascii "readPreference") (ascii "nearest")
  else result

/-- `updateUrl(url, props)`. -/
def updateUrl (url : Utf16) (props : LegacyProperty → Option Utf16) : Utf16 :=
  let result := url
  let maxConnections := toLowerCase ((props .maxconnections).getD unavailable)
  let result := if unavailable ≠ maxConnections then addUrlOption result (ascii "maxPoolSize") maxConnections else result
  let multiplier := toLowerCase ((props .threadsAllowedToBlockForConnectionMultiplier).getD unavailable)
  let result := if unavailable ≠ multiplier then addUrlOption result (ascii "waitQueueMultiple") multiplier else result
  let writeConcernType := toLowerCase ((props .writeConcern).getD unavailable)
  let result := if unavailable ≠ writeConcernType then addWriteConcern result writeConcernType else result
  let readPreferenceType := toLowerCase ((props .readPreference).getD unavailable)
  if unavailable ≠ readPreferenceType then addReadPreference result readPreferenceType else result

/-! ### URLs -/

/-- An option of a URL. -/
structure UrlOption where
  /-- Its name. -/
  name : Utf16
  /-- Its value. -/
  value : Utf16
  deriving DecidableEq

/-- What is looked for: `name=`. -/
def UrlOption.key (o : UrlOption) : Utf16 := o.name ++ [0x3D]

/-- `name=value`. -/
def UrlOption.text (o : UrlOption) : Utf16 := o.name ++ 0x3D :: o.value

/-- It can be read from a query: there is no `=` in its name, and no `&` in it. -/
structure UrlOption.Plain (o : UrlOption) : Prop where
  /-- The name. -/
  name : ∀ c ∈ o.name, c ≠ 0x3D ∧ c ≠ 0x26
  /-- The value. -/
  value : 0x26 ∉ o.value

/-- Some options, with `sep` before the first and `&` before the others. -/
def queryText (sep : UInt16) : List UrlOption → Utf16
  | [] => []
  | o :: options => sep :: o.text ++ queryText 0x26 options

/-- A URL `mongodb://credentials@hosts/database`, with its options, if it has any, as a query. -/
structure Url where
  /-- The credentials. -/
  credentials : Utf16
  /-- The hosts. -/
  hosts : Utf16
  /-- The database. -/
  database : Utf16
  /-- The options. -/
  options : List UrlOption
  /-- There is no `?` before the query. -/
  hosts_plain : 0x3F ∉ hosts
  /-- Nor there. -/
  database_plain : 0x3F ∉ database
  /-- The options can be read. -/
  options_plain : ∀ o ∈ options, o.Plain

/-- What comes before the query. -/
def Url.base (url : Url) : Utf16 := ascii "mongodb://" ++ url.credentials ++ [0x40] ++ url.hosts ++ [0x2F] ++ url.database

/-- The URL. -/
def Url.text (url : Url) : Utf16 := url.base ++ queryText 0x3F url.options

/-- A letter, a digit or an underscore. -/
def IsWord (c : UInt16) : Prop := (0x30 ≤ c ∧ c ≤ 0x39) ∨ (0x41 ≤ c ∧ c ≤ 0x5A) ∨ c = 0x5F ∨ (0x61 ≤ c ∧ c ≤ 0x7A)

instance (c : UInt16) : Decidable (IsWord c) := inferInstanceAs (Decidable (_ ∨ _ ∨ _ ∨ _))

/-- Legacy properties whose values are of letters, digits and underscores. -/
structure LegacyProperties where
  /-- Those that are set. -/
  get : LegacyProperty → Option Utf16
  /-- Their values. -/
  words : ∀ property value, get property = some value → ∀ c ∈ value, IsWord c

/-- The options for a write concern. -/
def writeConcernOptions (writeConcernType : Utf16) : List UrlOption :=
  if writeConcernType = ascii "errors_ignored" then [⟨ascii "w", ascii "0"⟩]
  else if writeConcernType = ascii "unacknowledged" then [⟨ascii "w", ascii "0"⟩]
  else if writeConcernType = ascii "acknowledged" then [⟨ascii "w", ascii "1"⟩]
  else if writeConcernType = ascii "journaled" then [⟨ascii "journal", ascii "true"⟩, ⟨ascii "j", ascii "true"⟩]
  else if writeConcernType = ascii "replica_acknowledged" then [⟨ascii "w", ascii "2"⟩]
  else if writeConcernType = ascii "majority" then [⟨ascii "w", ascii "majority"⟩]
  else []

/-- The option for a read preference. -/
def readPreferenceOptions (readPreferenceType : Utf16) : List UrlOption :=
  if readPreferenceType = ascii "primary" then [⟨ascii "readPreference", ascii "primary"⟩]
  else if readPreferenceType = ascii "primary_preferred" then [⟨ascii "readPreference", ascii "primaryPreferred"⟩]
  else if readPreferenceType = ascii "secondary" then [⟨ascii "readPreference", ascii "secondary"⟩]
  else if readPreferenceType = ascii "secondary_preferred" then [⟨ascii "readPreference", ascii "secondaryPreferred"⟩]
  else if readPreferenceType = ascii "nearest" then [⟨ascii "readPreference", ascii "nearest"⟩]
  else []

/-- The options for the legacy properties that are set, as far as they are recognised. -/
def legacyOptions (props : LegacyProperties) : List UrlOption :=
  ((props.get .maxconnections).toList.map fun value => ⟨ascii "maxPoolSize", toLowerCase value⟩) ++
  ((props.get .threadsAllowedToBlockForConnectionMultiplier).toList.map fun value => ⟨ascii "waitQueueMultiple", toLowerCase value⟩) ++
  ((props.get .writeConcern).toList.flatMap fun value => writeConcernOptions (toLowerCase value)) ++
  (props.get .readPreference).toList.flatMap fun value => readPreferenceOptions (toLowerCase value)

/-- Those that are due: the URL has no option of that name. -/
def due (url : Url) (props : LegacyProperties) : List UrlOption := (legacyOptions props).filter fun o => ∀ own ∈ url.options, own.name ≠ o.name

/-- What is claimed: the options that are due are added to those of the URL, and a second call changes nothing. -/
structure AddsOptions (url : Url) (props : LegacyProperties) : Prop where
  /-- The options of the result. -/
  options : updateUrl url.text props.get = url.base ++ queryText 0x3F (url.options ++ due url props)
  /-- The second call. -/
  idempotent : updateUrl (updateUrl url.text props.get) props.get = updateUrl url.text props.get

/-! ### Reading a query -/

theorem UrlOption.Plain.not_mem_text {o : UrlOption} (h : o.Plain) : 0x26 ∉ o.text := by
  simp only [UrlOption.text, List.mem_append, List.mem_cons]
  rintro (hname | heq | hvalue)
  · exact (h.name _ hname).2 rfl
  · exact absurd heq (by decide)
  · exact h.value hvalue

theorem head?_queryText (sep : UInt16) (options : List UrlOption) : ∀ a ∈ (queryText sep options).head?, a = sep := by
  cases options <;> simp [queryText]

/-- **The options of a query are those of its text.** -/
theorem queryText_inj {sep sep' : UInt16} {options options' : List UrlOption} (h : ∀ o ∈ options, o.Plain) (h' : ∀ o ∈ options', o.Plain)
    (heq : queryText sep options = queryText sep' options') : options = options' ∧ (options ≠ [] → sep = sep') := by
  induction options generalizing options' sep sep' with
  | nil =>
    cases options' with
    | nil => exact ⟨rfl, fun hne => absurd rfl hne⟩
    | cons o' options' => cases heq
  | cons o options ih =>
    cases options' with
    | nil => cases heq
    | cons o' options' =>
      obtain ⟨ho, hoptions⟩ := List.forall_mem_cons.mp h
      obtain ⟨ho', hoptions'⟩ := List.forall_mem_cons.mp h'
      obtain ⟨hsep, hrest⟩ := List.cons.inj heq
      obtain ⟨htext, hmore⟩ := append_inj_of_apart ho.not_mem_text ho'.not_mem_text (head?_queryText _ _) (head?_queryText _ _) hrest
      obtain ⟨hname, hvalue⟩ := eq_of_append_cons (fun hmem => (ho.name _ hmem).1 rfl) (fun hmem => (ho'.name _ hmem).1 rfl) htext
      obtain ⟨rfl, -⟩ := ih hoptions hoptions' hmore
      have hsame : o = o' := by
        cases o
        cases o'
        exact congrArg₂ UrlOption.mk hname hvalue
      exact ⟨by rw [hsame], fun _ => hsep⟩

/-! ### The legacy options -/

/-- What is checked of each code unit. -/
theorem forall_of_all {s : Utf16} {p : UInt16 → Prop} [DecidablePred p] (h : s.all (fun c => p c) = true) : ∀ c ∈ s, p c :=
  fun c hc => of_decide_eq_true (List.all_eq_true.mp h c hc)

/-- No `/`, `=`, `&` or `?` comes of a word. -/
theorem toLowerCase_word {s : Utf16} (h : ∀ c ∈ s, IsWord c) : ∀ c ∈ toLowerCase s, c ≠ 0x2F ∧ c ≠ 0x3D ∧ c ≠ 0x26 ∧ c ≠ 0x3F := by
  intro c hc
  obtain ⟨d, hd, rfl⟩ := List.mem_map.mp hc
  have hword := h d hd
  simp only [IsWord, UInt16.le_iff_toNat_le, ← UInt16.toNat_inj, UInt16.toNat_ofNat, ne_eq] at hword ⊢
  split_ifs with hupper
  · have hadd : (d + 0x20).toNat = (d.toNat + 32) % 2 ^ 16 := UInt16.toNat_add d 0x20
    rw [hadd]
    omega
  · omega

/-- The step of `updateUrl`. -/
def addOption (url : Utf16) (o : UrlOption) : Utf16 := addUrlOption url o.name o.value

theorem addWriteConcern_eq (url type : Utf16) : addWriteConcern url type = (writeConcernOptions type).foldl addOption url := by
  rw [addWriteConcern, writeConcernOptions]
  split_ifs <;> rfl

theorem addReadPreference_eq (url type : Utf16) : addReadPreference url type = (readPreferenceOptions type).foldl addOption url := by
  rw [addReadPreference, readPreferenceOptions]
  split_ifs <;> rfl

/-- A block of `updateUrl`: nothing is done if the property is not set. -/
theorem ite_unavailable {value : Option Utf16} (h : ∀ s, value = some s → ∀ c ∈ s, IsWord c) (add : Utf16 → Utf16) (url : Utf16) :
    (if unavailable ≠ toLowerCase (value.getD unavailable) then add (toLowerCase (value.getD unavailable)) else url) =
      value.elim url fun s => add (toLowerCase s) := by
  cases value with
  | none => exact if_neg (not_not_intro rfl)
  | some s =>
    refine if_pos fun heq => ?_
    have hmem : 0x2F ∈ toLowerCase s := heq ▸ (by decide : 0x2F ∈ unavailable)
    exact (toLowerCase_word (h s rfl) _ hmem).1 rfl

theorem foldl_toList_map (value : Option Utf16) (f : Utf16 → UrlOption) (url : Utf16) :
    (value.toList.map f).foldl addOption url = value.elim url fun s => addOption url (f s) := by
  cases value <;> rfl

theorem foldl_toList_flatMap (value : Option Utf16) (f : Utf16 → List UrlOption) (url : Utf16) :
    (value.toList.flatMap f).foldl addOption url = value.elim url fun s => (f s).foldl addOption url := by
  cases value <;> simp

/-- **The URL is updated option by option.** -/
theorem updateUrl_eq (url : Utf16) (props : LegacyProperties) : updateUrl url props.get = (legacyOptions props).foldl addOption url := by
  have hblock := fun property => ite_unavailable (props.words property)
  simp only [updateUrl, legacyOptions, List.foldl_append, foldl_toList_map, foldl_toList_flatMap, ← addWriteConcern_eq, ← addReadPreference_eq]
  rw [hblock .maxconnections fun value => addUrlOption url (ascii "maxPoolSize") value]
  rw [hblock .threadsAllowedToBlockForConnectionMultiplier fun value => addUrlOption _ (ascii "waitQueueMultiple") value]
  rw [hblock .writeConcern fun value => addWriteConcern _ value]
  rw [hblock .readPreference fun value => addReadPreference _ value]
  rfl

/-- The names the options may have, in their order. -/
def legacyNames : List Utf16 := [ascii "maxPoolSize", ascii "waitQueueMultiple", ascii "w", ascii "journal", ascii "j", ascii "readPreference"]

theorem names_writeConcernOptions (type : Utf16) : ((writeConcernOptions type).map UrlOption.name).Sublist [ascii "w", ascii "journal", ascii "j"] := by
  rw [writeConcernOptions]
  split_ifs <;> decide

theorem names_readPreferenceOptions (type : Utf16) : ((readPreferenceOptions type).map UrlOption.name).Sublist [ascii "readPreference"] := by
  rw [readPreferenceOptions]
  split_ifs <;> decide

/-- The options of a property that may not be set. -/
theorem names_toList_flatMap {options : Utf16 → List UrlOption} {names : List Utf16} (h : ∀ value, ((options value).map UrlOption.name).Sublist names)
    (value : Option Utf16) : ((value.toList.flatMap options).map UrlOption.name).Sublist names := by
  cases value with
  | none => exact List.nil_sublist _
  | some value => simpa using h value

theorem names_toList_map (name : Utf16) (value : Option Utf16) :
    ((value.toList.map fun value => UrlOption.mk name (toLowerCase value)).map UrlOption.name).Sublist [name] := by
  cases value with
  | none => exact List.nil_sublist _
  | some value => exact List.Sublist.refl _

theorem names_legacyOptions (props : LegacyProperties) : ((legacyOptions props).map UrlOption.name).Sublist legacyNames := by
  have hconnections := names_toList_map (ascii "maxPoolSize") (props.get .maxconnections)
  have hmultiplier := names_toList_map (ascii "waitQueueMultiple") (props.get .threadsAllowedToBlockForConnectionMultiplier)
  have hconcern := names_toList_flatMap (fun value => names_writeConcernOptions (toLowerCase value)) (props.get .writeConcern)
  have hpreference := names_toList_flatMap (fun value => names_readPreferenceOptions (toLowerCase value)) (props.get .readPreference)
  rw [legacyOptions, List.map_append, List.map_append, List.map_append]
  exact ((hconnections.append hmultiplier).append hconcern).append hpreference

/-- **None of these names ends with one after it**, -/
theorem pairwise_legacyNames : legacyNames.Pairwise fun name name' => ¬ name' <:+ name := by
  decide

/-- and they are words. -/
theorem legacyNames_word : ∀ name ∈ legacyNames, ∀ c ∈ name, c ≠ 0x3D ∧ c ≠ 0x26 ∧ c ≠ 0x3F := by
  have hall : ∀ name ∈ legacyNames, name.all (fun c => c ≠ 0x3D ∧ c ≠ 0x26 ∧ c ≠ 0x3F) = true := by decide
  exact fun name hname => forall_of_all (hall name hname)

/-- There is no `=` in what is looked for, but at its end, nor in a value. -/
structure Legacy (o : UrlOption) : Prop where
  /-- The name. -/
  name : ∀ c ∈ o.name, c ≠ 0x3D ∧ c ≠ 0x26 ∧ c ≠ 0x3F
  /-- The value. -/
  value : ∀ c ∈ o.value, c ≠ 0x3D ∧ c ≠ 0x26

theorem values_writeConcernOptions (type : Utf16) : ∀ o ∈ writeConcernOptions type, o.value.all (fun c => c ≠ 0x3D ∧ c ≠ 0x26) = true := by
  rw [writeConcernOptions]
  split_ifs <;> decide

theorem values_readPreferenceOptions (type : Utf16) : ∀ o ∈ readPreferenceOptions type, o.value.all (fun c => c ≠ 0x3D ∧ c ≠ 0x26) = true := by
  rw [readPreferenceOptions]
  split_ifs <;> decide

theorem legacy_of_mem {props : LegacyProperties} {o : UrlOption} (h : o ∈ legacyOptions props) : Legacy o := by
  refine ⟨legacyNames_word _ ((names_legacyOptions props).mem (List.mem_map_of_mem h)), fun c hc => ?_⟩
  have hword : ∀ {property value}, value ∈ (props.get property).toList → ∀ c ∈ toLowerCase value, c ≠ 0x3D ∧ c ≠ 0x26 := by
    intro property value hvalue c hc
    obtain ⟨-, heq, hand, -⟩ := toLowerCase_word (props.words property value (Option.mem_toList.mp hvalue)) c hc
    exact ⟨heq, hand⟩
  simp only [legacyOptions, List.mem_append, List.mem_map, List.mem_flatMap] at h
  obtain ((⟨value, hvalue, rfl⟩ | ⟨value, hvalue, rfl⟩) | ⟨value, -, ho⟩) | ⟨value, -, ho⟩ := h
  · exact hword hvalue c hc
  · exact hword hvalue c hc
  · exact forall_of_all (values_writeConcernOptions _ o ho) c hc
  · exact forall_of_all (values_readPreferenceOptions _ o ho) c hc

theorem Legacy.plain {o : UrlOption} (h : Legacy o) : o.Plain :=
  ⟨fun c hc => ⟨(h.name c hc).1, (h.name c hc).2.1⟩, fun hmem => (h.value _ hmem).2 rfl⟩

theorem pairwise_legacyOptions (props : LegacyProperties) : (legacyOptions props).Pairwise fun o o' => ¬ o'.name <:+ o.name :=
  List.pairwise_map.mp (pairwise_legacyNames.sublist (names_legacyOptions props))

/-! ### What is appended -/

/-- The options that are appended, one after the other. -/
def appended (url : Utf16) : List UrlOption → List UrlOption
  | [] => []
  | o :: options => if o.key <:+: url then appended url options else o :: appended (addOption url o) options

/-- The separator before the next option. -/
def separator (url : Utf16) : UInt16 := if 0x3F ∈ url then 0x26 else 0x3F

theorem addOption_of_present {url : Utf16} {o : UrlOption} (h : o.key <:+: url) : addOption url o = url :=
  if_neg (not_not_intro (occurs_iff.mpr h))

theorem addOption_of_not {url : Utf16} {o : UrlOption} (h : ¬ o.key <:+: url) : addOption url o = url ++ separator url :: o.text := by
  have hmark : occurs [0x3F] url = true ↔ 0x3F ∈ url := occurs_iff.trans (List.singleton_infix_iff _ _)
  refine (if_pos (mt occurs_iff.mp h)).trans ?_
  rw [separator]
  by_cases hquery : 0x3F ∈ url
  · simp [hquery, hmark, UrlOption.text]
  · simp [hquery, hmark, UrlOption.text]

theorem separator_addOption {url : Utf16} {o : UrlOption} (h : ¬ o.key <:+: url) : separator (addOption url o) = 0x26 := by
  rw [addOption_of_not h, separator, if_pos]
  rw [List.mem_append, List.mem_cons, separator]
  by_cases hquery : 0x3F ∈ url
  · exact .inl hquery
  · exact .inr (.inl (if_neg hquery).symm)

/-- **What the URL becomes.** -/
theorem foldl_addOption (url : Utf16) (options : List UrlOption) : options.foldl addOption url = url ++ queryText (separator url) (appended url options) := by
  induction options generalizing url with
  | nil => exact (List.append_nil url).symm
  | cons o options ih =>
    rw [List.foldl_cons, ih, appended]
    by_cases h : o.key <:+: url
    · rw [if_pos h, addOption_of_present h]
    · rw [if_neg h, separator_addOption h, addOption_of_not h, queryText, List.append_assoc]

/-- **No key comes in with an option** whose name does not end with it. -/
theorem key_infix_addOption_iff {url : Utf16} {o o' : UrlOption} (ho : Legacy o) (ho' : Legacy o') (hends : ¬ o'.name <:+ o.name) :
    o'.key <:+: addOption url o ↔ o'.key <:+: url := by
  by_cases h : o.key <:+: url
  · rw [addOption_of_present h]
  · rw [addOption_of_not h]
    refine ⟨fun hkey => ?_, fun hkey => hkey.trans (List.prefix_append _ _).isInfix⟩
    have hsep : separator url = 0x26 ∨ separator url = 0x3F := by
      rw [separator]
      split_ifs
      · exact .inl rfl
      · exact .inr rfl
    refine infix_of_append_marked ?_ ?_ (fun hmem => (ho.value _ hmem).1 rfl) hends hkey
    · intro hmem
      obtain ⟨-, hand, hquery⟩ := ho'.name _ hmem
      exact hsep.elim hand hquery
    · rw [List.mem_cons]
      rintro (heq | hmem)
      · rw [← heq] at hsep
        exact absurd hsep (by decide)
      · exact (ho.name _ hmem).1 rfl

/-- **What is appended**: the options whose keys are not in the URL that comes in. -/
theorem appended_eq {url url' : Utf16} {options : List UrlOption} (hlegacy : ∀ o ∈ options, Legacy o)
    (hpair : options.Pairwise fun o o' => ¬ o'.name <:+ o.name) (hsame : ∀ o ∈ options, o.key <:+: url' ↔ o.key <:+: url) :
    appended url' options = options.filter fun o => ¬ o.key <:+: url := by
  induction options generalizing url' with
  | nil => rfl
  | cons o options ih =>
    obtain ⟨ho, hoptions⟩ := List.forall_mem_cons.mp hlegacy
    obtain ⟨hends, hrest⟩ := List.pairwise_cons.mp hpair
    obtain ⟨hkey, hkeys⟩ := List.forall_mem_cons.mp hsame
    rw [appended]
    by_cases h : o.key <:+: url
    · rw [if_pos (hkey.mpr h), List.filter_cons_of_neg (by simpa using h)]
      exact ih hoptions hrest hkeys
    · rw [if_neg (mt hkey.mp h), List.filter_cons_of_pos (by simpa using h)]
      exact congrArg _ (ih hoptions hrest fun o' ho' => (key_infix_addOption_iff ho (hoptions o' ho') (hends o' ho')).trans (hkeys o' ho'))

/-- The update of a URL. -/
theorem updateUrl_eq_append (url : Utf16) (props : LegacyProperties) :
    updateUrl url props.get = url ++ queryText (separator url) ((legacyOptions props).filter fun o => ¬ o.key <:+: url) := by
  rw [updateUrl_eq, foldl_addOption, appended_eq (fun o ho => legacy_of_mem ho) (pairwise_legacyOptions props) fun o _ => Iff.rfl]

/-- The key of an option of a query is in its text. -/
theorem key_infix_queryText {o : UrlOption} {options : List UrlOption} (h : o ∈ options) (sep : UInt16) : o.key <:+: queryText sep options := by
  induction options generalizing sep with
  | nil => cases h
  | cons o' options ih =>
    rw [queryText]
    obtain rfl | hmem := List.mem_cons.mp h
    · refine List.IsInfix.trans ?_ (List.prefix_append (sep :: o.text) _).isInfix
      exact ⟨[sep], o.value, by simp [UrlOption.key, UrlOption.text]⟩
    · exact (ih hmem 0x26).trans (List.suffix_append _ _).isInfix

/-- **A second update changes nothing.** -/
theorem updateUrl_updateUrl (url : Utf16) (props : LegacyProperties) : updateUrl (updateUrl url props.get) props.get = updateUrl url props.get := by
  have hall : ∀ o ∈ legacyOptions props, o.key <:+: updateUrl url props.get := by
    intro o ho
    rw [updateUrl_eq_append]
    by_cases h : o.key <:+: url
    · exact h.trans (List.prefix_append _ _).isInfix
    · refine (key_infix_queryText (List.mem_filter.mpr ⟨ho, ?_⟩) _).trans (List.suffix_append _ _).isInfix
      simpa using h
  have hnone : ((legacyOptions props).filter fun o => ¬ o.key <:+: updateUrl url props.get) = [] := by
    refine List.filter_eq_nil_iff.mpr fun o ho => ?_
    simpa using hall o ho
  rw [updateUrl_eq_append (updateUrl url props.get), hnone, queryText, List.append_nil]

/-! ### The main theorem -/

theorem queryText_append (sep : UInt16) (options more : List UrlOption) :
    queryText sep (options ++ more) = queryText sep options ++ queryText (if options = [] then sep else 0x26) more := by
  induction options generalizing sep with
  | nil => rfl
  | cons o options ih =>
    rw [List.cons_append, queryText, queryText, ih, if_neg (List.cons_ne_nil o options), ite_self, List.append_assoc]

/-- The separator after a URL is that of its query, if there is no `?` in the credentials. -/
theorem separator_text (url : Url) : separator url.text = (if url.options = [] then 0x3F else 0x26) ↔ (url.options = [] → 0x3F ∉ url.credentials) := by
  have hbase : 0x3F ∈ url.base ↔ 0x3F ∈ url.credentials := by
    have hscheme : (0x3F : UInt16) ∉ ascii "mongodb://" := by decide
    simp [Url.base, hscheme, url.hosts_plain, url.database_plain]
  cases h : url.options with
  | nil =>
    have htext : url.text = url.base := by rw [Url.text, h, queryText, List.append_nil]
    rw [separator, htext, if_pos rfl]
    by_cases hquery : 0x3F ∈ url.credentials
    · rw [if_pos (hbase.mpr hquery)]
      exact ⟨fun heq => absurd heq (by decide), fun hnot => absurd hquery (hnot rfl)⟩
    · rw [if_neg (mt hbase.mp hquery)]
      exact ⟨fun _ _ => hquery, fun _ => rfl⟩
  | cons o options =>
    have hmark : 0x3F ∈ url.text := by simp [Url.text, h, queryText]
    rw [separator, if_pos hmark, if_neg (List.cons_ne_nil o options)]
    exact ⟨fun _ hnil => absurd hnil (List.cons_ne_nil o options), fun _ => rfl⟩

/-- An option that the URL has is not added. -/
theorem key_infix_text {url : Url} {o own : UrlOption} (h : own ∈ url.options) (hname : own.name = o.name) : o.key <:+: url.text := by
  have hkey : own.key = o.key := congrArg (· ++ [0x3D]) hname
  exact hkey ▸ (key_infix_queryText h _).trans (List.suffix_append _ _).isInfix

/-- All that are due are added just if none of their keys is in the URL. -/
theorem filter_eq_due_iff (url : Url) (props : LegacyProperties) :
    ((legacyOptions props).filter fun o => ¬ o.key <:+: url.text) = due url props ↔ ∀ o ∈ due url props, ¬ o.key <:+: url.text := by
  constructor
  · intro h o ho
    rw [← h] at ho
    simpa using (List.mem_filter.mp ho).2
  · intro h
    refine List.filter_congr fun o ho => decide_eq_decide.mpr ⟨fun hkey own hown hname => hkey (key_infix_text hown hname), fun hnone => ?_⟩
    exact h o (List.mem_filter.mpr ⟨ho, decide_eq_true hnone⟩)

/-- **When the options are right**: the key of no option that is due is in the URL, and, if it has no query, no `?` in its credentials. -/
theorem addsOptions_iff (url : Url) (props : LegacyProperties) :
    AddsOptions url props ↔
      (∀ o ∈ due url props, ¬ o.key <:+: url.text) ∧ (due url props ≠ [] → url.options = [] → 0x3F ∉ url.credentials) := by
  have hadded : ∀ o ∈ (legacyOptions props).filter fun o => ¬ o.key <:+: url.text, o.Plain :=
    fun o ho => (legacy_of_mem (List.mem_of_mem_filter ho)).plain
  have hdue : ∀ o ∈ due url props, o.Plain := fun o ho => (legacy_of_mem (List.mem_of_mem_filter ho)).plain
  have hexpected : url.base ++ queryText 0x3F (url.options ++ due url props) =
      url.text ++ queryText (if url.options = [] then 0x3F else 0x26) (due url props) := by
    rw [queryText_append, Url.text, List.append_assoc]
  rw [← filter_eq_due_iff]
  constructor
  · intro h
    have hoptions := h.options
    rw [updateUrl_eq_append, hexpected] at hoptions
    obtain ⟨hsame, hsep⟩ := queryText_inj hadded hdue (List.append_cancel_left hoptions)
    exact ⟨hsame, fun hne => (separator_text url).mp (hsep (hsame ▸ hne))⟩
  · rintro ⟨hsame, hquery⟩
    refine ⟨?_, updateUrl_updateUrl url.text props⟩
    rw [updateUrl_eq_append, hexpected, hsame]
    by_cases hnil : due url props = []
    · rw [hnil]
      rfl
    · rw [(separator_text url).mpr (hquery hnil)]

/-- `mongodb://u:w=1@h/db`. -/
def withPassword : Url where
  credentials := ascii "u:w=1"
  hosts := ascii "h"
  database := ascii "db"
  options := []
  hosts_plain := by decide
  database_plain := by decide
  options_plain := fun _ h => absurd h List.not_mem_nil

/-- `mongodb.writeConcern=acknowledged`. -/
def acknowledged : LegacyProperties where
  get property := if property = .writeConcern then some (ascii "acknowledged") else none
  words property value h := by
    split_ifs at h
    cases h
    exact forall_of_all (by decide)

/-- **A password hides the write concern**: nothing is added to the URL. -/
theorem not_addsOptions : ¬ AddsOptions withPassword acknowledged := by
  intro h
  have hlength := congrArg List.length h.options
  revert hlength
  decide

end YcsbIvs.MongoDB.OptionsSupport
