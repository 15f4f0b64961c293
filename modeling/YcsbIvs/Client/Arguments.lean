import YcsbIvs.Foundations.Throws
import YcsbIvs.Workloads.FieldLengths
import YcsbIvs.Workloads.KeyNumbers
import Mathlib.Data.List.AList

/-!
# The command line

`Client.parseArguments` goes through the arguments with an index. What `-p` and the other flags set goes to one set of properties, what the files of `-P` define to another; in the end the first is
written over the second.

Read from the left, the arguments are a list of settings (`settings`). **The result has each property from the last flag that sets it, and else from the last file that defines it**, whatever their order,
and for all arguments the index stays in the array and the loop ends (`precedence`).

What a file holds is a parameter, as `Properties.load` reads it.
-/

namespace YcsbIvs.Client.Arguments

open YcsbIvs.Foundations YcsbIvs.Generator
open YcsbIvs.Workloads (parseInt longToString)

/-- `Properties`. -/
abbrev Properties := AList fun _ : Utf16 => Utf16

/-! ### Names -/

/-- `WORKLOAD_PROPERTY`. -/
def workloadProperty : Utf16 := ascii "workload"

/-- `DB_PROPERTY`. -/
def dbProperty : Utf16 := ascii "db"

/-- `THREAD_COUNT_PROPERTY`. -/
def threadCountProperty : Utf16 := ascii "threadcount"

/-- `TARGET_PROPERTY`. -/
def targetProperty : Utf16 := ascii "target"

/-- `DO_TRANSACTIONS_PROPERTY`. -/
def doTransactionsProperty : Utf16 := ascii "dotransactions"

/-- `STATUS_PROPERTY`. -/
def statusProperty : Utf16 := ascii "status"

/-- `LABEL_PROPERTY`. -/
def labelProperty : Utf16 := ascii "label"

/-! ### How parsing ends -/

/-- Why it exits. -/
inductive Reason where
  /-- At least one argument specifying a workload is required. -/
  | noArguments
  /-- Missing argument value for the flag. -/
  | missingValue (flag : Utf16)
  /-- Unable to open the properties file. -/
  | unableToOpen (propfile : Utf16)
  /-- Argument `-p` expected to be in key=value format. -/
  | noKeyValue
  /-- Unknown option. -/
  | unknownOption (arg : Utf16)
  /-- An argument value without corresponding argument specifier. -/
  | noSpecifier (arg : Utf16)
  /-- An argument specifier without corresponding value at the end. -/
  | noValue
  /-- Failed check required properties. -/
  | requiredProperties
  deriving DecidableEq

/-- Parsing does not return. -/
inductive Stop where
  /-- `System.exit(0)`. -/
  | exit (reason : Reason)
  /-- An exception. -/
  | thrown (t : Thrown)
  /-- The loop goes on. -/
  | nonTermination
  deriving DecidableEq

/-- What `load` throws. -/
inductive LoadError where
  /-- An `IOException`. -/
  | io
  /-- `IllegalArgumentException`: a malformed Unicode escape. -/
  | malformed
  deriving DecidableEq

/-- What the files hold. -/
abbrev Files := Utf16 → Except LoadError Properties

/-! ### Parsing -/

/-- The variables of the loop. -/
structure Parsing where
  /-- `argindex`. -/
  argindex : ℕ
  /-- `props`. -/
  props : Properties
  /-- `fileprops`. -/
  fileprops : Properties

/-- `args[argindex]`. -/
def element (args : List Utf16) (argindex : ℕ) : Except Stop Utf16 :=
  match args[argindex]? with
  | some arg => .ok arg
  | none => .error (.thrown .arrayIndexOutOfBounds)

/-- `args[argindex]`, the value of a flag, if it is there. -/
def valueAt (args : List Utf16) (argindex : ℕ) (flag : Utf16) : Except Stop Utf16 :=
  if argindex ≥ args.length then .error (.exit (.missingValue flag)) else element args argindex

/-- The loops at the end of `-P` and of the method: each property of the second set is set in the first. -/
def overwrite (properties others : Properties) : Properties := others.entries.foldl (fun properties e => properties.insert e.1 e.2) properties

namespace Parsing

variable (s : Parsing) (args : List Utf16)

/-- `props.setProperty(property, value)` and `argindex++`, for each of the `count` arguments. -/
def setProperty (count : ℕ) (property value : Utf16) : Parsing := { s with argindex := s.argindex + count, props := s.props.insert property value }

/-- The body of `-threads` and `-target`. -/
def integerFlag (flag property : Utf16) : Except Stop Parsing := do
  let value ← valueAt args (s.argindex + 1) flag
  let count ← (parseInt value).mapError .thrown
  .ok (s.setProperty 2 property (longToString count))

/-- The body of `-db` and `-l`. -/
def valueFlag (flag property : Utf16) : Except Stop Parsing := do
  let value ← valueAt args (s.argindex + 1) flag
  .ok (s.setProperty 2 property value)

/-- The body of `-P`. -/
def fileFlag (files : Files) : Except Stop Parsing := do
  let propfile ← valueAt args (s.argindex + 1) (ascii "-P")
  match files propfile with
  | .error .io => .error (.exit (.unableToOpen propfile))
  | .error .malformed => .error (.thrown .illegalArgument)
  | .ok myfileprops => .ok { s with argindex := s.argindex + 2, fileprops := overwrite s.fileprops myfileprops }

/-- The body of `-p`. -/
def propertyFlag : Except Stop Parsing := do
  let arg ← valueAt args (s.argindex + 1) (ascii "-p")
  match arg.idxOf? 0x3D with
  | none => .error (.exit .noKeyValue)
  | some eq => .ok (s.setProperty 2 (arg.take eq) (arg.drop (eq + 1)))

/-- The body of the loop, up to its last test. -/
def step (files : Files) : Except Stop Parsing := do
  let arg ← element args s.argindex
  if arg = ascii "-threads" then s.integerFlag args (ascii "-threads") threadCountProperty
  else if arg = ascii "-target" then s.integerFlag args (ascii "-target") targetProperty
  else if arg = ascii "-load" then .ok (s.setProperty 1 doTransactionsProperty (ascii "false"))
  else if arg = ascii "-t" then .ok (s.setProperty 1 doTransactionsProperty (ascii "true"))
  else if arg = ascii "-s" then .ok (s.setProperty 1 statusProperty (ascii "true"))
  else if arg = ascii "-db" then s.valueFlag args (ascii "-db") dbProperty
  else if arg = ascii "-l" then s.valueFlag args (ascii "-l") labelProperty
  else if arg = ascii "-P" then s.fileFlag args files
  else if arg = ascii "-p" then s.propertyFlag args
  else .error (.exit (.unknownOption arg))

end Parsing

/-- The loop, with fuel. -/
def loop (files : Files) (args : List Utf16) : ℕ → Parsing → Except Stop Parsing
  | 0, _ => .error .nonTermination
  | fuel + 1, s => do
    let arg ← element args s.argindex
    -- `args[argindex].startsWith("-")`
    if arg.head? = some 0x2D then
      let s ← s.step args files
      if s.argindex ≥ args.length then .ok s else loop files args fuel s
    else .ok s

/-- `parseArguments(args)`. -/
def parseArguments (files : Files) (args : List Utf16) : Except Stop Properties := do
  if args.length = 0 then .error (.exit .noArguments)
  else
    let s ← loop files args (args.length + 1) ⟨0, ∅, ∅⟩
    if s.argindex ≠ args.length then
      if s.argindex < args.length then
        let arg ← element args s.argindex
        .error (.exit (.noSpecifier arg))
      else .error (.exit .noValue)
    else
      let props := overwrite s.fileprops s.props
      -- `checkRequiredProperties(props)`
      if props.lookup workloadProperty = none then .error (.exit .requiredProperties) else .ok props

/-! ### Settings -/

/-- What an argument, with its value, says. -/
inductive Setting where
  /-- A property is set on the command line. -/
  | command (name value : Utf16)
  /-- A file defines properties. -/
  | file (properties : Properties)

/-- The flags without a value. -/
def plainSetting (flag : Utf16) : Option Setting :=
  if flag = ascii "-load" then some (.command doTransactionsProperty (ascii "false"))
  else if flag = ascii "-t" then some (.command doTransactionsProperty (ascii "true"))
  else if flag = ascii "-s" then some (.command statusProperty (ascii "true"))
  else none

/-- The flags with one. -/
def settingOf (files : Files) (flag value : Utf16) : Option Setting :=
  if flag = ascii "-threads" then (parseInt value).toOption.map fun n => .command threadCountProperty (longToString n)
  else if flag = ascii "-target" then (parseInt value).toOption.map fun n => .command targetProperty (longToString n)
  else if flag = ascii "-db" then some (.command dbProperty value)
  else if flag = ascii "-l" then some (.command labelProperty value)
  else if flag = ascii "-P" then (files value).toOption.map .file
  else if flag = ascii "-p" then (value.idxOf? 0x3D).map fun eq => .command (value.take eq) (value.drop (eq + 1))
  else none

/-- The settings of a list of arguments, if it is made of flags with their values. -/
def settings (files : Files) : List Utf16 → Option (List Setting)
  | [] => some []
  | flag :: args =>
    match plainSetting flag with
    | some setting => (settings files args).map (setting :: ·)
    | none =>
      match args with
      | [] => none
      | value :: args => (settingOf files flag value).bind fun setting => (settings files args).map (setting :: ·)

/-- The value a setting of the command line gives a property. -/
def commandValue (name : Utf16) : Setting → Option Utf16
  | .command name' value => if name = name' then some value else none
  | .file _ => none

/-- The value a file gives it. -/
def fileValue (name : Utf16) : Setting → Option Utf16
  | .command _ _ => none
  | .file properties => properties.lookup name

/-- **The value of a property**: of the last setting of the command line, and else of the last file. -/
def valueOf (settings : List Setting) (name : Utf16) : Option Utf16 :=
  (settings.filterMap (commandValue name)).getLast?.or (settings.filterMap (fileValue name)).getLast?

/-- What is claimed of some arguments. -/
structure Precedence (files : Files) (args : List Utf16) : Prop where
  /-- The result has the properties that are set, each with its value. -/
  values : ∀ props, parseArguments files args = .ok props → ∃ all, settings files args = some all ∧ ∀ name, props.lookup name = valueOf all name
  /-- No argument is read past the end. -/
  inBounds : parseArguments files args ≠ .error (.thrown .arrayIndexOutOfBounds)
  /-- Parsing ends. -/
  ends : parseArguments files args ≠ .error .nonTermination

/-! ### What a setting does -/

theorem lookup_foldl_insert {entries : List (Sigma fun _ : Utf16 => Utf16)} (h : entries.NodupKeys) (properties : Properties) (name : Utf16) :
    (entries.foldl (fun properties e => properties.insert e.1 e.2) properties).lookup name = (entries.dlookup name).or (properties.lookup name) := by
  induction entries generalizing properties with
  | nil => rfl
  | cons e entries ih =>
    obtain ⟨hnot, hrest⟩ := List.nodupKeys_cons.mp h
    rw [List.foldl_cons, ih hrest]
    by_cases hname : name = e.1
    · subst hname
      rw [List.dlookup_eq_none.mpr hnot, AList.lookup_insert, Option.none_or]
      exact (congrArg (Option.or · _) (List.dlookup_cons_eq entries e.1 e.2)).symm
    · rw [AList.lookup_insert_ne hname, List.dlookup_cons_ne _ _ hname]

/-- What is written over a set of properties. -/
theorem lookup_overwrite (properties others : Properties) (name : Utf16) :
    (overwrite properties others).lookup name = (others.lookup name).or (properties.lookup name) :=
  lookup_foldl_insert others.nodupKeys properties name

namespace Parsing

/-- The setting is made, in its set of properties. -/
def apply (s : Parsing) : Setting → Parsing
  | .command name value => { s with props := s.props.insert name value }
  | .file properties => { s with fileprops := overwrite s.fileprops properties }

theorem lookup_props_apply (s : Parsing) (setting : Setting) (name : Utf16) :
    (s.apply setting).props.lookup name = (commandValue name setting).or (s.props.lookup name) := by
  cases setting with
  | command name' value =>
    by_cases hname : name = name'
    · subst hname
      simp [apply, commandValue]
    · simp [apply, commandValue, hname]
  | file properties => rfl

theorem lookup_fileprops_apply (s : Parsing) (setting : Setting) (name : Utf16) :
    (s.apply setting).fileprops.lookup name = (fileValue name setting).or (s.fileprops.lookup name) := by
  cases setting with
  | command name' value => rfl
  | file properties => exact lookup_overwrite s.fileprops properties name

end Parsing

/-! ### One step -/

theorem element_eq_ok_iff {args : List Utf16} {argindex : ℕ} {arg : Utf16} : element args argindex = .ok arg ↔ args[argindex]? = some arg := by
  rw [element]
  cases args[argindex]? with
  | none => simp
  | some arg' => simp

theorem valueAt_eq_ok {args : List Utf16} {argindex : ℕ} {flag value : Utf16} (h : valueAt args argindex flag = .ok value) : args[argindex]? = some value := by
  rw [valueAt] at h
  split_ifs at h
  exact element_eq_ok_iff.mp h

/-- What a step does: the setting of a flag without a value, or of one with the value after it. -/
structure Steps (files : Files) (args : List Utf16) (s s' : Parsing) (flag : Utf16) : Prop where
  /-- The flag is there. -/
  found : args[s.argindex]? = some flag
  /-- The setting is made. -/
  made : (∃ setting, plainSetting flag = some setting ∧ s' = { s.apply setting with argindex := s.argindex + 1 }) ∨
    (plainSetting flag = none ∧ ∃ value setting, args[s.argindex + 1]? = some value ∧ settingOf files flag value = some setting ∧
      s' = { s.apply setting with argindex := s.argindex + 2 })

namespace Parsing

variable {files : Files} {args : List Utf16} {s s' : Parsing}

theorem integerFlag_eq_ok {flag property : Utf16} (h : s.integerFlag args flag property = .ok s') :
    ∃ value n, args[s.argindex + 1]? = some value ∧ parseInt value = .ok n ∧ s' = s.setProperty 2 property (longToString n) := by
  obtain ⟨value, hvalue, hrest⟩ := bind_inv h
  obtain ⟨n, hn, hs'⟩ := bind_inv hrest
  refine ⟨value, n, valueAt_eq_ok hvalue, ?_, (Except.ok.inj hs').symm⟩
  cases hparse : parseInt value with
  | error t => simp [hparse, Except.mapError] at hn
  | ok n' =>
    rw [hparse] at hn
    exact congrArg Except.ok (Except.ok.inj hn)

theorem valueFlag_eq_ok {flag property : Utf16} (h : s.valueFlag args flag property = .ok s') :
    ∃ value, args[s.argindex + 1]? = some value ∧ s' = s.setProperty 2 property value := by
  obtain ⟨value, hvalue, hs'⟩ := bind_inv h
  exact ⟨value, valueAt_eq_ok hvalue, (Except.ok.inj hs').symm⟩

theorem fileFlag_eq_ok (h : s.fileFlag args files = .ok s') :
    ∃ value properties, args[s.argindex + 1]? = some value ∧ files value = .ok properties ∧
      s' = { s with argindex := s.argindex + 2, fileprops := overwrite s.fileprops properties } := by
  obtain ⟨value, hvalue, hrest⟩ := bind_inv h
  split at hrest
  · cases hrest
  · cases hrest
  · next properties hfile => exact ⟨value, properties, valueAt_eq_ok hvalue, hfile, (Except.ok.inj hrest).symm⟩

theorem propertyFlag_eq_ok (h : s.propertyFlag args = .ok s') :
    ∃ value eq, args[s.argindex + 1]? = some value ∧ value.idxOf? 0x3D = some eq ∧ s' = s.setProperty 2 (value.take eq) (value.drop (eq + 1)) := by
  obtain ⟨value, hvalue, hrest⟩ := bind_inv h
  split at hrest
  · cases hrest
  · next eq heq => exact ⟨value, eq, valueAt_eq_ok hvalue, heq, (Except.ok.inj hrest).symm⟩

/-- **What a step does.** -/
theorem steps_of_step (h : s.step args files = .ok s') : ∃ flag, Steps files args s s' flag := by
  obtain ⟨flag, hflag, hrest⟩ := bind_inv h
  refine ⟨flag, element_eq_ok_iff.mp hflag, ?_⟩
  split_ifs at hrest with hthreads htarget hload ht hs hdb hl hP hp
  · obtain ⟨value, n, hvalue, hn, rfl⟩ := integerFlag_eq_ok hrest
    subst hthreads
    refine .inr ⟨rfl, value, .command threadCountProperty (longToString n), hvalue, ?_, rfl⟩
    rw [settingOf, if_pos rfl, hn]
    rfl
  · obtain ⟨value, n, hvalue, hn, rfl⟩ := integerFlag_eq_ok hrest
    subst htarget
    refine .inr ⟨rfl, value, .command targetProperty (longToString n), hvalue, ?_, rfl⟩
    rw [settingOf, if_neg hthreads, if_pos rfl, hn]
    rfl
  · cases hrest
    subst hload
    exact .inl ⟨_, rfl, rfl⟩
  · cases hrest
    subst ht
    exact .inl ⟨_, rfl, rfl⟩
  · cases hrest
    subst hs
    exact .inl ⟨_, rfl, rfl⟩
  · obtain ⟨value, hvalue, rfl⟩ := valueFlag_eq_ok hrest
    subst hdb
    exact .inr ⟨rfl, value, .command dbProperty value, hvalue, rfl, rfl⟩
  · obtain ⟨value, hvalue, rfl⟩ := valueFlag_eq_ok hrest
    subst hl
    exact .inr ⟨rfl, value, .command labelProperty value, hvalue, rfl, rfl⟩
  · obtain ⟨value, properties, hvalue, hfile, rfl⟩ := fileFlag_eq_ok hrest
    subst hP
    refine .inr ⟨rfl, value, .file properties, hvalue, ?_, rfl⟩
    rw [settingOf, if_neg hthreads, if_neg htarget, if_neg hdb, if_neg hl, if_pos rfl, hfile]
    rfl
  · obtain ⟨value, eq, hvalue, heq, rfl⟩ := propertyFlag_eq_ok hrest
    subst hp
    refine .inr ⟨rfl, value, .command (value.take eq) (value.drop (eq + 1)), hvalue, ?_, rfl⟩
    rw [settingOf, if_neg hthreads, if_neg htarget, if_neg hdb, if_neg hl, if_neg hP, if_pos rfl, heq]
    rfl

end Parsing

/-! ### The whole list -/

variable {files : Files} {args : List Utf16}

theorem settings_of_plain {flag : Utf16} {setting : Setting} (h : plainSetting flag = some setting) :
    settings files (flag :: args) = (settings files args).map (setting :: ·) := by
  cases args <;> simp only [settings, h]

theorem settings_of_value {flag value : Utf16} {setting : Setting} (hplain : plainSetting flag = none) (h : settingOf files flag value = some setting) :
    settings files (flag :: value :: args) = (settings files args).map (setting :: ·) := by
  simp only [settings, hplain, h, Option.bind_some]

/-- The rest of the arguments after a step is the rest of the settings. -/
theorem Steps.settings {s s' : Parsing} {flag : Utf16} (h : Steps files args s s' flag) :
    ∃ setting, (∀ rest, Arguments.settings files (args.drop s'.argindex) = some rest → Arguments.settings files (args.drop s.argindex) = some (setting :: rest)) ∧
      s'.props = (s.apply setting).props ∧ s'.fileprops = (s.apply setting).fileprops ∧ s.argindex < s'.argindex ∧ s'.argindex ≤ args.length := by
  obtain ⟨hlt, hflag⟩ := List.getElem?_eq_some_iff.mp h.found
  have hdrop : args.drop s.argindex = flag :: args.drop (s.argindex + 1) := by rw [List.drop_eq_getElem_cons hlt, hflag]
  obtain ⟨setting, hplain, hs'⟩ | ⟨hplain, value, setting, hvalue, hsetting, hs'⟩ := h.made
  · rw [hs', hdrop]
    refine ⟨setting, fun rest hrest => ?_, rfl, rfl, Nat.lt_succ_self _, hlt⟩
    rw [settings_of_plain hplain, hrest]
    rfl
  · obtain ⟨hlt', hvalue'⟩ := List.getElem?_eq_some_iff.mp hvalue
    have hdrop' : args.drop (s.argindex + 1) = value :: args.drop (s.argindex + 2) := by rw [List.drop_eq_getElem_cons hlt', hvalue']
    rw [hs', hdrop, hdrop']
    refine ⟨setting, fun rest hrest => ?_, rfl, rfl, Nat.lt_add_of_pos_right Nat.two_pos, hlt'⟩
    rw [settings_of_value hplain hsetting, hrest]
    rfl

/-- The last of the values of some settings, or of those before. -/
theorem getLast?_filterMap_cons (f : Setting → Option Utf16) (setting : Setting) (rest : List Setting) (before : Option Utf16) :
    ((setting :: rest).filterMap f).getLast?.or before = (rest.filterMap f).getLast?.or ((f setting).or before) := by
  rw [List.filterMap_cons]
  cases f setting with
  | none => rfl
  | some value =>
    dsimp only
    rw [List.getLast?_cons]
    cases (rest.filterMap f).getLast? <;> rfl

/-- **What the loop leaves, if it has gone through all arguments**: each property as the last of its settings says, in each of the two sets. -/
theorem loop_values (fuel : ℕ) {s s' : Parsing} (h : loop files args fuel s = .ok s') (hend : s'.argindex = args.length) :
    ∃ all, settings files (args.drop s.argindex) = some all ∧
      (∀ name, s'.props.lookup name = (all.filterMap (commandValue name)).getLast?.or (s.props.lookup name)) ∧
      ∀ name, s'.fileprops.lookup name = (all.filterMap (fileValue name)).getLast?.or (s.fileprops.lookup name) := by
  induction fuel generalizing s with
  | zero => cases h
  | succ fuel ih =>
    obtain ⟨arg, harg, hrest⟩ := bind_inv h
    obtain ⟨hlt, -⟩ := List.getElem?_eq_some_iff.mp (element_eq_ok_iff.mp harg)
    split_ifs at hrest with hflag
    · obtain ⟨t, ht, hloop⟩ := bind_inv hrest
      obtain ⟨flag, hsteps⟩ := Parsing.steps_of_step ht
      obtain ⟨setting, hsettings, hprops, hfileprops, -, -⟩ := hsteps.settings
      -- the settings after this one, as the loop leaves them
      have hafter : ∃ rest, settings files (args.drop t.argindex) = some rest ∧
          (∀ name, s'.props.lookup name = (rest.filterMap (commandValue name)).getLast?.or (t.props.lookup name)) ∧
          ∀ name, s'.fileprops.lookup name = (rest.filterMap (fileValue name)).getLast?.or (t.fileprops.lookup name) := by
        split_ifs at hloop with hdone
        · cases hloop
          exact ⟨[], by rw [List.drop_eq_nil_of_le hdone]; rfl, fun _ => rfl, fun _ => rfl⟩
        · exact ih hloop
      obtain ⟨rest, hall, hcommands, hdefined⟩ := hafter
      refine ⟨setting :: rest, hsettings rest hall, fun name => ?_, fun name => ?_⟩
      · rw [hcommands, hprops, Parsing.lookup_props_apply, getLast?_filterMap_cons]
      · rw [hdefined, hfileprops, Parsing.lookup_fileprops_apply, getLast?_filterMap_cons]
    · cases hrest
      omega

/-- What is returned. -/
theorem parseArguments_values {props : Properties} (h : parseArguments files args = .ok props) :
    ∃ all, settings files args = some all ∧ ∀ name, props.lookup name = valueOf all name := by
  rw [parseArguments] at h
  split_ifs at h with hempty
  obtain ⟨s, hloop, hrest⟩ := bind_inv h
  dsimp only at hrest
  split_ifs at hrest with hend hlt hrequired
  · obtain ⟨arg, -, hexit⟩ := bind_inv hrest
    cases hexit
  · obtain rfl := Except.ok.inj hrest
    obtain ⟨all, hall, hcommands, hdefined⟩ := loop_values _ hloop (not_not.mp hend)
    refine ⟨all, hall, fun name => ?_⟩
    rw [lookup_overwrite, hcommands, hdefined, valueOf, AList.lookup_empty, Option.or_none, Option.or_none]

/-! ### No other end -/

/-- An end that parsing does not come to. -/
def Bad (e : Stop) : Prop := e = .thrown .arrayIndexOutOfBounds ∨ e = .nonTermination

theorem avoids_element {argindex : ℕ} (h : argindex < args.length) : Avoids Bad (element args argindex) :=
  avoids_of_ok (element_eq_ok_iff.mpr (List.getElem?_eq_getElem h))

theorem avoids_exit {α : Type} (reason : Reason) : Avoids Bad (.error (.exit reason) : Except Stop α) := by
  refine avoids_error_iff.mpr ?_
  rintro (h | h) <;> cases h

theorem avoids_thrown {α : Type} {t : Thrown} (h : t ≠ .arrayIndexOutOfBounds) : Avoids Bad (.error (.thrown t) : Except Stop α) := by
  refine avoids_error_iff.mpr ?_
  rintro (ht | ht)
  · exact h (Stop.thrown.inj ht)
  · cases ht

theorem avoids_valueAt (argindex : ℕ) (flag : Utf16) : Avoids Bad (valueAt args argindex flag) := by
  rw [valueAt]
  split_ifs with h
  · exact avoids_exit _
  · exact avoids_element (not_le.mp h)

theorem only_guard {ε α : Type} {bad : ε → Prop} {p : Prop} [Decidable p] {a : α} {e : ε} (h : bad e) :
    Only bad (if p then .ok a else .error e : Except ε α) := by
  split_ifs
  · exact only_ok
  · exact only_error h

/-- Only its format is what an integer is refused for. -/
theorem parseInt_eq_error {value : Utf16} {t : Thrown} (h : parseInt value = .error t) : t = .numberFormat := by
  have honly : Only (· = Thrown.numberFormat) (parseInt value) := by
    refine only_bind ?_ fun n _ => only_guard rfl
    rw [TimeSeries.parseLong]
    split
    split
    · exact only_error rfl
    · split
      · exact only_error rfl
      · exact only_guard rfl
  exact honly t h

theorem avoids_parseInt (value : Utf16) : Avoids Bad ((parseInt value).mapError .thrown) := by
  cases h : parseInt value with
  | ok n => exact avoids_ok
  | error t =>
    rw [parseInt_eq_error h]
    exact avoids_thrown (by decide)

namespace Parsing

variable (s : Parsing)

theorem avoids_integerFlag (flag property : Utf16) : Avoids Bad (s.integerFlag args flag property) :=
  avoids_bind_iff.mpr ⟨avoids_valueAt _ _, fun value _ => avoids_bind_iff.mpr ⟨avoids_parseInt value, fun _ _ => avoids_ok⟩⟩

theorem avoids_valueFlag (flag property : Utf16) : Avoids Bad (s.valueFlag args flag property) :=
  avoids_bind_iff.mpr ⟨avoids_valueAt _ _, fun _ _ => avoids_ok⟩

theorem avoids_fileFlag : Avoids Bad (s.fileFlag args files) := by
  refine avoids_bind_iff.mpr ⟨avoids_valueAt _ _, fun value _ => ?_⟩
  split
  · exact avoids_exit _
  · exact avoids_thrown (by decide)
  · exact avoids_ok

theorem avoids_propertyFlag : Avoids Bad (s.propertyFlag args) := by
  refine avoids_bind_iff.mpr ⟨avoids_valueAt _ _, fun value _ => ?_⟩
  split
  · exact avoids_exit _
  · exact avoids_ok

theorem avoids_step (h : s.argindex < args.length) : Avoids Bad (s.step args files) := by
  refine avoids_bind_iff.mpr ⟨avoids_element h, fun arg _ => ?_⟩
  split_ifs
  · exact s.avoids_integerFlag _ _
  · exact s.avoids_integerFlag _ _
  · exact avoids_ok
  · exact avoids_ok
  · exact avoids_ok
  · exact s.avoids_valueFlag _ _
  · exact s.avoids_valueFlag _ _
  · exact s.avoids_fileFlag
  · exact s.avoids_propertyFlag
  · exact avoids_exit _

end Parsing

/-- **The loop ends in the array**: each step goes on by an argument at least. -/
theorem avoids_loop (fuel : ℕ) {s : Parsing} (h : s.argindex < args.length) (hfuel : args.length ≤ s.argindex + fuel) : Avoids Bad (loop files args fuel s) := by
  induction fuel generalizing s with
  | zero => omega
  | succ fuel ih =>
    refine avoids_bind_iff.mpr ⟨avoids_element h, fun arg _ => ?_⟩
    split_ifs
    · refine avoids_bind_iff.mpr ⟨s.avoids_step h, fun s' hs' => ?_⟩
      obtain ⟨flag, hsteps⟩ := Parsing.steps_of_step hs'
      obtain ⟨setting, -, -, -, hlt, -⟩ := hsteps.settings
      split_ifs with hdone
      · exact avoids_ok
      · exact ih (not_le.mp hdone) (by omega)
    · exact avoids_ok

theorem avoids_parseArguments (files : Files) (args : List Utf16) : Avoids Bad (parseArguments files args) := by
  rw [parseArguments]
  split_ifs with hempty
  · exact avoids_exit _
  · refine avoids_bind_iff.mpr ⟨avoids_loop _ (Nat.pos_of_ne_zero hempty) (by simp), fun s _ => ?_⟩
    dsimp only
    split_ifs with hend hlt hrequired
    · exact avoids_bind_iff.mpr ⟨avoids_element hlt, fun _ _ => avoids_exit _⟩
    · exact avoids_exit _
    · exact avoids_exit _
    · exact avoids_ok

/-- **The order of flags and files does not matter**, and parsing ends in the array. -/
theorem precedence (files : Files) (args : List Utf16) : Precedence files args where
  values _ h := parseArguments_values h
  inBounds h := avoids_parseArguments files args _ h (.inl rfl)
  ends h := avoids_parseArguments files args _ h (.inr rfl)

end YcsbIvs.Client.Arguments
