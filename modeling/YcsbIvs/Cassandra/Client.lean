import YcsbIvs.Core.Consumption
import YcsbIvs.Core.DB
import Mathlib.Data.List.Perm.Basic

/-!
# Writing with the Cassandra binding

`CassandraCQLClient` prepares a statement for each set of fields it writes, and keeps it
(`insertStmts`, `updateStmts`). `insert` and `update` look their statement up or prepare it, log the values
if debug logging is enabled, bind the text of each value to its column, and execute the statement. Preparing
and executing it can fail; a column has the name it was given.

A log call formats its arguments, and so calls `toString` of the iterator that is bound right after. What throws
there is caught by the logger. So what is bound is the same whether or not debug logging is enabled **just if every value
can be read again**, or no statement is executed at all (`logging_iff`).
-/

namespace YcsbIvs.Cassandra

open YcsbIvs.Foundations YcsbIvs.Core

/-- `YCSB_KEY`, the name `y_id` of the column of keys. -/
def ycsbKey : Utf16 := [0x79, 0x5F, 0x69, 0x64]

/-- A statement that has been prepared for a set of fields. -/
structure PreparedStatement where
  /-- The table it writes to. -/
  table : Utf16
  /-- The fields, in the order of its variables. -/
  fields : List Utf16
  deriving DecidableEq

/-- Which of the driver's calls throw. -/
structure Driver where
  /-- `session.prepare` returns. -/
  prepares : Bool
  /-- `session.execute` returns. -/
  executes : Bool

/-- What a write does. -/
structure Outcome where
  /-- The status. -/
  status : Status
  /-- The statement that was executed, and what was bound to its variables. -/
  executed : Option (PreparedStatement × List (Utf16 × Utf16))
  /-- The statements that are kept. -/
  stmts : List PreparedStatement

/-- The statement for a set of fields, prepared if there is none; and those that are kept then. -/
def statement (stmts : List PreparedStatement) (driver : Driver) (table : Utf16) (fields : List Utf16) :
    Option PreparedStatement × List PreparedStatement :=
  match stmts.find? fun stmt => stmt.fields.isPerm fields with
  | some stmt => (some stmt, stmts)
  | none => if driver.prepares then (some ⟨table, fields⟩, ⟨table, fields⟩ :: stmts) else (none, stmts)

/-- An iterator after `logger.debug("{} = {}", key, it)`. -/
def logged (it : ByteIterator) : ByteIterator :=
  match it.toString with
  | .ok r => r.2
  | .error _ => it

/-- The values after all of them have been logged. -/
def loggedValues (values : Values Utf16) : Values Utf16 :=
  ⟨values.entries.map (Sigma.map id fun _ it => logged it), by
    rw [List.NodupKeys, List.keys, List.map_map]
    exact values.nodupKeys⟩

/-- The loop that binds the text of the values to variables. -/
def bindLoop : List Utf16 → Values Utf16 → Except Throwable (List (Utf16 × Utf16))
  | [], _ => .ok []
  | name :: names, values => do
    let some it := values.lookup name | .error .nullPointer
    let (text, it) ← it.toString
    let bound ← bindLoop names (values.insert name it)
    .ok ((name, text) :: bound)

/-- What `insert` and `update` have in common. `bindKey` adds the key to the variables. -/
def write (bindKey : Utf16 → List (Utf16 × Utf16) → List (Utf16 × Utf16)) (debugEnabled : Bool) (stmts : List PreparedStatement)
    (driver : Driver) (table key : Utf16) (values : Values Utf16) : Outcome :=
  match statement stmts driver table values.keys with
  | (none, stmts) => ⟨.error, none, stmts⟩
  | (some stmt, stmts) =>
    match bindLoop stmt.fields (if debugEnabled then loggedValues values else values) with
    | .error _ => ⟨.error, none, stmts⟩
    | .ok bound => ⟨if driver.executes then .ok else .error, some (stmt, bindKey key bound), stmts⟩

/-- `update(table, key, values)`: the key is the last variable. -/
def update : Bool → List PreparedStatement → Driver → Utf16 → Utf16 → Values Utf16 → Outcome :=
  write fun key bound => bound ++ [(ycsbKey, key)]

/-- `insert(table, key, values)`: the key is the first variable. -/
def insert : Bool → List PreparedStatement → Driver → Utf16 → Utf16 → Values Utf16 → Outcome :=
  write fun key bound => (ycsbKey, key) :: bound

/-! ### What is bound -/

/-- What `toString` of an iterator gives, if it does not throw. -/
def textOf (it : ByteIterator) : Option Utf16 := it.toString.toOption.map Prod.fst

/-- What the loop binds to a variable. -/
def boundTo (values : Values Utf16) (name : Utf16) : Option (Utf16 × Utf16) :=
  ((values.lookup name).bind textOf).map fun text => (name, text)

theorem lookup_loggedValues (values : Values Utf16) (f : Utf16) : (loggedValues values).lookup f = (values.lookup f).map logged :=
  List.dlookup_map₂ (f := fun _ it => logged it) f

section

variable {α β : Type} {f g : α → Option β} {xs : List α}

theorem mapM_eq_some_iff {ys : List β} : xs.mapM f = some ys ↔ xs.map f = ys.map some := by
  induction xs generalizing ys with
  | nil => cases ys <;> simp
  | cons x xs ih =>
    rw [List.mapM_cons, List.map_cons]
    cases hf : f x with
    | none => cases ys <;> simp
    | some y =>
      cases ys with
      | nil =>
        cases hrest : xs.mapM f with
        | none => simp
        | some ys => simp
      | cons y' ys =>
        rw [List.map_cons, List.cons.injEq, ← ih]
        cases hrest : xs.mapM f with
        | none => simp
        | some zs => simp

theorem mapM_congr (h : ∀ x ∈ xs, f x = g x) : xs.mapM f = xs.mapM g :=
  Option.ext fun ys => by
    rw [mapM_eq_some_iff, mapM_eq_some_iff, List.map_congr_left h]

theorem mapM_eq_none_iff : xs.mapM f = none ↔ ∃ x ∈ xs, f x = none := by
  induction xs with
  | nil => simp
  | cons x xs ih =>
    rw [List.mapM_cons]
    cases hf : f x with
    | none => simp [hf]
    | some y =>
      cases hrest : xs.mapM f with
      | none => simpa [hf] using ih.mp hrest
      | some ys =>
        simp only [hrest, reduceCtorEq, false_iff] at ih
        simp [hf, ih]

/-- Maps that give nothing at the same places are the same just if they give nothing somewhere, or agree. -/
theorem mapM_eq_mapM_iff (h : ∀ x ∈ xs, f x = none ↔ g x = none) :
    xs.mapM f = xs.mapM g ↔ (∃ x ∈ xs, f x = none) ∨ ∀ x ∈ xs, f x = g x := by
  constructor
  · intro heq
    cases hf : xs.mapM f with
    | none => exact .inl (mapM_eq_none_iff.mp hf)
    | some ys =>
      have hmap := (mapM_eq_some_iff.mp hf).trans (mapM_eq_some_iff.mp (heq ▸ hf)).symm
      exact .inr (List.map_inj_left.mp hmap)
  · rintro (⟨x, hx, hnone⟩ | hsame)
    · rw [mapM_eq_none_iff.mpr ⟨x, hx, hnone⟩, mapM_eq_none_iff.mpr ⟨x, hx, (h x hx).mp hnone⟩]
    · exact mapM_congr hsame

end

/-- Each variable is bound to the text of its value. -/
theorem bindLoop_eq {names : List Utf16} (hnd : names.Nodup) (values : Values Utf16) :
    (bindLoop names values).toOption = names.mapM (boundTo values) := by
  induction names generalizing values with
  | nil => rfl
  | cons name names ih =>
    obtain ⟨hname, hnd⟩ := List.nodup_cons.mp hnd
    rw [List.mapM_cons]
    cases hit : values.lookup name with
    | none => simp [bindLoop, boundTo, hit, Except.toOption]
    | some it =>
      cases htext : it.toString with
      | error e => simp [bindLoop, boundTo, hit, textOf, htext, Except.toOption, bind, Except.bind]
      | ok r =>
        have hrest : ∀ n ∈ names, boundTo (values.insert name r.2) n = boundTo values n := by
          intro n hn
          have hne : n ≠ name := fun heq => hname (heq ▸ hn)
          rw [boundTo, AList.lookup_insert_ne hne, boundTo]
        have hbound : boundTo values name = some (name, r.1) := by simp [boundTo, hit, textOf, htext, Except.toOption]
        rw [hbound, ← mapM_congr hrest, ← ih hnd]
        simp only [bindLoop, hit]
        rw [bind_ok htext]
        cases hb : bindLoop names (values.insert name r.2) with
        | error e => simp [bind, Except.bind, Except.toOption]
        | ok bound => simp [bind, Except.bind, Except.toOption]

/-- The text of a value that has been logged: the same, if the iterator can be read again. -/
theorem textOf_logged {it : ByteIterator} (h : it.WellMade) :
    (textOf it = none ↔ textOf (logged it) = none) ∧ (textOf (logged it) = textOf it ↔ textOf it = none ∨ it.Rereadable) := by
  cases htext : it.toString with
  | error e => simp [textOf, logged, htext, Except.toOption]
  | ok r =>
    obtain ⟨s', it'', hagain, hsame⟩ := ByteIterator.toString_again h htext
    simp [textOf, logged, htext, hagain, Except.toOption, hsame]

/-! ### Logging -/

/-- Nothing is executed: there is no statement, or the text of a value can not be had. -/
def NotExecuted (stmts : List PreparedStatement) (driver : Driver) (table : Utf16) (values : Values Utf16) : Prop :=
  (statement stmts driver table values.keys).1 = none ∨ ∃ f it, values.lookup f = some it ∧ textOf it = none

theorem perm_of_statement {stmts stmts' : List PreparedStatement} {driver : Driver} {table : Utf16} {fields : List Utf16} {stmt : PreparedStatement}
    (h : statement stmts driver table fields = (some stmt, stmts')) : stmt.fields.Perm fields := by
  rw [statement] at h
  split at h
  · next hfind =>
    cases h
    have hperm := List.find?_some hfind
    exact List.isPerm_iff.mp hperm
  · split_ifs at h
    · cases h
      exact List.Perm.refl _
    · cases h

section

variable {stmts : List PreparedStatement} {driver : Driver} {table : Utf16} {values : Values Utf16}

/-- A value that has been logged is bound to the same text, if its iterator can be read again. -/
theorem boundTo_loggedValues {f : Utf16} {it : ByteIterator} (hit : values.lookup f = some it) (h : it.WellMade) :
    (boundTo values f = none ↔ boundTo (loggedValues values) f = none) ∧
      (boundTo values f = boundTo (loggedValues values) f ↔ textOf it = none ∨ it.Rereadable) ∧ (boundTo values f = none ↔ textOf it = none) := by
  obtain ⟨hnone, hsame⟩ := textOf_logged h
  have hlogged : (loggedValues values).lookup f = some (logged it) := by rw [lookup_loggedValues, hit, Option.map_some]
  have hinj : Function.Injective fun text : Utf16 => (f, text) := fun a b hab => (Prod.mk.inj hab).2
  refine ⟨?_, ?_, ?_⟩
  · simp [boundTo, hit, hlogged, hnone]
  · rw [← hsame, boundTo, boundTo, hit, hlogged, Option.bind_some, Option.bind_some, (Option.map_injective hinj).eq_iff, eq_comm]
  · simp [boundTo, hit]

/-- The loop binds the same to the values when they have been logged, just if it throws or all of them can be read again. -/
theorem bindLoop_loggedValues_iff {names : List Utf16} (hperm : names.Perm values.keys) (hmade : ∀ f it, values.lookup f = some it → it.WellMade) :
    (bindLoop names (loggedValues values)).toOption = (bindLoop names values).toOption ↔
      (∃ f it, values.lookup f = some it ∧ textOf it = none) ∨ ∀ f it, values.lookup f = some it → it.Rereadable := by
  have hnd : names.Nodup := hperm.nodup_iff.mpr values.nodupKeys
  have hmem : ∀ f, f ∈ names ↔ ∃ it, values.lookup f = some it := fun f => by
    rw [hperm.mem_iff, ← Option.isSome_iff_exists, AList.lookup_isSome, AList.mem_keys]
  rw [bindLoop_eq hnd, bindLoop_eq hnd, eq_comm, mapM_eq_mapM_iff]
  · constructor
    · rintro (⟨f, hf, hnone⟩ | hsame)
      · obtain ⟨it, hit⟩ := (hmem f).mp hf
        exact .inl ⟨f, it, hit, (boundTo_loggedValues hit (hmade f it hit)).2.2.mp hnone⟩
      · by_cases hthrows : ∃ f it, values.lookup f = some it ∧ textOf it = none
        · exact .inl hthrows
        · refine .inr fun f it hit => ?_
          have hf := hsame f ((hmem f).mpr ⟨it, hit⟩)
          exact ((boundTo_loggedValues hit (hmade f it hit)).2.1.mp hf).resolve_left fun hnone => hthrows ⟨f, it, hit, hnone⟩
    · rintro (⟨f, it, hit, hnone⟩ | hread)
      · exact .inl ⟨f, (hmem f).mpr ⟨it, hit⟩, (boundTo_loggedValues hit (hmade f it hit)).2.2.mpr hnone⟩
      · refine .inr fun f hf => ?_
        obtain ⟨it, hit⟩ := (hmem f).mp hf
        exact (boundTo_loggedValues hit (hmade f it hit)).2.1.mpr (.inr (hread f it hit))
  · intro f hf
    obtain ⟨it, hit⟩ := (hmem f).mp hf
    exact (boundTo_loggedValues hit (hmade f it hit)).1

/-- A write executes the same whether or not the values are logged, just if it executes nothing or all of them can be read again. -/
theorem write_executed_iff {bindKey : Utf16 → List (Utf16 × Utf16) → List (Utf16 × Utf16)} {key : Utf16} (hkey : Function.Injective (bindKey key))
    (hmade : ∀ f it, values.lookup f = some it → it.WellMade) :
    (write bindKey true stmts driver table key values).executed = (write bindKey false stmts driver table key values).executed ↔
      NotExecuted stmts driver table values ∨ ∀ f it, values.lookup f = some it → it.Rereadable := by
  rw [write, write, NotExecuted]
  cases hstmt : statement stmts driver table values.keys with
  | mk stmt stmts' =>
    cases stmt with
    | none => simp
    | some stmt =>
      have hloop := bindLoop_loggedValues_iff (perm_of_statement hstmt) hmade
      simp only [if_true, Bool.false_eq_true, if_false, reduceCtorEq, false_or]
      rw [← hloop]
      cases bindLoop stmt.fields (loggedValues values) <;> cases bindLoop stmt.fields values <;> simp [Except.toOption, hkey.eq_iff]

/-- **Logging is transparent** to what `insert` and `update` execute, just if they execute nothing or all the values can be read again. -/
theorem logging_iff (hmade : ∀ f it, values.lookup f = some it → it.WellMade) (key : Utf16) :
    ((insert true stmts driver table key values).executed = (insert false stmts driver table key values).executed ↔
        NotExecuted stmts driver table values ∨ ∀ f it, values.lookup f = some it → it.Rereadable) ∧
      ((update true stmts driver table key values).executed = (update false stmts driver table key values).executed ↔
        NotExecuted stmts driver table values ∨ ∀ f it, values.lookup f = some it → it.Rereadable) := by
  constructor
  · have hkey : Function.Injective fun bound : List (Utf16 × Utf16) => (ycsbKey, key) :: bound := fun _ _ h => (List.cons.inj h).2
    exact write_executed_iff hkey hmade
  · have hkey : Function.Injective fun bound : List (Utf16 × Utf16) => bound ++ [(ycsbKey, key)] := fun _ _ h => List.append_cancel_right h
    exact write_executed_iff hkey hmade

end

/-- A value that is a string is bound as it is. -/
theorem logging_iff_string :
    (insert true [] ⟨true, true⟩ [0x74] [0x6B] (AList.singleton [0x66] (.string (.ofString [0x61])))).executed =
      (insert false [] ⟨true, true⟩ [0x74] [0x6B] (AList.singleton [0x66] (.string (.ofString [0x61])))).executed := by
  refine (logging_iff (fun f it h => ?_) [0x6B]).1.mpr (.inr fun f it h => ?_)
  · obtain ⟨-, rfl⟩ := eq_of_lookup_singleton h
    exact Nat.zero_le _
  · obtain ⟨-, rfl⟩ := eq_of_lookup_singleton h
    exact .inl rfl

/-- One that is an array is bound as the empty string, once it has been logged. -/
theorem not_logging :
    ¬ ∀ (stmts : List PreparedStatement) (driver : Driver) (table key : Utf16) (values : Values Utf16),
      (∀ f it, values.lookup f = some it → it.WellMade) →
        (insert true stmts driver table key values).executed = (insert false stmts driver table key values).executed ∧
          (update true stmts driver table key values).executed = (update false stmts driver table key values).executed := by
  intro h
  obtain ⟨hsame, -⟩ := h [] ⟨true, true⟩ [0x74] [0x6B] (AList.singleton [0x66] (.byteArray (.ofArray [0x61]))) fun f it hit => by
    obtain ⟨-, rfl⟩ := eq_of_lookup_singleton hit
    exact ⟨by decide, by decide, by decide⟩
  revert hsame
  decide

end YcsbIvs.Cassandra
