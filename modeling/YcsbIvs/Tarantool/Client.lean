import YcsbIvs.Core.DB
import YcsbIvs.Foundations.Runs

/-!
# The Tarantool binding: reading what has been written

`insert` and `update` both replace the tuple of a key: by the key, and the names and strings of the fields they are given. So what an earlier call has
written is gone after an `update` (`tuple_run`).

`read` selects the tuples of the key, converts what it gets, and assigns the map to its parameter. So the map of its caller is left as it
was (`read_ok`). It takes the list of tuples for a tuple, besides, and converts nothing.

**A read gives its caller the fields that have been written** just if none of those asked for has been (`projects_iff`).
-/

namespace YcsbIvs.Tarantool

open YcsbIvs.Foundations YcsbIvs.Core

/-- The tuples of the space, by key. The key is the first string of its tuple. -/
abbrev Space := Utf16 → Option (List Utf16)

/-- What is in a list that comes from the connection. -/
inductive Value where
  /-- A string. -/
  | string (s : Utf16)
  /-- A tuple. -/
  | tuple (strings : List Utf16)

/-- What converting a list can throw. -/
inductive ConvertError where
  /-- `ClassCastException`. -/
  | classCast
  /-- `IndexOutOfBoundsException`. -/
  | indexOutOfBounds

/-- A value as a string. -/
def Value.asString : Value → Except ConvertError Utf16
  | string s => .ok s
  | tuple _ => .error .classCast

/-- The loop of `tupleConvertFilter`, from an odd index on. -/
def convertLoop (fields : Option (List Utf16)) : List Value → Values Utf16 → Except ConvertError (Values Utf16)
  | [], result => .ok result
  | name :: rest, result => do
    let name ← name.asString
    match rest with
    | [] => if fields.all (·.contains name) then .error .indexOutOfBounds else .ok result
    | value :: rest =>
      if fields.all (·.contains name) then do
        let value ← value.asString
        convertLoop fields rest (result.insert name (.string (.ofString value)))
      else convertLoop fields rest result

/-- `tupleConvertFilter(input, fields)`. -/
def tupleConvertFilter (input : Option (List Value)) (fields : Option (List Utf16)) : Except ConvertError (Values Utf16) :=
  match input with
  | none => .ok ∅
  | some input => convertLoop fields (input.drop 1) ∅

/-- `connection.select(spaceNo, 0, Arrays.asList(key), 0, 1, 0)`: a list of tuples, not more than one. -/
def select (space : Space) (key : Utf16) : List Value := (space key).toList.map .tuple

/-- `read(table, key, fields, result)`: what it returns, and the map of the caller. `selects` says whether `select` returns. -/
def read (selects : Bool) (space : Space) (key : Utf16) (fields : Option (List Utf16)) (result : Values Utf16) :
    Except ConvertError (Status × Values Utf16) :=
  if !selects then .ok (.error, result)
  else do
    -- assigned to the parameter, which the caller does not see
    let _ ← tupleConvertFilter (some (select space key)) fields
    .ok (.ok, result)

/-- The loop that fills the tuple, after the key. -/
def fillTuple : List (Sigma fun _ : Utf16 => ByteIterator) → Except Throwable (List Utf16)
  | [] => .ok []
  | i :: entries => do
    let (s, _) ← i.2.toString
    let tuple ← fillTuple entries
    .ok (i.1 :: s :: tuple)

/-- `replace(key, values, exceptionDescription)`; `replaces` says whether `connection.replace` returns. -/
def replace (replaces : Bool) (space : Space) (key : Utf16) (values : Values Utf16) : Except Throwable (Status × Space) := do
  let tuple ← fillTuple values.entries
  .ok (if replaces then (.ok, Function.update space key (some (key :: tuple))) else (.error, space))

/-- A call that writes. -/
inductive Call where
  /-- `insert`. -/
  | insert (values : Values Utf16)
  /-- `update`. -/
  | update (values : Values Utf16)

/-- The values it is given. -/
def Call.values : Call → Values Utf16
  | insert values => values
  | update values => values

/-- `insert(table, key, values)` and `update(table, key, values)`. -/
def Call.exec (replaces : Bool) (space : Space) (key : Utf16) : Call → Except Throwable (Status × Space)
  | insert values => replace replaces space key values
  | update values => replace replaces space key values

/-- Calls on a key, each of which returns OK. -/
def run (key : Utf16) : List Call → Space → Except Throwable Space
  | [], space => .ok space
  | call :: calls, space => do
    let (_, space) ← call.exec true space key
    run key calls space

/-! ### What should be read -/

/-- A record: the strings of its fields. -/
abbrev Fields := Utf16 → Option Utf16

/-- `insert` sets the fields of a record, `update` those that it is given. -/
def Call.apply (r : Fields) : Call → Fields
  | insert values => textOf values
  | update values => fun f => (textOf values f).or (r f)

/-- The record that the calls have written. -/
def written (calls : List Call) : Fields := calls.foldl Call.apply fun _ => none

/-- The map has the fields of the record that are asked for, and no others. -/
def Projects (r : Fields) (fields : Option (List Utf16)) (result : Values Utf16) : Prop :=
  ∀ f, ((∀ names ∈ fields, f ∈ names) → result.lookup f = (r f).map fun s => .string (.ofString s)) ∧
    ((¬ ∀ names ∈ fields, f ∈ names) → result.lookup f = none)

/-- Some call is given the field, and only updates come after it. -/
def Given (f : Utf16) : List Call → Prop
  | [] => False
  | call :: calls => (f ∈ call.values ∧ ∀ c ∈ calls, ∃ values, c = .update values) ∨ Given f calls

section

variable {key : Utf16} {space space' : Space} {fields : Option (List Utf16)} {calls : List Call} {f : Utf16}

/-! ### Reading -/

/-- A read that selects returns OK, as there is nothing to convert. -/
theorem read_selects (space : Space) (key : Utf16) (fields : Option (List Utf16)) (result : Values Utf16) :
    read true space key fields result = .ok (.ok, result) := by
  have hnone : (select space key).drop 1 = [] := by
    rw [select]
    cases space key <;> rfl
  rw [read, tupleConvertFilter, hnone]
  rfl

/-- A read leaves the map of its caller as it was. -/
theorem read_ok {selects : Bool} {status : Status} {result result' : Values Utf16}
    (h : read selects space key fields result = .ok (status, result')) : result' = result := by
  cases selects with
  | true =>
    rw [read_selects] at h
    cases h
    rfl
  | false =>
    cases h
    rfl

/-! ### Writing -/

theorem exec_eq (replaces : Bool) (space : Space) (key : Utf16) (call : Call) : call.exec replaces space key = replace replaces space key call.values := by
  cases call <;> rfl

/-- A call that returns OK replaces the tuple. -/
theorem exec_ok {call : Call} {status : Status} (h : call.exec true space key = .ok (status, space')) :
    ∃ tuple, fillTuple call.values.entries = .ok tuple ∧ space' = Function.update space key (some (key :: tuple)) := by
  rw [exec_eq] at h
  obtain ⟨tuple, htuple, h⟩ := bind_inv h
  cases h
  exact ⟨tuple, htuple, rfl⟩

theorem run_append {calls' : List Call} (h : run key (calls ++ calls') space = .ok space') :
    ∃ s, run key calls space = .ok s ∧ run key calls' s = .ok space' := by
  induction calls generalizing space with
  | nil => exact ⟨space, rfl, h⟩
  | cons call calls ih =>
    obtain ⟨⟨status, s₁⟩, hexec, h⟩ := bind_inv h
    obtain ⟨s, hs, hs'⟩ := ih h
    exact ⟨s, by rw [run, bind_ok hexec]; exact hs, hs'⟩

/-- The tuple of the key is that of the last call, whatever the calls before it have written. -/
theorem tuple_run {call : Call} (h : run key (calls ++ [call]) space = .ok space') :
    ∃ tuple, fillTuple call.values.entries = .ok tuple ∧ space' key = some (key :: tuple) := by
  obtain ⟨s, -, h⟩ := run_append h
  obtain ⟨⟨status, s₁⟩, hexec, h⟩ := bind_inv h
  cases h
  obtain ⟨tuple, htuple, rfl⟩ := exec_ok hexec
  exact ⟨tuple, htuple, Function.update_self ..⟩

theorem readable_of_fillTuple {entries : List (Sigma fun _ : Utf16 => ByteIterator)} {tuple : List Utf16} (h : fillTuple entries = .ok tuple) :
    ∀ e ∈ entries, ∃ r, e.2.toString = .ok r := by
  induction entries generalizing tuple with
  | nil => exact fun e he => absurd he List.not_mem_nil
  | cons e entries ih =>
    obtain ⟨r, hr, h⟩ := bind_inv h
    obtain ⟨tuple', htuple, -⟩ := bind_inv h
    exact List.forall_mem_cons.mpr ⟨⟨r, hr⟩, ih htuple⟩

/-- A field has been written just if it has been given, or was there and only updates have come after it. -/
theorem foldl_apply_eq_none_iff (h : run key calls space = .ok space') (r : Fields) :
    calls.foldl Call.apply r f = none ↔ ¬ Given f calls ∧ (r f = none ∨ ¬ ∀ c ∈ calls, ∃ values, c = .update values) := by
  induction calls generalizing space r with
  | nil => simp [Given]
  | cons call calls ih =>
    obtain ⟨⟨status, s₁⟩, hexec, h⟩ := bind_inv h
    obtain ⟨tuple, htuple, -⟩ := exec_ok hexec
    have htext := textOf_eq_none_iff (readable_of_fillTuple htuple) (f := f)
    rw [List.foldl_cons, ih h]
    cases call with
    | insert values =>
      simp only [Call.apply, Call.values, Given, List.forall_mem_cons] at htext ⊢
      rw [htext]
      simp
      tauto
    | update values =>
      simp only [Call.apply, Call.values, Given, List.forall_mem_cons] at htext ⊢
      rw [Option.or_eq_none_iff, htext]
      simp
      tauto

/-- **A read gives its caller the fields that have been written**, just if none of those asked for has been. -/
theorem projects_iff {result : Values Utf16} (hrun : run key calls (fun _ => none) = .ok space)
    (hread : read true space key fields ∅ = .ok (.ok, result)) :
    Projects (written calls) fields result ↔ ∀ f, (∀ names ∈ fields, f ∈ names) → ¬ Given f calls := by
  have hgiven : ∀ f, written calls f = none ↔ ¬ Given f calls := fun f => by
    rw [written, foldl_apply_eq_none_iff hrun]
    simp
  rw [read_ok hread]
  simp only [Projects, AList.lookup_empty, ← hgiven]
  constructor
  · intro h f hf
    exact Option.map_eq_none_iff.mp ((h f).1 hf).symm
  · intro h f
    exact ⟨fun hf => by rw [h f hf, Option.map_none], fun _ => trivial⟩

end

/-- One field is inserted. -/
def insertOne : List Call := [.insert (AList.singleton [0x66] (.string (.ofString [0x31])))]

/-- It is not read. -/
theorem not_projects_one : ∃ space result, run [0x6B] insertOne (fun _ => none) = .ok space ∧
    read true space [0x6B] none ∅ = .ok (.ok, result) ∧ ¬ Projects (written insertOne) none result := by
  refine ⟨_, ∅, rfl, read_selects _ _ _ _, fun h => ?_⟩
  have hfield := (h [0x66]).1 fun names hnames => nomatch hnames
  cases hfield

theorem projects_iff_other : ∃ space result, run [0x6B] insertOne (fun _ => none) = .ok space ∧
    read true space [0x6B] (some [[0x67]]) ∅ = .ok (.ok, result) ∧
      (Projects (written insertOne) (some [[0x67]]) result ↔ ∀ f, (∀ names ∈ some [[0x67]], f ∈ names) → ¬ Given f insertOne) := by
  obtain ⟨space, hrun⟩ : ∃ space, run [0x6B] insertOne (fun _ => none) = .ok space := ⟨_, rfl⟩
  have hread := read_selects space [0x6B] (some [[0x67]]) ∅
  exact ⟨space, ∅, hrun, hread, projects_iff hrun hread⟩

end YcsbIvs.Tarantool
