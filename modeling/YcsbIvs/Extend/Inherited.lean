import YcsbIvs.Core.DB
import YcsbIvs.Foundations.Runs

/-!
# Extend, as a binding inherits it

`DB.extend` reads the fields it is to extend, and gives `update` the map it has read them into. So `update` is given those fields
and, if `read` fills in more than it was asked for, those too; a field that is in neither is left to what `update` does with the rest of
the record.

`inherited` is `extend` over any `read` and `update`, whatever they reply; over the bindings that merge it is the `extend` of
`ExtendBinding` (`inherited_eq_extend`). `putAll` is the loop in which a binding fills a map, in either direction.
-/

namespace YcsbIvs.Extend

open YcsbIvs.Foundations YcsbIvs.Core

variable {τ ν σ ρ : Type} [DecidableEq ν] [DecidableEq ρ]

/-- `extend(table, key, values, maxfieldlength)`, inherited by a binding with these `read` and `update`. `ok` is `Status.OK`, and the
iterators of `values` come back as they are after it. -/
def inherited (ok : ρ) (read : σ → τ → ν → Option (List ν) → Except Throwable (ρ × Values ν × σ))
    (update : σ → τ → ν → Values ν → Except Throwable (ρ × σ)) (s : σ) (table : τ) (key : ν) (values : Values ν) (maxfieldlength : ℤ) :
    Except Throwable (ρ × Values ν × σ) := do
  let (status, result, s) ← read s table key (some values.keys)
  if status = ok then
    let (values, result) ← extendLoop maxfieldlength values.keys values result
    let (status, s) ← update s table key result
    .ok (status, values, s)
  else .ok (status, values, s)

/-- Over a binding that merges it is the `extend` of that binding. -/
theorem inherited_eq_extend [DecidableEq τ] (B : ExtendBinding τ ν σ) (s : σ) (table : τ) (key : ν) (values : Values ν) (maxfieldlength : ℤ) :
    inherited (some Status.ok) B.read (fun s t k v => (B.update s t k v).map fun r => (r.1, r.2.2)) s table key values maxfieldlength =
      B.extend s table key values maxfieldlength := by
  rw [inherited, ExtendBinding.extend]
  cases B.read s table key (some values.keys) with
  | error e => rfl
  | ok o =>
    simp only [bind, Except.bind]
    split_ifs
    · cases extendLoop maxfieldlength values.keys values o.2.1 with
      | error e => rfl
      | ok l =>
        dsimp only
        cases B.update o.2.2 table key l.2 <;> rfl
    · rfl

/-- An `extend` that succeeds has read the record, and updated it with what its loop left. -/
theorem inherited_ok {ok : ρ} {read : σ → τ → ν → Option (List ν) → Except Throwable (ρ × Values ν × σ)}
    {update : σ → τ → ν → Values ν → Except Throwable (ρ × σ)} {s s' : σ} {table : τ} {key : ν} {values values' : Values ν}
    {maxfieldlength : ℤ} (h : inherited ok read update s table key values maxfieldlength = .ok (ok, values', s')) :
    ∃ result s₁ result', read s table key (some values.keys) = .ok (ok, result, s₁) ∧
      extendLoop maxfieldlength values.keys values result = .ok (values', result') ∧ update s₁ table key result' = .ok (ok, s') := by
  obtain ⟨⟨status, result, s₁⟩, hread, h⟩ := bind_inv h
  dsimp only at h
  split_ifs at h with hst
  · subst hst
    obtain ⟨⟨values₁, result'⟩, hloop, h⟩ := bind_inv h
    obtain ⟨⟨status, s₂⟩, hupdate, h⟩ := bind_inv h
    cases h
    exact ⟨result, s₁, result', hread, hloop, hupdate⟩
  · cases h
    exact absurd rfl hst

/-- The loop puts in no field that was not read. -/
theorem mem_of_extendLoop {maxfieldlength : ℤ} {fields : List ν} (hnd : fields.Nodup) {values values' result result' : Values ν}
    (h : extendLoop maxfieldlength fields values result = .ok (values', result')) {f : ν} (hf : f ∈ result') : f ∈ result := by
  obtain ⟨hout, hin⟩ := extendLoop_lookup hnd h
  rw [← AList.lookup_isSome] at hf ⊢
  by_cases hfield : f ∈ fields
  · obtain ⟨read, given, left, -, hread, -, -⟩ := hin f hfield
    rw [hread, Option.isSome_some]
  · rwa [hout f hfield] at hf

/-! ### Filling a map -/

section

variable {α W : Type} {name : α → Utf16} {value : α → Except Throwable (Option W)} {xs : List α} {dest dest' : AList fun _ : Utf16 => W}

/-- The loop `for (x : xs) { dest.put(name(x), value(x)); }`, which may leave an entry out, and may throw. -/
def putAll (name : α → Utf16) (value : α → Except Throwable (Option W)) :
    List α → AList (fun _ : Utf16 => W) → Except Throwable (AList fun _ : Utf16 => W)
  | [], dest => .ok dest
  | x :: xs, dest => do
    match ← value x with
    | some w => putAll name value xs (dest.insert (name x) w)
    | none => putAll name value xs dest

/-- A loop in which nothing throws ends. -/
theorem exists_putAll (h : ∀ x ∈ xs, ∃ o, value x = .ok o) (dest : AList fun _ : Utf16 => W) : ∃ dest', putAll name value xs dest = .ok dest' := by
  induction xs generalizing dest with
  | nil => exact ⟨dest, rfl⟩
  | cons x xs ih =>
    obtain ⟨⟨o, ho⟩, hxs⟩ := List.forall_mem_cons.mp h
    rw [putAll, bind_ok ho]
    cases o with
    | none => exact ih hxs dest
    | some w => exact ih hxs _

/-- Names that are not there are as they were. -/
theorem putAll_lookup_of_notMem (h : putAll name value xs dest = .ok dest') {f : Utf16} (hf : f ∉ xs.map name) :
    dest'.lookup f = dest.lookup f := by
  induction xs generalizing dest with
  | nil =>
    cases h
    rfl
  | cons x xs ih =>
    rw [List.map_cons, List.mem_cons, not_or] at hf
    obtain ⟨o, -, h⟩ := bind_inv h
    cases o with
    | none => exact ih h hf.2
    | some w => rw [ih h hf.2, AList.lookup_insert_ne hf.1]

/-- A map that was empty has just names that are there. -/
theorem mem_of_putAll (h : putAll name value xs ∅ = .ok dest') {f : Utf16} (hf : f ∈ dest') : f ∈ xs.map name := by
  by_contra hnot
  have hnone := putAll_lookup_of_notMem h hnot
  rw [AList.lookup_empty] at hnone
  exact AList.lookup_eq_none.mp hnone hf

/-- The map has what was put in. -/
theorem putAll_lookup (hnd : (xs.map name).Nodup) (h : putAll name value xs dest = .ok dest') {x : α} (hx : x ∈ xs) :
    ∃ o, value x = .ok o ∧ dest'.lookup (name x) = o.or (dest.lookup (name x)) := by
  induction xs generalizing dest with
  | nil => exact absurd hx List.not_mem_nil
  | cons y ys ih =>
    rw [List.map_cons, List.nodup_cons] at hnd
    obtain ⟨o, ho, h⟩ := bind_inv h
    rcases List.mem_cons.mp hx with rfl | hx
    · refine ⟨o, ho, ?_⟩
      cases o with
      | none => exact putAll_lookup_of_notMem h hnd.1
      | some w => rw [putAll_lookup_of_notMem h hnd.1, AList.lookup_insert, Option.some_or]
    · have hne : name x ≠ name y := fun heq => hnd.1 (heq ▸ List.mem_map_of_mem hx)
      cases o with
      | none => exact ih hnd.2 h hx
      | some w =>
        obtain ⟨o', ho', hlookup⟩ := ih hnd.2 h hx
        exact ⟨o', ho', by rw [hlookup, AList.lookup_insert_ne hne]⟩

/-- A map that was empty has just that. -/
theorem putAll_lookup_empty (hnd : (xs.map name).Nodup) (h : putAll name value xs ∅ = .ok dest) {x : α} (hx : x ∈ xs) :
    value x = .ok (dest.lookup (name x)) := by
  obtain ⟨o, ho, hlookup⟩ := putAll_lookup hnd h hx
  rw [AList.lookup_empty, Option.or_none] at hlookup
  rw [hlookup, ho]

/-- So it has what is put in for an entry of another map. -/
theorem putAll_entries {V : Type} {source : AList fun _ : Utf16 => V} {value : (Sigma fun _ : Utf16 => V) → Except Throwable (Option W)}
    (h : putAll Sigma.fst value source.entries ∅ = .ok dest) {f : Utf16} {v : V} (hf : source.lookup f = some v) :
    value ⟨f, v⟩ = .ok (dest.lookup f) :=
  putAll_lookup_empty source.nodupKeys h (AList.mem_lookup_iff.mp hf)

end

end YcsbIvs.Extend
