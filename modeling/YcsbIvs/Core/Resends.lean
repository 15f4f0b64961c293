import YcsbIvs.Core.Consumption

/-!
# Sending the values again

A binding that tries again may read the iterators of the values again for every attempt (`Attempts.next`). The first attempt sends what they
give when the call is made. What they give after that they give from then on, so each later attempt sends the same as the second; and that
is what the first has sent just if every value can be read again (`Follows`).

**All attempts send what the iterators gave when the call was made just if there is no second one, or every value can be read again**
(`sent_iff`).
-/

namespace YcsbIvs.Core

open YcsbIvs.Foundations

/-- The names and texts that the iterators give, if they can be read. -/
def texts (values : Entries) : Option (List (Utf16 × Utf16)) := (getStringMap values).toOption.map Prod.fst

/-- The iterators of a call, and the fields that its attempts have sent. -/
structure Attempts where
  /-- The iterators, as they are. -/
  values : Entries
  /-- The fields of each attempt. -/
  sent : List (List (Utf16 × Utf16))

/-- An attempt reads the iterators, and sends what they give. -/
def Attempts.next (c : Attempts) : Except Throwable (List (Utf16 × Utf16) × Attempts) := do
  let (fields, values) ← getStringMap c.values
  .ok (fields, ⟨values, c.sent ++ [fields]⟩)

/-- Every value gives the same when it is read again. -/
def Rereadable (values : Entries) : Prop := ∀ e ∈ values, e.2.Rereadable

variable {values : Entries} {c c' : Attempts} {fields : List (Utf16 × Utf16)}

theorem texts_eq_some : texts values = some fields ↔ ∃ left, getStringMap values = .ok (fields, left) := by
  rw [texts]
  cases getStringMap values with
  | error e => simp [Except.toOption]
  | ok r =>
    obtain ⟨fields', left⟩ := r
    simp [Except.toOption]

/-- The entries keep their names. -/
theorem names_getStringMap {left : Entries} (h : getStringMap values = .ok (fields, left)) : left.map Sigma.fst = values.map Sigma.fst := by
  induction values generalizing fields left with
  | nil =>
    cases h
    rfl
  | cons e values ih =>
    obtain ⟨o, -, h⟩ := bind_inv h
    obtain ⟨⟨fields', left'⟩, hrest, h⟩ := bind_inv h
    cases h
    exact congrArg (e.1 :: ·) (ih hrest)

theorem next_eq_ok : c.next = .ok (fields, c') ↔ getStringMap c.values = .ok (fields, c'.values) ∧ c'.sent = c.sent ++ [fields] := by
  constructor
  · intro h
    obtain ⟨⟨fields, left⟩, hmap, h⟩ := bind_inv h
    cases h
    exact ⟨hmap, rfl⟩
  · rintro ⟨hmap, hsent⟩
    obtain ⟨left, sent⟩ := c'
    subst hsent
    rw [Attempts.next, bind_ok hmap]

/-- There is a next attempt if there are texts. -/
theorem next_of_texts (h : texts c.values = some fields) : ∃ c', c.next = .ok (fields, c') := by
  obtain ⟨left, hmap⟩ := texts_eq_some.mp h
  exact ⟨⟨left, c.sent ++ [fields]⟩, next_eq_ok.mpr ⟨hmap, rfl⟩⟩

theorem next_of_texts_none (h : texts c.values = none) : ∃ e, c.next = .error e := by
  cases hnext : c.next with
  | error e => exact ⟨e, rfl⟩
  | ok r =>
    rw [texts_eq_some.mpr ⟨r.2.values, (next_eq_ok.mp hnext).1⟩] at h
    cases h

/-- What the attempts of a call with these values have sent. -/
structure Follows (values : Entries) (c : Attempts) : Prop where
  /-- Before the first attempt nothing has been read. -/
  fresh : c.sent = [] → c.values = values
  /-- The iterators are ones that a program can have. -/
  wellMade : ∀ e ∈ c.values, e.2.WellMade
  /-- They have the names that they had. -/
  names : c.values.map Sigma.fst = values.map Sigma.fst
  /-- What has been sent has those names too. -/
  sentNames : ∀ fields ∈ c.sent, fields.map Prod.fst = values.map Sigma.fst
  /-- The first attempt sends what the iterators give. -/
  first : ∀ fields ∈ c.sent.head?, texts values = some fields
  /-- Any other sends that just if the values can be read again. -/
  later : ∀ fields ∈ c.sent.tail, texts values = some fields ↔ Rereadable values
  /-- So will the next one, and those after it. -/
  next : c.sent ≠ [] → Rereadable c.values ∧ ∃ fields, texts c.values = some fields ∧ (texts values = some fields ↔ Rereadable values)

theorem follows_start (h : ∀ e ∈ values, e.2.WellMade) : Follows values ⟨values, []⟩ where
  fresh _ := rfl
  wellMade := h
  names := rfl
  sentNames _ h := nomatch h
  first _ h := nomatch h
  later _ h := nomatch h
  next h := absurd rfl h

namespace Follows

/-- What is left after an attempt. -/
theorem after (hc : Follows values c) {left : Entries} (hmap : getStringMap c.values = .ok (fields, left)) :
    (∀ e ∈ left, e.2.WellMade) ∧ Rereadable left ∧
      ∃ fields', texts left = some fields' ∧ (fields' = fields ↔ Rereadable c.values) := by
  obtain ⟨hafter, fields', left', hagain, hsame⟩ := getStringMap_again hc.wellMade hmap
  exact ⟨fun e he => (hafter e he).1, fun e he => (hafter e he).2, fields', texts_eq_some.mpr ⟨left', hagain⟩, hsame⟩

/-- The step lemma: an attempt keeps it. -/
theorem step (hc : Follows values c) (h : c.next = .ok (fields, c')) : Follows values c' := by
  obtain ⟨hmap, hsent⟩ := next_eq_ok.mp h
  have hnames : c'.values.map Sigma.fst = values.map Sigma.fst := (names_getStringMap hmap).trans hc.names
  have hsentNames : ∀ f ∈ c'.sent, f.map Prod.fst = values.map Sigma.fst := by
    intro f hf
    rw [hsent, List.mem_append, List.mem_singleton] at hf
    rcases hf with hf | rfl
    · exact hc.sentNames f hf
    · exact (keys_getStringMap hmap).trans hc.names
  obtain ⟨hmade, hread, fields', htexts, hsame⟩ := hc.after hmap
  have hnow : texts c.values = some fields := texts_eq_some.mpr ⟨c'.values, hmap⟩
  have hne : c'.sent ≠ [] := by simp [hsent]
  cases hc' : c.sent with
  | nil =>
    -- the first attempt
    rw [hc', List.nil_append] at hsent
    have hvalues := hc.fresh hc'
    rw [hvalues] at hnow hsame
    refine ⟨fun hnil => absurd hnil hne, hmade, hnames, hsentNames, fun f hf => ?_, fun f hf => ?_, fun _ => ⟨hread, fields', htexts, ?_⟩⟩
    · rw [hsent, List.head?_cons, Option.mem_some_iff] at hf
      exact hf ▸ hnow
    · rw [hsent] at hf
      exact absurd hf List.not_mem_nil
    · rw [hnow, Option.some_inj, ← hsame, eq_comm]
  | cons first rest =>
    obtain ⟨hagain, fields₁, htexts₁, hiff⟩ := hc.next (by simp [hc'])
    obtain rfl : fields₁ = fields := Option.some.inj (htexts₁.symm.trans hnow)
    obtain rfl : fields' = fields₁ := hsame.mpr hagain
    refine ⟨fun hnil => absurd hnil hne, hmade, hnames, hsentNames, fun f hf => ?_, fun f hf => ?_, fun _ => ⟨hread, fields', htexts, hiff⟩⟩
    · rw [hsent, hc', List.cons_append, List.head?_cons] at hf
      exact hc.first f (by rw [hc', List.head?_cons]; exact hf)
    · rw [hsent, hc', List.cons_append, List.tail_cons, List.mem_append, List.mem_singleton] at hf
      rcases hf with hf | rfl
      · exact hc.later f (by rw [hc']; exact hf)
      · exact hiff

/-- There is always a next attempt, if the values can be read the first time. -/
theorem exists_next (hc : Follows values c) (h : c.sent = [] → ∃ fields, texts values = some fields) : ∃ fields c', c.next = .ok (fields, c') := by
  obtain ⟨fields, htexts⟩ : ∃ fields, texts c.values = some fields := by
    by_cases hnil : c.sent = []
    · rw [hc.fresh hnil]
      exact h hnil
    · obtain ⟨-, fields, htexts, -⟩ := hc.next hnil
      exact ⟨fields, htexts⟩
  obtain ⟨c', hnext⟩ := next_of_texts htexts
  exact ⟨fields, c', hnext⟩

/-- What the next attempt sends is what the iterators gave just if it is the first, or the values can be read again. -/
theorem next_iff (hc : Follows values c) (h : c.next = .ok (fields, c')) : texts values = some fields ↔ c.sent = [] ∨ Rereadable values := by
  have hsent := (next_eq_ok.mp h).2
  have hfirst := (hc.step h).first
  have hlater := (hc.step h).later
  rw [hsent] at hfirst hlater
  cases hc' : c.sent with
  | nil =>
    rw [hc'] at hfirst
    simp [hfirst fields rfl]
  | cons first rest =>
    rw [hc'] at hlater
    rw [hlater fields (by simp)]
    simp

/-- **All attempts send what the iterators gave** when the call was made just if there is one at most, or the values can be read again. -/
theorem sent_iff (hc : Follows values c) : (∀ fields ∈ c.sent, texts values = some fields) ↔ c.sent.length ≤ 1 ∨ Rereadable values := by
  have hfirst := hc.first
  have hlater := hc.later
  cases hsent : c.sent with
  | nil => simp
  | cons first rest =>
    rw [hsent] at hfirst hlater
    rw [List.forall_mem_cons, and_iff_right (hfirst first rfl), List.length_cons]
    cases rest with
    | nil => simp
    | cons second rest =>
      have hsecond := hlater second List.mem_cons_self
      constructor
      · intro h
        exact .inr (hsecond.mp (h second List.mem_cons_self))
      · rintro (hle | hread) f hf
        · rw [List.length_cons] at hle
          omega
        · exact (hlater f hf).mpr hread

end Follows

end YcsbIvs.Core
