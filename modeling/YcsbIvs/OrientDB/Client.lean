import YcsbIvs.Core.DB
import YcsbIvs.Core.Resends
import YcsbIvs.Foundations.Loops
import Mathlib.Data.Nat.Find

/-!
# The OrientDB binding: updating

`update` looks the document of the key up, sets its fields, saves it and returns. After an `OConcurrentModificationException` it starts again, and it
does so too if there is no document: nothing in the loop returns then.

A round of the loop is given what the driver does in it, and the dictionary that it finds; other clients may change that between the
rounds.

**`update` returns, with the document as it should be saved, just if a round ends the loop**, and one that returns OK is the first to have
read the values, or they can be read again (`updates_iff`).
-/

namespace YcsbIvs.OrientDB

open YcsbIvs.Foundations YcsbIvs.Core

/-- What a call of the driver comes to. -/
inductive Reply where
  /-- It returns. -/
  | done
  /-- `OConcurrentModificationException`. -/
  | concurrentModification
  /-- Another exception. -/
  | fails
  deriving DecidableEq

/-- The fields of a document. -/
abbrev Document := Utf16 → Option Utf16

/-- What the driver does in a round of the loop. -/
structure Round where
  /-- Acquiring the database, and looking up the key. -/
  opens : Reply
  /-- The documents of the dictionary, by key. -/
  dictionary : Utf16 → Option Document
  /-- `document.save()`. -/
  saves : Reply
  /-- Closing the database, at the end of the `try`. -/
  closes : Reply

/-- A call of `update`. -/
structure Call where
  /-- The iterators, and what they have given. -/
  attempts : Attempts
  /-- The document that was saved last. -/
  saved : Option Document

/-- The loop that sets the fields of a document. -/
def setFields (document : Document) : List (Utf16 × Utf16) → Document
  | [] => document
  | entry :: entries => setFields (Function.update document entry.1 (some entry.2)) entries

/-- The body of the loop in `update(table, key, values)`. -/
def updateBody (key : Utf16) (c : Call) (round : Round) : (Status × Call) ⊕ Call :=
  match round.opens with
  | .concurrentModification => .inr c
  | .fails => .inl (.error, c)
  | .done =>
    match round.dictionary key with
    | none =>
      -- the `try` ends, and the loop goes round
      match round.closes with
      | .done => .inr c
      | .concurrentModification => .inr c
      | .fails => .inl (.error, c)
    | some document =>
      match c.attempts.next with
      | .error _ => .inl (.error, c)
      | .ok (strings, attempts) =>
        match round.saves with
        | .concurrentModification => .inr ⟨attempts, c.saved⟩
        | .fails => .inl (.error, ⟨attempts, c.saved⟩)
        | .done =>
          -- an exception of `close` is caught as any other
          match round.closes with
          | .done => .inl (.ok, ⟨attempts, some (setFields document strings)⟩)
          | .concurrentModification => .inr ⟨attempts, some (setFields document strings)⟩
          | .fails => .inl (.error, ⟨attempts, some (setFields document strings)⟩)

/-- The call before the first round. -/
def start (values : Values Utf16) : Call := ⟨⟨values.entries, []⟩, none⟩

/-- `update` returns, not with OK if the key has no document; and if with OK, the document saved has in each field given what its iterator gave. -/
def Updates (key : Utf16) (values : Values Utf16) (rounds : ℕ → Round) : Prop :=
  ∃ status c, Ends (updateBody key) (start values) rounds (status, c) ∧ ((∀ n, (rounds n).dictionary key = none) → status ≠ .ok) ∧
    (status = .ok → ∃ document fields, c.saved = some document ∧ texts values.entries = some fields ∧
      ∀ entry ∈ fields, document entry.1 = some entry.2)

/-- From some round on there is no `OConcurrentModificationException`. -/
def FinitelyMany (rounds : ℕ → Round) : Prop :=
  ∃ N, ∀ n, N ≤ n → (rounds n).opens ≠ .concurrentModification ∧ (rounds n).saves ≠ .concurrentModification ∧
    (rounds n).closes ≠ .concurrentModification

/-- The round finds a document, and reads the values. -/
def Round.Reads (key : Utf16) (round : Round) : Prop := round.opens = .done ∧ (round.dictionary key).isSome

/-- The round does not end the loop: there is an `OConcurrentModificationException`, or no document and no exception. -/
def Round.Again (key : Utf16) (values : Values Utf16) (round : Round) : Prop :=
  round.opens = .concurrentModification ∨
    round.opens = .done ∧
      (round.dictionary key = none ∧ round.closes ≠ .fails ∨
        (round.dictionary key).isSome ∧ (texts values.entries).isSome ∧
          (round.saves = .concurrentModification ∨ round.saves = .done ∧ round.closes = .concurrentModification))

/-- The round saves the document, and no exception is thrown. -/
def Round.Succeeds (key : Utf16) (values : Values Utf16) (round : Round) : Prop :=
  round.Reads key ∧ (texts values.entries).isSome ∧ round.saves = .done ∧ round.closes = .done

/-- A round ends the loop, and if it returns OK no round before it has read the values, or they can be read again. -/
def Steady (key : Utf16) (values : Values Utf16) (rounds : ℕ → Round) : Prop :=
  ∃ n, ¬ (rounds n).Again key values ∧ (∀ m < n, (rounds m).Again key values) ∧
    ((rounds n).Succeeds key values → (∀ m < n, ¬ (rounds m).Reads key) ∨ Rereadable values.entries)

/-! ### Setting fields -/

section

variable {document : Document} {fields strings : List (Utf16 × Utf16)}

theorem setFields_of_notMem {f : Utf16} (hf : f ∉ fields.map Prod.fst) : setFields document fields f = document f := by
  induction fields generalizing document with
  | nil => rfl
  | cons entry entries ih =>
    rw [List.map_cons, List.mem_cons, not_or] at hf
    rw [setFields, ih hf.2, Function.update_of_ne hf.1]

theorem setFields_of_mem (hnd : (fields.map Prod.fst).Nodup) {entry : Utf16 × Utf16} (h : entry ∈ fields) :
    setFields document fields entry.1 = some entry.2 := by
  induction fields generalizing document with
  | nil => cases h
  | cons entry' entries ih =>
    obtain ⟨hnot, hnd⟩ := List.nodup_cons.mp hnd
    rcases List.mem_cons.mp h with rfl | h
    · rw [setFields, setFields_of_notMem hnot, Function.update_self]
    · exact ih hnd h

/-- A document has the texts of the names that were set just if they are those set. -/
theorem setFields_iff (hnames : strings.map Prod.fst = fields.map Prod.fst) (hnd : (fields.map Prod.fst).Nodup) :
    (∀ entry ∈ fields, setFields document strings entry.1 = some entry.2) ↔ strings = fields := by
  constructor
  · intro h
    have hlength : strings.length = fields.length := by simpa using congrArg List.length hnames
    refine List.ext_getElem hlength fun i hi hi' => ?_
    have hname : strings[i].1 = fields[i].1 := by
      have := List.getElem_of_eq hnames (by simpa using hi)
      simpa using this
    have hset : setFields document strings strings[i].1 = some strings[i].2 := setFields_of_mem (hnames ▸ hnd) (List.getElem_mem hi)
    have hgiven := h fields[i] (List.getElem_mem hi')
    rw [hname, hgiven] at hset
    exact Prod.ext hname (Option.some.inj hset).symm
  · rintro rfl entry hentry
    exact setFields_of_mem hnd hentry

end

/-! ### Rounds -/

variable {key : Utf16} {values : Values Utf16} {rounds : ℕ → Round} {round : Round} {c c' : Call}

/-- If the values can not be read they have not been. -/
theorem next_of_not_texts (hc : Follows values.entries c.attempts) (h : texts values.entries = none) : ∃ e, c.attempts.next = .error e := by
  have hfirst := hc.first
  have hnil : c.attempts.sent = [] := by
    cases hsent : c.attempts.sent with
    | nil => rfl
    | cons first rest =>
      rw [hsent] at hfirst
      cases h.symm.trans (hfirst first rfl)
  exact next_of_texts_none (by rw [hc.fresh hnil, h])

/-- **A round that does not end the loop** keeps what has been sent, and sends more just if it reads the values. -/
theorem updateBody_again (hc : Follows values.entries c.attempts) (h : round.Again key values) :
    ∃ c', updateBody key c round = .inr c' ∧ Follows values.entries c'.attempts ∧
      (c'.attempts.sent = [] ↔ c.attempts.sent = [] ∧ ¬ round.Reads key) := by
  rcases h with hopens | ⟨hopens, ⟨hnone, hcloses⟩ | ⟨hsome, htexts, hsaves⟩⟩
  · exact ⟨c, by rw [updateBody, hopens], hc, by simp [Round.Reads, hopens]⟩
  · refine ⟨c, ?_, hc, by simp [Round.Reads, hnone]⟩
    simp only [updateBody, hopens, hnone]
    cases hcl : round.closes with
    | done => rfl
    | concurrentModification => rfl
    | fails => exact absurd hcl hcloses
  · obtain ⟨document, hdocument⟩ := Option.isSome_iff_exists.mp hsome
    obtain ⟨strings, attempts, hnext⟩ := hc.exists_next fun _ => Option.isSome_iff_exists.mp htexts
    have hsent : attempts.sent = [] ↔ c.attempts.sent = [] ∧ ¬ round.Reads key := by
      rw [(next_eq_ok.mp hnext).2]
      simp [Round.Reads, hopens, hsome]
    rcases hsaves with hsaves | ⟨hsaves, hcloses⟩
    · exact ⟨⟨attempts, c.saved⟩, by simp only [updateBody, hopens, hdocument, hnext, hsaves], hc.step hnext, hsent⟩
    · exact ⟨⟨attempts, some (setFields document strings)⟩, by simp only [updateBody, hopens, hdocument, hnext, hsaves, hcloses],
        hc.step hnext, hsent⟩

/-- **A round that ends the loop** returns OK with the document saved, or ERROR. -/
theorem updateBody_ends (hc : Follows values.entries c.attempts) (h : ¬ round.Again key values) :
    (round.Succeeds key values ∧ ∃ document strings attempts, c.attempts.next = .ok (strings, attempts) ∧
        updateBody key c round = .inl (.ok, ⟨attempts, some (setFields document strings)⟩)) ∨
      ¬ round.Succeeds key values ∧ ∃ c', updateBody key c round = .inl (.error, c') := by
  rw [Round.Again, not_or, not_and] at h
  obtain ⟨hcme, h⟩ := h
  cases hopens : round.opens with
  | concurrentModification => exact absurd hopens hcme
  | fails => exact .inr ⟨by simp [Round.Succeeds, Round.Reads, hopens], c, by rw [updateBody, hopens]⟩
  | done =>
    have h := h hopens
    rw [not_or] at h
    cases hdocument : round.dictionary key with
    | none =>
      have hcloses : round.closes = .fails := by_contra fun hne => h.1 ⟨hdocument, hne⟩
      exact .inr ⟨by simp [Round.Succeeds, Round.Reads, hdocument], c, by simp only [updateBody, hopens, hdocument, hcloses]⟩
    | some document =>
      cases htexts : texts values.entries with
      | none =>
        obtain ⟨e, hnext⟩ := next_of_not_texts hc htexts
        exact .inr ⟨by simp [Round.Succeeds, htexts], c, by simp only [updateBody, hopens, hdocument, hnext]⟩
      | some fields =>
        obtain ⟨strings, attempts, hnext⟩ := hc.exists_next fun _ => ⟨fields, htexts⟩
        have hagain := fun hsaves => h.2 ⟨by simp [hdocument], by simp [htexts], hsaves⟩
        cases hsaves : round.saves with
        | concurrentModification => exact absurd (.inl hsaves) hagain
        | fails => exact .inr ⟨by simp [Round.Succeeds, hsaves], _, by simp only [updateBody, hopens, hdocument, hnext, hsaves]; rfl⟩
        | done =>
          cases hcloses : round.closes with
          | concurrentModification => exact absurd (.inr ⟨hsaves, hcloses⟩) hagain
          | fails =>
            exact .inr ⟨by simp [Round.Succeeds, hcloses], _, by simp only [updateBody, hopens, hdocument, hnext, hsaves, hcloses]; rfl⟩
          | done =>
            exact .inl ⟨⟨⟨hopens, by simp [hdocument]⟩, by simp [htexts], hsaves, hcloses⟩, document, strings, attempts, hnext,
              by simp only [updateBody, hopens, hdocument, hnext, hsaves, hcloses]⟩

theorem follows_of_again (hc : Follows values.entries c.attempts) (h : updateBody key c round = .inr c') : Follows values.entries c'.attempts := by
  by_cases hagain : round.Again key values
  · obtain ⟨c'', hbody, hc'', -⟩ := updateBody_again hc hagain
    rwa [← Sum.inr.inj (hbody.symm.trans h)]
  · rcases updateBody_ends hc hagain with ⟨-, document, strings, attempts, -, hbody⟩ | ⟨-, c'', hbody⟩ <;> cases hbody.symm.trans h

theorem goes_again_iff (hc : Follows values.entries c.attempts) : (∃ c', updateBody key c round = .inr c') ↔ round.Again key values := by
  refine ⟨fun ⟨c', h⟩ => ?_, fun h => ?_⟩
  · by_contra hagain
    rcases updateBody_ends hc hagain with ⟨-, document, strings, attempts, -, hbody⟩ | ⟨-, c'', hbody⟩ <;> cases hbody.symm.trans h
  · obtain ⟨c', hbody, -⟩ := updateBody_again hc h
    exact ⟨c', hbody⟩

/-- Rounds that do not end the loop have sent something just if one of them has read the values. -/
theorem loop_rounds (hc : Follows values.entries c.attempts) {done : List Round} (h : ∀ round ∈ done, round.Again key values) :
    ∃ c', loop (updateBody key) c done = .inr c' ∧ Follows values.entries c'.attempts ∧
      (c'.attempts.sent = [] ↔ c.attempts.sent = [] ∧ ∀ round ∈ done, ¬ round.Reads key) := by
  induction done generalizing c with
  | nil => exact ⟨c, rfl, hc, by simp⟩
  | cons round done ih =>
    obtain ⟨hround, hdone⟩ := List.forall_mem_cons.mp h
    obtain ⟨c₁, hbody, hc₁, hsent₁⟩ := updateBody_again hc hround
    obtain ⟨c', hloop, hc', hsent⟩ := ih hc₁ hdone
    exact ⟨c', (loop_cons_again hbody done).trans hloop, hc', by rw [hsent, hsent₁, and_assoc, List.forall_mem_cons]⟩

/-! ### The call -/

/-- The state in which a round starts. -/
theorem before_round (hmade : ∀ e ∈ values.entries, e.2.WellMade) {n : ℕ} (h : ∀ m < n, (rounds m).Again key values) :
    ∃ before, loop (updateBody key) (start values) (firstRounds rounds n) = .inr before ∧ Follows values.entries before.attempts ∧
      (before.attempts.sent = [] ↔ ∀ m < n, ¬ (rounds m).Reads key) := by
  obtain ⟨before, hloop, hbefore, hsent⟩ := loop_rounds (c := start values) (follows_start hmade) (forall_mem_firstRounds.mpr h)
  exact ⟨before, hloop, hbefore, by rw [hsent, forall_mem_firstRounds]; exact and_iff_right rfl⟩

/-- **`update` returns, with the document as it should be saved**, just if a round ends the loop, and returns OK only if no round before
it has read the values or they can be read again. -/
theorem updates_iff (hmade : ∀ e ∈ values.entries, e.2.WellMade) (key : Utf16) (rounds : ℕ → Round) :
    Updates key values rounds ↔ Steady key values rounds := by
  constructor
  · rintro ⟨status, c, hends, -, hok⟩
    obtain ⟨n, before, hloop, hlast⟩ := ends_iff.mp hends
    have hall : ∀ m < n, (rounds m).Again key values := forall_mem_firstRounds.mp
      ((loop_again_iff (I := fun c => Follows values.entries c.attempts) (fun _ _ _ => follows_of_again) (fun _ _ => goes_again_iff)
        (follows_start hmade)).mp ⟨before, hloop⟩)
    obtain ⟨before', hloop', hbefore, hsent⟩ := before_round hmade hall
    obtain rfl : before' = before := Sum.inr.inj (hloop'.symm.trans hloop)
    have hnot : ¬ (rounds n).Again key values := fun hagain => by
      obtain ⟨c', hbody⟩ := (goes_again_iff hbefore).mpr hagain
      cases hbody.symm.trans hlast
    refine ⟨n, hnot, hall, fun hsucceeds => ?_⟩
    rcases updateBody_ends hbefore hnot with ⟨-, document, strings, attempts, hnext, hbody⟩ | ⟨hno, -⟩
    · cases hlast.symm.trans hbody
      obtain ⟨document', fields, hsaved, htexts, hset⟩ := hok rfl
      obtain rfl : setFields document strings = document' := Option.some.inj hsaved
      obtain ⟨left, hmap⟩ := texts_eq_some.mp htexts
      have hfields : fields.map Prod.fst = values.entries.map Sigma.fst := keys_getStringMap hmap
      have hstrings : strings.map Prod.fst = values.entries.map Sigma.fst :=
        (hbefore.step hnext).sentNames strings (by simp [(next_eq_ok.mp hnext).2])
      obtain rfl : strings = fields := (setFields_iff (hstrings.trans hfields.symm) (hfields ▸ values.nodupKeys)).mp hset
      rw [← hsent]
      exact (hbefore.next_iff hnext).mp htexts
    · exact absurd hsucceeds hno
  · rintro ⟨n, hnot, hall, hsteady⟩
    obtain ⟨before, hloop, hbefore, hsent⟩ := before_round hmade hall
    rcases updateBody_ends hbefore hnot with ⟨hsucceeds, document, strings, attempts, hnext, hbody⟩ | ⟨-, c, hbody⟩
    · refine ⟨.ok, _, ends_iff.mpr ⟨n, before, hloop, hbody⟩, fun hnone => ?_, fun _ => ?_⟩
      · have hsome := hsucceeds.1.2
        rw [hnone n] at hsome
        cases hsome
      · have htexts := (hbefore.next_iff hnext).mpr (by rw [hsent]; exact hsteady hsucceeds)
        obtain ⟨left, hmap⟩ := texts_eq_some.mp htexts
        have hnd : (strings.map Prod.fst).Nodup := (keys_getStringMap hmap).symm ▸ values.nodupKeys
        exact ⟨_, strings, rfl, htexts, fun entry hentry => setFields_of_mem hnd hentry⟩
    · exact ⟨.error, c, ends_iff.mpr ⟨n, before, hloop, hbody⟩, fun _ h => (nomatch h), fun h => (nomatch h)⟩

/-- A string, saved after an `OConcurrentModificationException` of the first round. -/
theorem updates_iff_again :
    Updates [0x6B] (AList.singleton [0x66] (.string (.ofString [0x61])))
      fun n => ⟨.done, fun _ => some fun _ => none, if n = 0 then .concurrentModification else .done, .done⟩ := by
  have hentries : ∀ e ∈ (AList.singleton [0x66] (.string (.ofString [0x61])) : Values Utf16).entries,
      e = ⟨[0x66], .string (.ofString [0x61])⟩ := fun e he => by
    rwa [AList.singleton_entries, List.mem_singleton] at he
  refine (updates_iff (fun e he => ?_) [0x6B] _).mpr ⟨1, ?_, fun m hm => ?_, fun _ => .inr fun e he => ?_⟩
  · rw [hentries e he]
    exact Nat.zero_le _
  · simp [Round.Again]
  · obtain rfl : m = 0 := by omega
    exact .inr ⟨rfl, .inr ⟨rfl, by decide +kernel, .inl rfl⟩⟩
  · rw [hentries e he]
    exact .inl rfl

/-- `update` does not return for a key that has no document. -/
theorem not_updates :
    ¬ ∀ (key : Utf16) (values : Values Utf16) (rounds : ℕ → Round), (∀ e ∈ values.entries, e.2.WellMade) → FinitelyMany rounds →
      Updates key values rounds := by
  intro h
  obtain ⟨status, c, hends, -⟩ := h [0x6B] (AList.singleton [0x66] (.string (.ofString [0x61]))) (fun _ => ⟨.done, fun _ => none, .done, .done⟩)
    (fun e he => by
      rw [AList.singleton_entries, List.mem_singleton] at he
      rw [he]
      exact Nat.zero_le _)
    ⟨0, fun _ _ => ⟨nofun, nofun, nofun⟩⟩
  obtain ⟨n, before, -, hlast⟩ := ends_iff.mp hends
  cases hlast

/-- For a key that has one it does, after finitely many `OConcurrentModificationException`s. -/
theorem ends_of_document (hmade : ∀ e ∈ values.entries, e.2.WellMade) (hfinite : FinitelyMany rounds)
    (hdocument : ∀ n, ((rounds n).dictionary key).isSome) : ∃ r, Ends (updateBody key) (start values) rounds r := by
  obtain ⟨N, hN⟩ := hfinite
  have hends : ∃ n, ¬ (rounds n).Again key values := by
    obtain ⟨hopens, hsaves, hcloses⟩ := hN N (le_refl N)
    refine ⟨N, fun h => ?_⟩
    rcases h with h | ⟨-, ⟨h, -⟩ | ⟨-, -, h | ⟨-, h⟩⟩⟩
    · exact hopens h
    · have hsome := hdocument N
      rw [h] at hsome
      cases hsome
    · exact hsaves h
    · exact hcloses h
  classical
  obtain ⟨before, hloop, hbefore, -⟩ := before_round hmade (n := Nat.find hends) fun m hm => not_not.mp (Nat.find_min hends hm)
  rcases updateBody_ends hbefore (Nat.find_spec hends) with ⟨-, document, strings, attempts, -, hbody⟩ | ⟨-, c, hbody⟩
  · exact ⟨_, ends_iff.mpr ⟨_, before, hloop, hbody⟩⟩
  · exact ⟨_, ends_iff.mpr ⟨_, before, hloop, hbody⟩⟩

end YcsbIvs.OrientDB
