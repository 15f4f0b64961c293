import Mathlib.Data.List.DropRight
import Mathlib.Data.List.Infix
import Mathlib.Tactic.SplitIfs

/-!
# Splitting at a delimiter

`split` cuts a list at each occurrence of a delimiter, from the left on, and leaves out empty parts at the end. It is
`String.split` for a delimiter that is not empty and has no meaning as a regular expression.

Two lists that were joined by the delimiter come apart again (`split_pair`) if it does not begin before the end of the first (`Closes`),
nor occur in the second. A delimiter of other elements does neither (`closes_of_apart`, `not_infix_of_apart`).

A delimiter of one element leaves nothing of a list of delimiters alone (`split_eq_nil_iff`), and words with it between them come apart again (`split_joined`).

Of a text made of words before marks, separated, a word with its mark occurs where that word is written, or one that ends with it (`infix_of_append_marked`).
-/

namespace YcsbIvs.Foundations

variable {α : Type} [DecidableEq α] {d s t u : List α}

/-- `d` occurs in `s`. -/
def occurs (d s : List α) : Bool := s.tails.any fun rest => d.isPrefixOf rest

/-- The parts of a list, after the beginning `part` of the first. The next `skip` elements belong to a delimiter. -/
def partsLoop (d : List α) : ℕ → List α → List α → List (List α)
  | _, part, [] => [part]
  | skip + 1, part, _ :: s => partsLoop d skip part s
  | 0, part, c :: s =>
    if d.isPrefixOf (c :: s) then part :: partsLoop d (d.length - 1) [] s else partsLoop d 0 (part ++ [c]) s

/-- `s.split(d)`. -/
def split (d s : List α) : List (List α) :=
  match partsLoop d 0 [] s with
  | [part] => [part]
  | parts => parts.rdropWhile List.isEmpty

/-- Before the end of `s` no delimiter begins, if one comes after `s`. -/
def Closes (d s : List α) : Prop := ∀ rest, rest <:+ s → d <+: rest ++ d → rest = []

theorem occurs_iff : occurs d s = true ↔ d <:+: s := by
  rw [occurs, List.any_eq_true, List.infix_iff_prefix_suffix]
  constructor
  · rintro ⟨rest, hrest, hd⟩
    exact ⟨rest, List.isPrefixOf_iff_prefix.mp hd, (List.mem_tails _ _).mp hrest⟩
  · rintro ⟨rest, hd, hrest⟩
    exact ⟨rest, (List.mem_tails _ _).mpr hrest, List.isPrefixOf_iff_prefix.mpr hd⟩

/-! ### Delimiters that are apart -/

omit [DecidableEq α] in
theorem closes_of_apart (hne : d ≠ []) (h : ∀ a ∈ s, a ∉ d) : Closes d s := by
  obtain ⟨b, d', rfl⟩ := List.exists_cons_of_ne_nil hne
  intro rest hrest hd
  cases rest with
  | nil => rfl
  | cons a rest =>
    have heq : b = a := (List.cons_prefix_cons.mp hd).1
    exact absurd (heq ▸ List.mem_cons_self) (h a (hrest.mem List.mem_cons_self))

omit [DecidableEq α] in
theorem not_infix_of_apart (hne : d ≠ []) (h : ∀ a ∈ s, a ∉ d) : ¬ d <:+: s := by
  obtain ⟨b, d', rfl⟩ := List.exists_cons_of_ne_nil hne
  exact fun hd => h b (hd.mem List.mem_cons_self) List.mem_cons_self

omit [DecidableEq α] in
/-- What occurs after elements that it does not have occurs without them. -/
theorem infix_of_append_left (hne : d ≠ []) (h : ∀ a ∈ u, a ∉ d) (hd : d <:+: u ++ s) : d <:+: s := by
  induction u with
  | nil => exact hd
  | cons a u ih =>
    rcases List.infix_cons_iff.mp hd with hbegins | hinfix
    · obtain ⟨b, d', rfl⟩ := List.exists_cons_of_ne_nil hne
      have heq : b = a := (List.cons_prefix_cons.mp hbegins).1
      exact absurd (heq ▸ List.mem_cons_self) (h a List.mem_cons_self)
    · exact ih (fun b hb => h b (List.mem_cons_of_mem a hb)) hinfix

omit [DecidableEq α] in
theorem infix_of_append_right (hne : d ≠ []) (h : ∀ a ∈ u, a ∉ d) (hd : d <:+: s ++ u) : d <:+: s := by
  rw [← List.reverse_infix, List.reverse_append] at hd
  rw [← List.reverse_infix]
  refine infix_of_append_left (u := u.reverse) (mt List.reverse_eq_nil_iff.mp hne) (fun a ha hmem => ?_) hd
  exact h a (List.mem_reverse.mp ha) (List.mem_reverse.mp hmem)

/-! ### Parts -/

theorem partsLoop_skip {n : ℕ} (hn : u.length = n) (part s : List α) : partsLoop d n part (u ++ s) = partsLoop d 0 part s := by
  induction n generalizing u with
  | zero => rw [List.length_eq_zero_iff.mp hn, List.nil_append]
  | succ n ih =>
    obtain ⟨a, u', rfl⟩ := List.exists_cons_of_length_eq_add_one hn
    rw [List.cons_append, partsLoop]
    exact ih (Nat.succ.inj hn)

/-- A part ends where the delimiter comes for the first time. -/
theorem partsLoop_closes (hne : d ≠ []) (h : Closes d s) (part t : List α) :
    partsLoop d 0 part (s ++ d ++ t) = (part ++ s) :: partsLoop d 0 [] t := by
  induction s generalizing part with
  | nil =>
    obtain ⟨a, d', rfl⟩ := List.exists_cons_of_ne_nil hne
    have hbegins : (a :: d').isPrefixOf (a :: (d' ++ t)) = true := List.isPrefixOf_iff_prefix.mpr ⟨t, rfl⟩
    rw [List.nil_append, List.cons_append, partsLoop, if_pos hbegins, List.append_nil]
    exact congrArg _ (partsLoop_skip rfl [] t)
  | cons a s ih =>
    have hbegins : ¬ d.isPrefixOf (a :: (s ++ d ++ t)) = true := by
      rw [List.isPrefixOf_iff_prefix, ← List.cons_append, ← List.cons_append]
      intro hd
      have hshort : d <+: a :: s ++ d := List.prefix_of_prefix_length_le hd (List.prefix_append _ t) (by simp; omega)
      exact List.cons_ne_nil a s (h _ List.suffix_rfl hshort)
    rw [List.cons_append, List.cons_append, partsLoop, if_neg hbegins, ih fun rest hrest => h rest (hrest.trans (List.suffix_cons a s))]
    simp

/-- Where there is no delimiter there is one part. -/
theorem partsLoop_absent (h : ¬ d <:+: s) (part : List α) : partsLoop d 0 part s = [part ++ s] := by
  induction s generalizing part with
  | nil => rw [partsLoop, List.append_nil]
  | cons a s ih =>
    have hbegins : ¬ d.isPrefixOf (a :: s) = true := fun hd => h (List.isPrefixOf_iff_prefix.mp hd).isInfix
    rw [partsLoop, if_neg hbegins, ih fun hd => h (hd.trans (List.suffix_cons a s).isInfix)]
    simp

/-- **Two lists joined by a delimiter come apart again**. -/
theorem split_pair (hne : d ≠ []) (hs : Closes d s) (ht : ¬ d <:+: t) (htne : t ≠ []) : split d (s ++ d ++ t) = [s, t] := by
  rw [split, partsLoop_closes hne hs, partsLoop_absent ht, List.nil_append, List.nil_append]
  exact List.rdropWhile_eq_self_iff.mpr fun _ => by simpa using htne

/-- So do three. -/
theorem split_triple (hne : d ≠ []) (hs : Closes d s) (ht : Closes d t) (hu : ¬ d <:+: u) (hune : u ≠ []) :
    split d (s ++ d ++ (t ++ d ++ u)) = [s, t, u] := by
  rw [split, partsLoop_closes hne hs, partsLoop_closes hne ht, partsLoop_absent hu]
  simp only [List.nil_append]
  exact List.rdropWhile_eq_self_iff.mpr fun _ => by simpa using hune

-- A part that is empty is left out at the end only.
example : split [0] [0, 1, 0, 0, 2, 0, 0] = [[], [1], [], [2]] := by decide

/-! ### One element between the parts -/

section

variable {c : α}

/-- Words with one element between them. -/
def joined (c : α) : List (List α) → List α
  | [] => []
  | [word] => word
  | word :: word' :: words => word ++ c :: joined c (word' :: words)

theorem partsLoop_cons (part : List α) (a : α) (s : List α) :
    partsLoop [c] 0 part (a :: s) = if a = c then part :: partsLoop [c] 0 [] s else partsLoop [c] 0 (part ++ [a]) s := by
  have hbegins : ([c].isPrefixOf (a :: s) = true) = (a = c) := by
    rw [List.isPrefixOf_iff_prefix, List.cons_prefix_cons, eq_comm (a := c)]
    simp
  rw [partsLoop]
  simp only [hbegins]
  rfl

/-- There is a part. -/
theorem partsLoop_ne_nil (part s : List α) : partsLoop [c] 0 part s ≠ [] := by
  induction s generalizing part with
  | nil => simp [partsLoop]
  | cons a s ih =>
    rw [partsLoop_cons]
    split_ifs
    · exact List.cons_ne_nil _ _
    · exact ih _

/-- All parts are empty. -/
theorem parts_isEmpty_iff (part s : List α) : (∀ p ∈ partsLoop [c] 0 part s, p = []) ↔ part = [] ∧ ∀ a ∈ s, a = c := by
  induction s generalizing part with
  | nil => simp [partsLoop]
  | cons a s ih =>
    rw [partsLoop_cons]
    split_ifs with h
    · rw [List.forall_mem_cons, ih, List.forall_mem_cons]
      simp [h]
    · rw [ih, List.forall_mem_cons]
      simp [h]

/-- Nothing to cut. -/
theorem split_absent (h : c ∉ s) : split [c] s = [s] := by
  have hone : ¬ [c] <:+: s := not_infix_of_apart (List.cons_ne_nil c []) fun a ha hmem => h (List.mem_singleton.mp hmem ▸ ha)
  rw [split, partsLoop_absent hone, List.nil_append]

/-- The first cut. -/
theorem split_cut (h : c ∉ s) (t : List α) : split [c] (s ++ c :: t) = (s :: partsLoop [c] 0 [] t).rdropWhile List.isEmpty := by
  have hcloses : Closes [c] s := closes_of_apart (List.cons_ne_nil c []) fun a ha hmem => h (List.mem_singleton.mp hmem ▸ ha)
  have hparts := partsLoop_closes (List.cons_ne_nil c []) hcloses [] t
  rw [List.nil_append, List.append_assoc, List.singleton_append] at hparts
  obtain ⟨part, parts, hrest⟩ := List.exists_cons_of_ne_nil (partsLoop_ne_nil (c := c) [] t)
  rw [split, hparts, hrest]

/-- Nothing is left of delimiters alone. -/
theorem split_eq_nil_iff : split [c] s = [] ↔ s ≠ [] ∧ ∀ a ∈ s, a = c := by
  by_cases hc : c ∈ s
  · obtain ⟨pre, post, rfl, hpre⟩ := List.eq_append_cons_of_mem hc
    rw [split_cut hpre, List.rdropWhile_eq_nil_iff]
    simp only [List.isEmpty_iff]
    rw [List.forall_mem_cons, parts_isEmpty_iff, List.forall_mem_append, List.forall_mem_cons]
    refine ⟨fun ⟨hnil, _, hall⟩ => ⟨by simp, by simp [hnil], rfl, hall⟩, fun ⟨_, hall, _, hrest⟩ => ⟨?_, rfl, hrest⟩⟩
    exact List.eq_nil_iff_forall_not_mem.mpr fun a ha => hpre (hall a ha ▸ ha)
  · rw [split_absent hc]
    refine iff_of_false (List.cons_ne_nil s []) fun ⟨hne, hall⟩ => ?_
    obtain ⟨a, s, rfl⟩ := List.exists_cons_of_ne_nil hne
    exact hc (hall a List.mem_cons_self ▸ List.mem_cons_self)

omit [DecidableEq α] in
/-- More than the first is left if one of the others is not empty. -/
theorem one_lt_length_rdropWhile_iff (part : List α) (parts : List (List α)) :
    1 < ((part :: parts).rdropWhile List.isEmpty).length ↔ ∃ p ∈ parts, p ≠ [] := by
  induction parts using List.reverseRecOn with
  | nil =>
    refine iff_of_false (not_lt.mpr ?_) (by simp)
    exact (List.rdropWhile_prefix List.isEmpty [part]).length_le
  | append_singleton parts p ih =>
    rw [← List.cons_append, List.rdropWhile_concat]
    split_ifs with hp
    · rw [ih]
      simp [List.isEmpty_iff.mp hp]
    · refine iff_of_true (by simp) ⟨p, by simp, fun hnil => hp (hnil ▸ rfl)⟩

/-- **There is a second part** if there is something else after the first delimiter. -/
theorem one_lt_length_split_iff : 1 < (split [c] s).length ↔ ∃ pre post, s = pre ++ c :: post ∧ c ∉ pre ∧ ∃ a ∈ post, a ≠ c := by
  have hparts : ∀ post, (∃ p ∈ partsLoop [c] 0 [] post, p ≠ []) ↔ ∃ a ∈ post, a ≠ c := fun post => by
    have h := not_congr (parts_isEmpty_iff (c := c) [] post)
    push Not at h
    rw [h]
    simp
  constructor
  · intro h
    by_cases hc : c ∈ s
    · obtain ⟨pre, post, rfl, hpre⟩ := List.eq_append_cons_of_mem hc
      rw [split_cut hpre, one_lt_length_rdropWhile_iff, hparts] at h
      exact ⟨pre, post, rfl, hpre, h⟩
    · rw [split_absent hc] at h
      exact absurd h (lt_irrefl 1)
  · rintro ⟨pre, post, rfl, hpre, h⟩
    rwa [split_cut hpre, one_lt_length_rdropWhile_iff, hparts]

theorem partsLoop_joined {words : List (List α)} (hwords : ∀ word ∈ words, c ∉ word) (hne : words ≠ []) : partsLoop [c] 0 [] (joined c words) = words := by
  induction words with
  | nil => exact absurd rfl hne
  | cons word words ih =>
    obtain ⟨hword, hrest⟩ := List.forall_mem_cons.mp hwords
    have hapart : ∀ a ∈ word, a ∉ [c] := fun a ha hmem => hword (List.mem_singleton.mp hmem ▸ ha)
    cases words with
    | nil => exact partsLoop_absent (not_infix_of_apart (List.cons_ne_nil c []) hapart) []
    | cons word' words =>
      have hfirst := partsLoop_closes (List.cons_ne_nil c []) (closes_of_apart (List.cons_ne_nil c []) hapart) [] (joined c (word' :: words))
      rw [List.append_assoc, List.singleton_append] at hfirst
      rw [joined, hfirst, ih hrest (List.cons_ne_nil _ _), List.nil_append]

/-- **Words that were joined come apart again**, if the last is not empty. -/
theorem split_joined {words : List (List α)} (hwords : ∀ word ∈ words, c ∉ word) (hlast : ∀ word ∈ words.getLast?, word ≠ []) (hne : words ≠ []) :
    split [c] (joined c words) = words := by
  rw [split, partsLoop_joined hwords hne]
  cases words with
  | nil => exact absurd rfl hne
  | cons word words =>
    cases words with
    | nil => rfl
    | cons word' words =>
      refine List.rdropWhile_eq_self_iff.mpr fun _ => ?_
      rw [List.isEmpty_iff]
      exact hlast _ (List.getLast?_eq_getLast_of_ne_nil _)

end

/-! ### Words before a mark -/

omit [DecidableEq α] in
/-- Two lists that end before the same delimiter are the same if what they begin is. -/
theorem append_inj_of_apart {c : α} (hs : c ∉ s) (ht : c ∉ t) {u v : List α} (hu : ∀ a ∈ u.head?, a = c) (hv : ∀ a ∈ v.head?, a = c)
    (h : s ++ u = t ++ v) : s = t ∧ u = v := by
  induction s generalizing t with
  | nil =>
    cases t with
    | nil => exact ⟨rfl, h⟩
    | cons a t =>
      rw [List.nil_append] at h
      subst h
      exact absurd (hu a rfl ▸ List.mem_cons_self) ht
  | cons a s ih =>
    cases t with
    | nil =>
      rw [List.nil_append] at h
      subst h
      exact absurd (hv a rfl ▸ List.mem_cons_self) hs
    | cons b t =>
      obtain ⟨rfl, hrest⟩ := List.cons.inj h
      obtain ⟨rfl, huv⟩ := ih (fun hmem => hs (List.mem_cons_of_mem _ hmem)) (fun hmem => ht (List.mem_cons_of_mem _ hmem)) hrest
      exact ⟨rfl, huv⟩

omit [DecidableEq α] in
/-- An element that is not in the lists before it tells where they end. -/
theorem eq_of_append_cons {a : α} (hs : a ∉ s) (ht : a ∉ t) {rest rest' : List α} (h : s ++ a :: rest = t ++ a :: rest') : s = t ∧ rest = rest' := by
  obtain ⟨hst, hrest⟩ := append_inj_of_apart hs ht (by simp) (by simp) h
  exact ⟨hst, (List.cons.inj hrest).2⟩

omit [DecidableEq α] in
/-- **A word before a mark does not come in with another word before it**, after a separator, unless the other ends with it. -/
theorem infix_of_append_marked {word other value : List α} {mark sep : α} (hsep : sep ∉ word) (hmark : mark ∉ sep :: other) (hvalue : mark ∉ value)
    (hother : ¬ word <:+ other) (h : word ++ [mark] <:+: t ++ (sep :: other ++ mark :: value)) : word ++ [mark] <:+: t := by
  obtain ⟨before, after, heq⟩ := h
  obtain ⟨c, ht, -⟩ | ⟨c, hwhole, hc⟩ := List.append_eq_append_iff.mp heq
  · exact ⟨before, c, ht.symm⟩
  · obtain rfl | ⟨x, b, rfl⟩ := List.eq_nil_or_concat c
    · exact ⟨before, [], by rw [List.append_nil, hwhole, List.append_nil]⟩
    · -- the word ends at the mark of the other, the only one there
      rw [List.concat_eq_append, ← List.append_assoc, ← List.append_assoc] at hwhole
      obtain ⟨hstart, hb⟩ := List.append_inj' hwhole rfl
      obtain rfl := (List.cons.inj hb).1
      rw [List.concat_eq_append, List.append_assoc, List.singleton_append] at hc
      obtain ⟨rfl, -, -⟩ := (List.append_cons_inj_of_notMem hmark hvalue).mp hc
      have hword : word <:+ t ++ sep :: other := ⟨before, hstart⟩
      obtain hshort | hlong := List.suffix_or_suffix_of_suffix hword (List.suffix_append t (sep :: other))
      · obtain rfl | hends := List.suffix_cons_iff.mp hshort
        · exact absurd List.mem_cons_self hsep
        · exact absurd hends hother
      · exact absurd (hlong.mem List.mem_cons_self) hsep

end YcsbIvs.Foundations
