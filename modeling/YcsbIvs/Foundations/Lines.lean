import YcsbIvs.Foundations.Utf

/-!
# Text files of lines

A writer puts a line feed after each line. A reader ends a line at a line feed, at a carriage
return, or at both one after the other; what is left at the end is a line if it is not empty.

Lines that have no line break are read as they were written (`readLines_unlines`). What is read has
no line break, and is well formed if the text is (`readLines_hasNoBreak`, `readLines_wellFormed`).
-/

namespace YcsbIvs.Foundations

/-- `\n`. -/
def lineFeed : UInt16 := 0x0A

/-- `\r`. -/
def carriageReturn : UInt16 := 0x0D

/-- The string has no line break. -/
def HasNoBreak (s : Utf16) : Prop := ∀ c ∈ s, c ≠ lineFeed ∧ c ≠ carriageReturn

instance (s : Utf16) : Decidable (HasNoBreak s) :=
  decidable_of_iff (s.all (fun c => c != lineFeed && c != carriageReturn) = true) (by simp [HasNoBreak])

/-- The text of some lines. -/
def unlines : List Utf16 → Utf16
  | [] => []
  | line :: lines => line ++ lineFeed :: unlines lines

/-- The lines of a text, after the beginning `line` of the first. A line feed is skipped if the character
before it was a carriage return that has ended a line. -/
def readLines (skipLF : Bool) (line : Utf16) : Utf16 → List Utf16
  | [] => if line = [] then [] else [line]
  | c :: text =>
    if c = lineFeed then if skipLF then readLines false line text else line :: readLines false [] text
    else if c = carriageReturn then line :: readLines true [] text
    else readLines false (line ++ [c]) text

theorem readLines_append {s : Utf16} (h : HasNoBreak s) (line text : Utf16) :
    readLines false line (s ++ lineFeed :: text) = (line ++ s) :: readLines false [] text := by
  induction s generalizing line with
  | nil => simp [readLines]
  | cons c s ih =>
    obtain ⟨hlf, hcr⟩ := h c List.mem_cons_self
    rw [List.cons_append, readLines, if_neg hlf, if_neg hcr, ih fun d hd => h d (List.mem_cons_of_mem _ hd)]
    simp

/-- **Lines without line breaks are read as they were written**. -/
theorem readLines_unlines {lines : List Utf16} (h : ∀ s ∈ lines, HasNoBreak s) : readLines false [] (unlines lines) = lines := by
  induction lines with
  | nil => rfl
  | cons s lines ih =>
    rw [unlines, readLines_append (h s List.mem_cons_self), ih fun t ht => h t (List.mem_cons_of_mem _ ht)]
    rfl

/-- What is read has no line break. -/
theorem readLines_hasNoBreak {skipLF : Bool} {line text : Utf16} (hline : HasNoBreak line) {s : Utf16}
    (hs : s ∈ readLines skipLF line text) : HasNoBreak s := by
  have hnil : HasNoBreak [] := fun c hc => nomatch hc
  induction text generalizing skipLF line with
  | nil =>
    rw [readLines] at hs
    split_ifs at hs with hempty
    · cases hs
    · rw [List.mem_singleton.mp hs]
      exact hline
  | cons c text ih =>
    rw [readLines] at hs
    split_ifs at hs with hlf hskip hcr
    · exact ih hline hs
    · rcases List.mem_cons.mp hs with rfl | hs
      · exact hline
      · exact ih hnil hs
    · rcases List.mem_cons.mp hs with rfl | hs
      · exact hline
      · exact ih hnil hs
    · refine ih (fun d hd => ?_) hs
      rcases List.mem_append.mp hd with hd | hd
      · exact hline d hd
      · rw [List.mem_singleton.mp hd]
        exact ⟨hlf, hcr⟩

/-- A string is well formed if and only if it is so on both sides of a character that is not a surrogate. -/
theorem wellFormed_cut {c : UInt16} (hh : isHighSurrogate c = false) (hl : isLowSurrogate c = false) (s t : Utf16) :
    WellFormed (s ++ c :: t) = (WellFormed s && WellFormed t) := by
  induction s using WellFormed.induct with
  | case1 => cases t <;> simp [WellFormed, hh, hl]
  | case2 u => cases t <;> simp [WellFormed, hh, hl]
  | case3 u v s h ih =>
    rw [List.cons_append, List.cons_append, WellFormed, if_pos h, WellFormed, if_pos h, ih]
  | case4 u v s h ih =>
    rw [List.cons_append, List.cons_append, WellFormed, if_neg h, WellFormed, if_neg h, ← List.cons_append, ih]
    simp only [Bool.and_assoc]

theorem wellFormed_concat {s t : Utf16} (hs : WellFormed s = true) (ht : WellFormed t = true) :
    WellFormed (s ++ t) = true := by
  induction s using WellFormed.induct with
  | case1 => exact ht
  | case2 u =>
    simp only [WellFormed, Bool.and_eq_true, Bool.not_eq_true'] at hs
    exact wellFormed_append (.inl ⟨u, rfl, hs⟩) ht
  | case3 u v s h ih =>
    rw [WellFormed, if_pos h] at hs
    rw [List.cons_append, List.cons_append, WellFormed, if_pos h]
    exact ih hs
  | case4 u v s h ih =>
    rw [WellFormed, if_neg h, Bool.and_eq_true] at hs
    rw [List.cons_append, List.cons_append, WellFormed, if_neg h, ← List.cons_append, ih hs.2, hs.1]
    rfl

theorem wellFormed_lineFeed (s t : Utf16) : WellFormed (s ++ lineFeed :: t) = (WellFormed s && WellFormed t) :=
  wellFormed_cut rfl rfl s t

theorem wellFormed_unlines (lines : List Utf16) : WellFormed (unlines lines) = lines.all WellFormed := by
  induction lines with
  | nil => rfl
  | cons s lines ih => rw [unlines, wellFormed_lineFeed, ih, List.all_cons]

/-- What is read of a well-formed text is well formed. -/
theorem readLines_wellFormed {skipLF : Bool} {line text : Utf16} (hwf : WellFormed (line ++ text) = true) {s : Utf16}
    (hs : s ∈ readLines skipLF line text) : WellFormed s = true := by
  induction text generalizing skipLF line with
  | nil =>
    rw [List.append_nil] at hwf
    rw [readLines] at hs
    split_ifs at hs with hempty
    · cases hs
    · rw [List.mem_singleton.mp hs]
      exact hwf
  | cons c text ih =>
    rw [readLines] at hs
    split_ifs at hs with hlf hskip hcr
    · subst hlf
      rw [wellFormed_lineFeed, Bool.and_eq_true] at hwf
      exact ih (wellFormed_concat hwf.1 hwf.2) hs
    · subst hlf
      rw [wellFormed_lineFeed, Bool.and_eq_true] at hwf
      rcases List.mem_cons.mp hs with rfl | hs
      · exact hwf.1
      · have hrest : WellFormed ([] ++ text) = true := hwf.2
        exact ih hrest hs
    · subst hcr
      rw [wellFormed_cut rfl rfl, Bool.and_eq_true] at hwf
      rcases List.mem_cons.mp hs with rfl | hs
      · exact hwf.1
      · have hrest : WellFormed ([] ++ text) = true := hwf.2
        exact ih hrest hs
    · exact ih (by simpa using hwf) hs

end YcsbIvs.Foundations
