import YcsbIvs.Generator.Incrementing
import Mathlib.Data.Finset.Insert

/-!
# Printable characters

`generatePrintableCharacterSet` goes through a range of code points and leaves out those whose type is not printable, or not allowed. A filter leaves out more: it is to be a list of
the code points that are allowed, or of those that are denied. But what is in the filter is left out in both cases, and what is not if it is a list of allowed ones:
so an allow list leaves nothing. The code points are **those that are wanted just if there is no filter, or it denies, or none that it allows is wanted anyway**
(`wanted_iff`).

`Character.getType` is a parameter. Where it tells the letters of the basic ASCII set from the rest, they are what `printableBasicAlphaASCIISet` gives
(`printableBasicAlphaASCIISet_eq`).
-/

namespace YcsbIvs.Generator.CharacterSets

open YcsbIvs.Foundations

/-- A code point. -/
abbrev CodePoint := Fin 0x110000

/-- `CONTROL`, `SURROGATE`, `FORMAT`, `PRIVATE_USE` and `UNASSIGNED` of `Character`. -/
def unprintable : List ℤ := [15, 19, 16, 18, 0]

section Source

variable (getType : ℕ → ℤ) (characterTypesFilter : Option (Finset ℕ)) (isFilterAllowableList : Bool) (allowableTypes : Option (Finset ℤ))

/-- The tests of the loop that `continue`. -/
def skips (codePoint : ℕ) : Bool :=
  (match allowableTypes with
    | some types => getType codePoint ∉ types
    | none => false) ||
  getType codePoint ∈ unprintable ||
  match characterTypesFilter with
  | some filter => isFilterAllowableList && codePoint ∉ filter || codePoint ∈ filter
  | none => false

/-- The loop, from `codePoint` on, for `n` code points. -/
def printableLoop : ℕ → ℕ → List ℕ → List ℕ
  | 0, _, validCharacters => validCharacters
  | n + 1, codePoint, validCharacters =>
    if skips getType characterTypesFilter isFilterAllowableList allowableTypes codePoint then printableLoop n (codePoint + 1) validCharacters
    else printableLoop n (codePoint + 1) (validCharacters ++ [codePoint])

/-- `generatePrintableCharacterSet(startCodePoint, lastCodePoint, characterTypesFilter, isFilterAllowableList, allowableTypes)`. -/
def generatePrintableCharacterSet (startCodePoint lastCodePoint : CodePoint) : List ℕ :=
  printableLoop getType characterTypesFilter isFilterAllowableList allowableTypes (lastCodePoint.val + 1 - startCodePoint.val) startCodePoint.val []

/-! ### What is wanted -/

/-- The code point has a type that can be printed and is allowed. -/
def Printable (codePoint : ℕ) : Prop := getType codePoint ∉ unprintable ∧ ∀ types ∈ allowableTypes, getType codePoint ∈ types

/-- The filter allows it, or does not deny it. -/
def Passes (codePoint : ℕ) : Prop := ∀ filter ∈ characterTypesFilter, if isFilterAllowableList then codePoint ∈ filter else codePoint ∉ filter

/-- The code points of the range that are wanted, each once and in order. -/
structure Wanted (startCodePoint lastCodePoint : CodePoint) (codePoints : List ℕ) : Prop where
  /-- These. -/
  mem_iff : ∀ codePoint, codePoint ∈ codePoints ↔ startCodePoint.val ≤ codePoint ∧ codePoint ≤ lastCodePoint.val ∧
    Printable getType allowableTypes codePoint ∧ Passes characterTypesFilter isFilterAllowableList codePoint
  /-- In order. -/
  ascending : codePoints.Pairwise (· < ·)

end Source

/-! ### What is generated -/

section Generated

variable {getType : ℕ → ℤ} {characterTypesFilter : Option (Finset ℕ)} {isFilterAllowableList : Bool} {allowableTypes : Option (Finset ℤ)}

theorem skips_eq_false_iff (codePoint : ℕ) :
    skips getType characterTypesFilter isFilterAllowableList allowableTypes codePoint = false ↔
      Printable getType allowableTypes codePoint ∧ ∀ filter ∈ characterTypesFilter, isFilterAllowableList = false ∧ codePoint ∉ filter := by
  unfold skips
  rw [Bool.or_eq_false_iff, Bool.or_eq_false_iff, decide_eq_false_iff_not, Printable, and_comm (a := _ = false), and_assoc, and_assoc]
  refine and_congr_right fun _ => and_congr ?_ ?_
  · cases allowableTypes <;> simp
  · cases characterTypesFilter with
    | none => simp
    | some filter => cases isFilterAllowableList <;> simp

theorem printableLoop_eq (n codePoint : ℕ) (validCharacters : List ℕ) :
    printableLoop getType characterTypesFilter isFilterAllowableList allowableTypes n codePoint validCharacters =
      validCharacters ++ (List.range' codePoint n).filter fun c => !skips getType characterTypesFilter isFilterAllowableList allowableTypes c := by
  induction n generalizing codePoint validCharacters with
  | zero => simp [printableLoop]
  | succ n ih =>
    rw [printableLoop, List.range'_succ]
    split_ifs with hskips
    · rw [ih, List.filter_cons_of_neg (by simp [hskips])]
    · rw [ih, List.filter_cons_of_pos (by simp [hskips]), List.append_assoc, List.singleton_append]

theorem ascending_generate (startCodePoint lastCodePoint : CodePoint) :
    (generatePrintableCharacterSet getType characterTypesFilter isFilterAllowableList allowableTypes startCodePoint lastCodePoint).Pairwise (· < ·) := by
  rw [generatePrintableCharacterSet, printableLoop_eq, List.nil_append]
  exact List.Pairwise.filter _ List.pairwise_lt_range'

/-- What is generated: with a list of allowed ones, nothing. -/
theorem mem_generate_iff (startCodePoint lastCodePoint : CodePoint) (codePoint : ℕ) :
    codePoint ∈ generatePrintableCharacterSet getType characterTypesFilter isFilterAllowableList allowableTypes startCodePoint lastCodePoint ↔
      startCodePoint.val ≤ codePoint ∧ codePoint ≤ lastCodePoint.val ∧
        Printable getType allowableTypes codePoint ∧ ∀ filter ∈ characterTypesFilter, isFilterAllowableList = false ∧ codePoint ∉ filter := by
  have hrange : codePoint ∈ List.range' startCodePoint.val (lastCodePoint.val + 1 - startCodePoint.val) ↔
      startCodePoint.val ≤ codePoint ∧ codePoint ≤ lastCodePoint.val := by
    rw [List.mem_range'_1]
    omega
  rw [generatePrintableCharacterSet, printableLoop_eq, List.nil_append, List.mem_filter, Bool.not_eq_true', skips_eq_false_iff, hrange, and_assoc]

/-- What is wanted is generated just if the filter is read right for what is printable. -/
theorem wanted_iff_passes (startCodePoint lastCodePoint : CodePoint) :
    Wanted getType characterTypesFilter isFilterAllowableList allowableTypes startCodePoint lastCodePoint
        (generatePrintableCharacterSet getType characterTypesFilter isFilterAllowableList allowableTypes startCodePoint lastCodePoint) ↔
      ∀ codePoint, startCodePoint.val ≤ codePoint → codePoint ≤ lastCodePoint.val → Printable getType allowableTypes codePoint →
        ((∀ filter ∈ characterTypesFilter, isFilterAllowableList = false ∧ codePoint ∉ filter) ↔
          Passes characterTypesFilter isFilterAllowableList codePoint) := by
  constructor
  · intro hwanted codePoint hstart hlast hprintable
    have hiff := (mem_generate_iff startCodePoint lastCodePoint codePoint).symm.trans (hwanted.mem_iff codePoint)
    simpa only [hstart, hlast, hprintable, true_and] using hiff
  · intro hpasses
    refine ⟨fun codePoint => ?_, ascending_generate startCodePoint lastCodePoint⟩
    rw [mem_generate_iff]
    refine and_congr_right fun hstart => and_congr_right fun hlast => and_congr_right fun hprintable => ?_
    exact hpasses codePoint hstart hlast hprintable

/-- **The code points are those that are wanted** if there is no filter, or it denies, or none that it allows is wanted. -/
theorem wanted_iff (startCodePoint lastCodePoint : CodePoint) :
    Wanted getType characterTypesFilter isFilterAllowableList allowableTypes startCodePoint lastCodePoint
        (generatePrintableCharacterSet getType characterTypesFilter isFilterAllowableList allowableTypes startCodePoint lastCodePoint) ↔
      isFilterAllowableList = false ∨ ∀ filter ∈ characterTypesFilter, ∀ codePoint ∈ filter,
        startCodePoint.val ≤ codePoint → codePoint ≤ lastCodePoint.val → ¬Printable getType allowableTypes codePoint := by
  rw [wanted_iff_passes]
  cases isFilterAllowableList with
  | false =>
    refine iff_of_true (fun codePoint _ _ _ => ?_) (.inl rfl)
    simp [Passes]
  | true =>
    cases characterTypesFilter with
    | none => simp [Passes]
    | some filter =>
      simp only [Passes, Option.mem_def, Option.some.injEq, forall_eq', Bool.true_eq_false, false_and, false_or, if_true, false_iff]
      exact ⟨fun h codePoint hmem hstart hlast hprintable => h codePoint hstart hlast hprintable hmem,
        fun h codePoint hstart hlast hprintable hmem => h codePoint hmem hstart hlast hprintable⟩

/-- Of the letters, allow one. -/
theorem not_wanted : ¬Wanted (fun _ => 1) (some {65}) true none 65 90 (generatePrintableCharacterSet (fun _ => 1) (some {65}) true none 65 90) := by
  intro hwanted
  have hmem := (hwanted.mem_iff 65).mpr ⟨by decide, by decide, by simp [Printable, unprintable], by simp [Passes]⟩
  simp [mem_generate_iff] at hmem

end Generated

/-! ### Letters -/

/-- `UPPERCASE_LETTER` and `LOWERCASE_LETTER` of `Character`. -/
def charTypesBasicAlpha : Finset ℤ := {1, 2}

/-- `printableBasicAlphaASCIISet()`. -/
def printableBasicAlphaASCIISet (getType : ℕ → ℤ) : List ℕ := generatePrintableCharacterSet getType none false (some charTypesBasicAlpha) 0 127

/-- Where the types of the ASCII set are those of its letters, they are what `IncrementingPrintableStringGenerator` goes through by default. -/
theorem printableBasicAlphaASCIISet_eq {getType : ℕ → ℤ}
    (h : ∀ codePoint < 128, getType codePoint ∈ charTypesBasicAlpha ↔ 0x41 ≤ codePoint ∧ codePoint ≤ 0x5A ∨ 0x61 ≤ codePoint ∧ codePoint ≤ 0x7A) :
    printableBasicAlphaASCIISet getType = IncrementingPrintableStringGenerator.letters.map Char.toNat := by
  have hprintable : ∀ t ∈ charTypesBasicAlpha, t ∉ unprintable := by decide
  have hskips : ∀ c ∈ List.range' 0 128, (!skips getType none false (some charTypesBasicAlpha) c) =
      decide (0x41 ≤ c ∧ c ≤ 0x5A ∨ 0x61 ≤ c ∧ c ≤ 0x7A) := by
    intro c hc
    rw [List.mem_range'_1] at hc
    rw [Bool.eq_iff_iff, Bool.not_eq_true', skips_eq_false_iff, decide_eq_true_iff, ← h c (by omega)]
    simp only [Printable, Option.mem_def, Option.some.injEq, forall_eq', reduceCtorEq, false_implies, implies_true, and_true]
    exact and_iff_right_of_imp (hprintable _)
  have hgenerate : printableBasicAlphaASCIISet getType = [] ++ (List.range' 0 128).filter fun c => !skips getType none false (some charTypesBasicAlpha) c :=
    printableLoop_eq 128 0 []
  rw [hgenerate, List.nil_append, List.filter_congr hskips]
  decide

end YcsbIvs.Generator.CharacterSets
