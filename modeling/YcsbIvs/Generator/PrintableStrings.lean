import YcsbIvs.Foundations.Utf

/-!
# Printable strings

`IncrementingPrintableStringGenerator` counts through the strings of one length over the upper and
lower case letters, and starts again after the last. All its strings are of that length, and have
letters only (`isWord_nextStrings`).
-/

namespace YcsbIvs.Generator

open YcsbIvs.Foundations

/-- `printableBasicAlphaASCIISet()[i]`. -/
def characterAt (i : Fin 52) : UInt16 :=
  if i.val < 26 then UInt16.ofNat (0x41 + i.val) else UInt16.ofNat (0x61 + (i.val - 26))

/-- The loop of `nextValue()` that increments the indices, before index `i`. -/
def incrementLoop : ℕ → List (Fin 52) → List (Fin 52)
  | 0, indices => indices
  | i + 1, indices =>
    match indices[i]? with
    | none => indices
    | some index => if 51 ≤ index.val then incrementLoop i (indices.set i 0) else indices.set i (index + 1)

/-- `nextValue()`: the string, and the indices after it. -/
def nextString (indices : List (Fin 52)) : Utf16 × List (Fin 52) :=
  (indices.map characterAt, incrementLoop indices.length indices)

/-- The next `n` strings. -/
def nextStrings : ℕ → List (Fin 52) → List Utf16
  | 0, _ => []
  | n + 1, indices => (nextString indices).1 :: nextStrings n (nextString indices).2

/-- The indices of a new generator. -/
def newIndices (length : ℕ) : List (Fin 52) := List.replicate length 0

/-- An upper or lower case letter. -/
def IsLetter (c : UInt16) : Prop := (0x41 ≤ c.toNat ∧ c.toNat ≤ 0x5A) ∨ (0x61 ≤ c.toNat ∧ c.toNat ≤ 0x7A)

/-- A string of letters that is not empty. -/
def IsWord (s : Utf16) : Prop := s ≠ [] ∧ ∀ c ∈ s, IsLetter c

theorem isLetter_characterAt (i : Fin 52) : IsLetter (characterAt i) := by
  rw [characterAt]
  split_ifs with hlt
  · left
    rw [UInt16.toNat_ofNat']
    omega
  · right
    rw [UInt16.toNat_ofNat']
    omega

theorem length_incrementLoop (i : ℕ) (indices : List (Fin 52)) : (incrementLoop i indices).length = indices.length := by
  induction i generalizing indices with
  | zero => rfl
  | succ i ih =>
    rw [incrementLoop]
    split
    · rfl
    · split_ifs
      · rw [ih, List.length_set]
      · rw [List.length_set]

/-- The strings of a generator have letters only, and are not empty. -/
theorem isWord_nextStrings {n : ℕ} {indices : List (Fin 52)} (h : indices ≠ []) {s : Utf16} (hs : s ∈ nextStrings n indices) :
    IsWord s := by
  induction n generalizing indices with
  | zero => cases hs
  | succ n ih =>
    rw [nextStrings] at hs
    rcases List.mem_cons.mp hs with rfl | hs
    · refine ⟨fun hnil => h (List.map_eq_nil_iff.mp hnil), fun c hc => ?_⟩
      obtain ⟨i, -, rfl⟩ := List.mem_map.mp hc
      exact isLetter_characterAt i
    · refine ih ?_ hs
      rw [nextString, ← List.length_pos_iff, length_incrementLoop, List.length_pos_iff]
      exact h

@[simp] theorem length_nextStrings (n : ℕ) (indices : List (Fin 52)) : (nextStrings n indices).length = n := by
  induction n generalizing indices with
  | zero => rfl
  | succ n ih => rw [nextStrings, List.length_cons, ih]

-- The second string of length two.
example : nextStrings 2 (newIndices 2) = [[0x41, 0x41], [0x41, 0x42]] := by decide

end YcsbIvs.Generator
