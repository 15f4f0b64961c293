import YcsbIvs.Foundations.Utf

/-!
# Code points

A code point that is not a surrogate is a `Char`. `toChars` gives its code units, one or two of them: the first tells how many, so that a string of code points is
told apart from another by its code units (`flatMap_toChars_injective`).
-/

namespace YcsbIvs.Foundations

/-- `Character.toChars(codePoint)`. -/
def toChars (c : Char) : Utf16 :=
  if c.toNat < 0x10000 then [UInt16.ofNat c.toNat]
  else [UInt16.ofNat (0xD800 + (c.toNat - 0x10000) / 0x400), UInt16.ofNat (0xDC00 + (c.toNat - 0x10000) % 0x400)]

theorem toNat_lt (c : Char) : c.toNat < 0x110000 ∧ ¬(0xD800 ≤ c.toNat ∧ c.toNat < 0xE000) := by
  have hvalid := c.valid
  unfold UInt32.isValidChar Nat.isValidChar at hvalid
  have htoNat : c.val.toNat = c.toNat := rfl
  omega

/-- The first code units of a string of code points are those of its first. -/
theorem toChars_append_inj {c d : Char} {s t : Utf16} (h : toChars c ++ s = toChars d ++ t) : c = d ∧ s = t := by
  have hc := toNat_lt c
  have hd := toNat_lt d
  have hfirst : ∀ {m n : ℕ}, m < 0x10000 → n < 0x10000 → UInt16.ofNat m = UInt16.ofNat n → m = n := by
    intro m n hm hn heq
    have htoNat := congrArg UInt16.toNat heq
    rwa [UInt16.toNat_ofNat', UInt16.toNat_ofNat', Nat.mod_eq_of_lt hm, Nat.mod_eq_of_lt hn] at htoNat
  rw [toChars, toChars] at h
  split_ifs at h with hc' hd' hd'
  · simp only [List.singleton_append, List.cons.injEq] at h
    exact ⟨Char.toNat_inj.mp (hfirst hc' hd' h.1), h.2⟩
  · -- one is no surrogate, the other is
    simp only [List.cons_append, List.cons.injEq] at h
    have heq := hfirst hc' (by omega) h.1
    omega
  · simp only [List.cons_append, List.cons.injEq] at h
    have heq := hfirst (by omega) hd' h.1
    omega
  · simp only [List.cons_append, List.nil_append, List.cons.injEq] at h
    have hhigh := hfirst (by omega) (by omega) h.1
    have hlow := hfirst (by omega) (by omega) h.2.1
    exact ⟨Char.toNat_inj.mp (by omega), h.2.2⟩

theorem toChars_ne_nil (c : Char) : toChars c ≠ [] := by
  rw [toChars]
  split_ifs <;> exact List.cons_ne_nil _ _

/-- **Strings of code points are told apart by their code units.** -/
theorem flatMap_toChars_injective : Function.Injective fun cs : List Char => cs.flatMap toChars := by
  intro cs ds h
  induction cs generalizing ds with
  | nil =>
    cases ds with
    | nil => rfl
    | cons d ds => exact absurd (List.append_eq_nil_iff.mp h.symm).1 (toChars_ne_nil d)
  | cons c cs ih =>
    cases ds with
    | nil => exact absurd (List.append_eq_nil_iff.mp h).1 (toChars_ne_nil c)
    | cons d ds =>
      obtain ⟨rfl, hrest⟩ := toChars_append_inj (by simpa only [List.flatMap_cons] using h)
      rw [ih hrest]

end YcsbIvs.Foundations
