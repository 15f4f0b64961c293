import YcsbIvs.Foundations.Throws
import YcsbIvs.Generator.Timestamps

/-!
# Crashes

An operation crashes if it divides by zero, calls `Random.nextInt` with a bound that is not positive, or indexes an array out of its range.
Each of the operations that may do so says when it does not, and throws nothing else.
-/

namespace YcsbIvs.Generator

open YcsbIvs.Foundations

/-- A division by zero, a bound of `nextInt` that is not positive, or an index out of range. -/
def Thrown.IsCrash (t : Thrown) : Prop := t = .arithmetic ∨ t = .nextIntBound ∨ t = .arrayIndexOutOfBounds

instance (t : Thrown) : Decidable t.IsCrash := inferInstanceAs (Decidable (_ ∨ _))

/-- An operation does not crash. -/
def Survives {α : Type} (x : Except Thrown α) : Prop := Avoids Thrown.IsCrash x

section

variable {α β : Type} {l : List α} {x y bound i : ℤ} {draw : ℕ}

theorem only_divide : Only Thrown.IsCrash (divide x y) := by
  rw [divide]
  split_ifs
  · exact only_error (by decide)
  · exact only_ok

theorem divide_inv {q : ℤ} (h : divide x y = .ok q) : q = x.tdiv y := by
  rw [divide] at h
  split_ifs at h
  exact (Except.ok.inj h).symm

theorem survives_divide_iff : Survives (divide x y) ↔ y ≠ 0 := by
  rw [divide]
  split_ifs with h
  · exact ⟨fun hs => absurd (by decide) (avoids_error_iff.mp hs), fun hne => absurd h hne⟩
  · exact ⟨fun _ => h, fun _ => avoids_ok⟩

theorem only_modulo : Only Thrown.IsCrash (modulo x y) := by
  rw [modulo]
  split_ifs
  · exact only_error (by decide)
  · exact only_ok

theorem survives_modulo_iff : Survives (modulo x y) ↔ y ≠ 0 := by
  rw [modulo]
  split_ifs with h
  · exact ⟨fun hs => absurd (by decide) (avoids_error_iff.mp hs), fun hne => absurd h hne⟩
  · exact ⟨fun _ => h, fun _ => avoids_ok⟩

theorem only_nextInt : Only Thrown.IsCrash (nextInt bound draw) := by
  rw [nextInt]
  split_ifs
  · exact only_error (by decide)
  · exact only_ok

theorem survives_nextInt_iff : Survives (nextInt bound draw) ↔ 0 < bound := by
  rw [nextInt]
  split_ifs with h
  · exact ⟨fun hs => absurd (by decide) (avoids_error_iff.mp hs), fun hpos => absurd hpos (by omega)⟩
  · exact ⟨fun _ => by omega, fun _ => avoids_ok⟩

/-- What is drawn is below the bound. -/
theorem nextInt_bounds (h : nextInt bound draw = .ok x) : 0 ≤ x ∧ x < bound := by
  rw [nextInt] at h
  split_ifs at h with hbound
  cases h
  exact ⟨Int.emod_nonneg _ (by omega), Int.emod_lt_of_pos _ (by omega)⟩

theorem only_elementAt : Only Thrown.IsCrash (elementAt l i) := by
  rw [elementAt]
  split_ifs
  · exact only_error (by decide)
  · split
    · exact only_ok
    · exact only_error (by decide)

/-- An element whose index is in range. -/
theorem elementAt_of_lt (h : 0 ≤ i) (h' : i < l.length) : ∃ a, elementAt l i = .ok a := by
  have hlt : i.toNat < l.length := by omega
  rw [elementAt, if_neg (by omega), List.getElem?_eq_getElem hlt]
  exact ⟨_, rfl⟩

theorem survives_elementAt_iff : Survives (elementAt l i) ↔ 0 ≤ i ∧ i < l.length := by
  constructor
  · intro hs
    obtain ⟨a, ha⟩ := only_elementAt.exists_ok hs
    rw [elementAt] at ha
    split_ifs at ha with hneg
    cases hget : l[i.toNat]? with
    | none =>
      rw [hget] at ha
      cases ha
    | some b =>
      have hlt := (List.getElem?_eq_some_iff.mp hget).1
      omega
  · rintro ⟨h, h'⟩
    obtain ⟨a, ha⟩ := elementAt_of_lt h h'
    exact avoids_of_ok ha

/-- A uniform number can be drawn just if there are some. -/
theorem survives_uniform_iff {g : UniformLongGenerator} {n : ℤ} : Survives (g.nextValue n) ↔ g.interval ≠ 0 := by
  rw [UniformLongGenerator.nextValue]
  exact avoids_bind_ok_iff.trans survives_modulo_iff

theorem only_uniform {g : UniformLongGenerator} {n : ℤ} : Only Thrown.IsCrash (g.nextValue n) :=
  only_bind only_modulo fun _ _ => only_ok

end

end YcsbIvs.Generator
