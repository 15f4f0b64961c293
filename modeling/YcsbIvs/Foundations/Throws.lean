import YcsbIvs.Foundations.Runs

/-!
# What is not thrown

A step avoids some exceptions if it throws none of them (`Avoids`); it may throw others, and a step after one that throws is not taken. So two steps
avoid them just if the first does, and the second does for what the first gives (`avoids_bind_iff`). If the first throws
no others (`Only`), it gives something, and what the second does can be said apart from it (`Only.avoids_bind_iff`).

**A run avoids them just if each of its steps meets the condition** under which that step does (`avoids_foldlM_iff`).

If what a step gives is to be as `Q` says besides, it `Yields` that; the condition of two steps is again that of the first, for the condition of the second
(`yields_bind_iff`).
-/

namespace YcsbIvs.Foundations

universe v

variable {ε α β : Type} {bad : ε → Prop}

/-- None of the exceptions is thrown. -/
def Avoids (bad : ε → Prop) (x : Except ε α) : Prop := ∀ e, x = .error e → ¬ bad e

/-- No others are. -/
def Only (bad : ε → Prop) (x : Except ε α) : Prop := ∀ e, x = .error e → bad e

theorem avoids_ok {a : α} : Avoids bad (.ok a : Except ε α) := fun _ h => nomatch h

theorem only_ok {a : α} : Only bad (.ok a : Except ε α) := fun _ h => nomatch h

theorem avoids_error_iff {e : ε} : Avoids bad (.error e : Except ε α) ↔ ¬ bad e :=
  ⟨fun h => h e rfl, fun h _ heq => Except.error.inj heq ▸ h⟩

theorem only_error {e : ε} (h : bad e) : Only bad (.error e : Except ε α) := fun _ heq => Except.error.inj heq ▸ h

theorem avoids_of_ok {x : Except ε α} {a : α} (h : x = .ok a) : Avoids bad x := h ▸ avoids_ok

/-- **Two steps avoid the exceptions just if each does.** -/
theorem avoids_bind_iff {x : Except ε α} {f : α → Except ε β} :
    Avoids bad (x >>= f) ↔ Avoids bad x ∧ ∀ a, x = .ok a → Avoids bad (f a) := by
  cases x with
  | error e => exact ⟨fun h => ⟨avoids_error_iff.mpr (avoids_error_iff.mp h), fun a ha => nomatch ha⟩, fun h => avoids_error_iff.mpr (avoids_error_iff.mp h.1)⟩
  | ok a => exact ⟨fun h => ⟨avoids_ok, fun _ ha => Except.ok.inj ha ▸ h⟩, fun h => h.2 a rfl⟩

/-- A step that throws nothing does not matter. -/
theorem avoids_bind_ok_iff {x : Except ε α} {f : α → β} : Avoids bad (x >>= fun a => .ok (f a)) ↔ Avoids bad x :=
  avoids_bind_iff.trans (and_iff_left fun _ _ => avoids_ok)

theorem only_bind {x : Except ε α} {f : α → Except ε β} (hx : Only bad x) (hf : ∀ a, x = .ok a → Only bad (f a)) : Only bad (x >>= f) := by
  cases x with
  | error e => exact only_error (hx e rfl)
  | ok a => exact hf a rfl

/-- A step that could throw only what it avoids gives something. -/
theorem Only.exists_ok {x : Except ε α} (h : Only bad x) (havoids : Avoids bad x) : ∃ a, x = .ok a := by
  cases x with
  | error e => exact absurd (h e rfl) (havoids e rfl)
  | ok a => exact ⟨a, rfl⟩

/-- Where it does not matter to the second step what the first gives. -/
theorem Only.avoids_bind_iff {x : Except ε α} {f : α → Except ε β} {P : Prop} (h : Only bad x)
    (hf : ∀ a, x = .ok a → (Avoids bad (f a) ↔ P)) : Avoids bad (x >>= f) ↔ Avoids bad x ∧ P := by
  rw [Foundations.avoids_bind_iff]
  refine and_congr_right fun havoids => ?_
  obtain ⟨a, ha⟩ := h.exists_ok havoids
  exact ⟨fun hall => (hf a ha).mp (hall a ha), fun hP b hb => (hf b hb).mpr hP⟩

/-- None of the exceptions is thrown, and `Q` holds of what is given. -/
def Yields (bad : ε → Prop) (Q : α → Prop) (x : Except ε α) : Prop := Avoids bad x ∧ ∀ a, x = .ok a → Q a

theorem yields_ok_iff {Q : α → Prop} {a : α} : Yields bad Q (.ok a : Except ε α) ↔ Q a :=
  ⟨fun h => h.2 a rfl, fun h => ⟨avoids_ok, fun _ ha => Except.ok.inj ha ▸ h⟩⟩

theorem yields_error_iff {Q : α → Prop} {e : ε} : Yields bad Q (.error e : Except ε α) ↔ ¬ bad e :=
  ⟨fun h => avoids_error_iff.mp h.1, fun h => ⟨avoids_error_iff.mpr h, fun _ ha => by cases ha⟩⟩

/-- **What the first of two steps is to yield is that the second yields `Q`.** -/
theorem yields_bind_iff {Q : β → Prop} {x : Except ε α} {f : α → Except ε β} :
    Yields bad Q (x >>= f) ↔ Yields bad (fun a => Yields bad Q (f a)) x := by
  cases x with
  | error e => exact yields_error_iff.trans yields_error_iff.symm
  | ok a => exact (yields_ok_iff (Q := fun a => Yields bad Q (f a))).symm

/-- **The rule for runs**: where a step avoids the exceptions just if it meets `C`, a run does just if all its steps meet `C`. What every step
preserves, `I`, can be used. -/
theorem avoids_foldlM_iff {σ : Type} {ℓ : Type v} {step : σ → ℓ → Except ε σ} {C : σ → ℓ → Prop} {I : σ → Prop}
    (hI : ∀ s l s', I s → step s l = .ok s' → I s') (hstep : ∀ s l, I s → (Avoids bad (step s l) ↔ C s l)) {s : σ} (hs : I s) (ls : List ℓ) :
    Avoids bad (ls.foldlM step s) ↔ Meets (fun s l => (step s l).toOption) C s ls := by
  induction ls generalizing s with
  | nil => exact ⟨fun _ => trivial, fun _ => avoids_ok⟩
  | cons l ls ih =>
    have hok : ∀ s', (step s l).toOption = some s' ↔ step s l = .ok s' := by
      intro s'
      cases step s l <;> simp [Except.toOption]
    rw [List.foldlM_cons, Foundations.avoids_bind_iff, Meets, hstep s l hs]
    refine and_congr_right fun _ => forall_congr' fun s' => ?_
    rw [hok]
    exact forall_congr' fun hs' => ih (hI s l s' hs hs')

end YcsbIvs.Foundations
