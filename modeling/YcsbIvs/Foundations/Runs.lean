import Mathlib.Data.Int.Order.Basic

/-!
# Runs

A system is a partial step function `step : σ → ℓ → Option σ`: label `l` takes
state `s` to `s'` when `step s l = some s'`, and is not possible in `s` when
`step s l = none`. A run is the list of its labels, and `exec` its final state.

What one step preserves a run preserves (`exec_invariant`), and so does a relation to what is made of its labels (`exec_simulates`); with a condition on
the steps, every step of the run has to meet it (`Meets`, `exec_invariant_of`). Where the condition is
exact, so is the one for the run (`Always`, `always_iff_meets`).

A step that throws is one in `Except`, and a run of those is a bind (`bind_ok`, `bind_inv`).
-/

namespace YcsbIvs.Foundations

universe u v

variable {σ : Type u} {ℓ : Type v} (step : σ → ℓ → Option σ)

/-- The state a run ends in, if each of its steps is possible. -/
def exec : σ → List ℓ → Option σ
  | s, [] => some s
  | s, l :: ls =>
    match step s l with
    | some s' => exec s' ls
    | none => none

/-- Each step of the run meets the condition `C` in the state it is taken in. -/
def Meets (C : σ → ℓ → Prop) : σ → List ℓ → Prop
  | _, [] => True
  | s, l :: ls => C s l ∧ ∀ s', step s l = some s' → Meets C s' ls

/-- `P` holds in each state the run goes through, the first and the last included. -/
def Always (P : σ → Prop) : σ → List ℓ → Prop
  | s, [] => P s
  | s, l :: ls => P s ∧ ∀ s', step s l = some s' → Always P s' ls

variable {step}

@[simp] theorem exec_nil (s : σ) : exec step s [] = some s := rfl

theorem exec_cons_of {s s' : σ} {l : ℓ} (h : step s l = some s') (ls : List ℓ) :
    exec step s (l :: ls) = exec step s' ls := by
  simp only [exec, h]

/-- The first step of a run, and the rest. -/
theorem exec_cons {s t : σ} {l : ℓ} {ls : List ℓ} (h : exec step s (l :: ls) = some t) :
    ∃ s', step s l = some s' ∧ exec step s' ls = some t := by
  simp only [exec] at h
  split at h
  · next s' hs => exact ⟨s', hs, h⟩
  · cases h

theorem exec_append (s : σ) (ls ms : List ℓ) :
    exec step s (ls ++ ms) = (exec step s ls).bind fun s' => exec step s' ms := by
  induction ls generalizing s with
  | nil => rfl
  | cons l ls ih =>
    simp only [List.cons_append, exec]
    cases step s l with
    | none => rfl
    | some s' => exact ih s'

/-- **The invariant rule**: what every step that meets `C` preserves, a run whose
steps all meet `C` preserves. -/
theorem exec_invariant_of {C : σ → ℓ → Prop} {I : σ → Prop}
    (hstep : ∀ s l s', I s → C s l → step s l = some s' → I s') {s t : σ} {ls : List ℓ}
    (hI : I s) (hC : Meets step C s ls) (h : exec step s ls = some t) : I t := by
  induction ls generalizing s with
  | nil =>
    cases h
    exact hI
  | cons l ls ih =>
    obtain ⟨s', hs, hrest⟩ := exec_cons h
    exact ih (hstep s l s' hI hC.1 hs) (hC.2 s' hs) hrest

theorem meets_true (s : σ) (ls : List ℓ) : Meets step (fun _ _ => True) s ls := by
  induction ls generalizing s with
  | nil => trivial
  | cons l ls ih => exact ⟨trivial, fun s' _ => ih s'⟩

theorem meets_of_forall {C : σ → ℓ → Prop} {ls : List ℓ} (h : ∀ l ∈ ls, ∀ s, C s l) (s : σ) :
    Meets step C s ls := by
  induction ls generalizing s with
  | nil => trivial
  | cons l ls ih => exact ⟨h l List.mem_cons_self s, fun s' _ => ih (fun m hm => h m (List.mem_cons_of_mem l hm)) s'⟩

theorem meets_append_iff {C : σ → ℓ → Prop} {s : σ} {ls ms : List ℓ} :
    Meets step C s (ls ++ ms) ↔ Meets step C s ls ∧ ∀ t, exec step s ls = some t → Meets step C t ms := by
  induction ls generalizing s with
  | nil => exact ⟨fun h => ⟨trivial, fun t ht => Option.some.inj ht ▸ h⟩, fun h => h.2 s rfl⟩
  | cons l ls ih =>
    rw [List.cons_append, Meets, Meets, and_assoc]
    refine and_congr_right fun _ => ⟨fun h => ⟨fun s' hs' => (ih.mp (h s' hs')).1, fun t ht => ?_⟩, fun h s' hs' => ?_⟩
    · obtain ⟨s', hs', hrest⟩ := exec_cons ht
      exact (ih.mp (h s' hs')).2 t hrest
    · exact ih.mpr ⟨h.1 s' hs', fun t ht => h.2 t ((exec_cons_of hs' ls).trans ht)⟩

theorem Meets.append {C : σ → ℓ → Prop} {s t : σ} {ls ms : List ℓ} (h : Meets step C s ls)
    (hexec : exec step s ls = some t) (hms : Meets step C t ms) : Meets step C s (ls ++ ms) := by
  refine meets_append_iff.mpr ⟨h, fun t' ht' => ?_⟩
  rwa [← Option.some.inj (hexec.symm.trans ht')]

theorem Meets.and {C D : σ → ℓ → Prop} {s : σ} {ls : List ℓ} (hC : Meets step C s ls) (hD : Meets step D s ls) :
    Meets step (fun s l => C s l ∧ D s l) s ls := by
  induction ls generalizing s with
  | nil => trivial
  | cons l ls ih => exact ⟨⟨hC.1, hD.1⟩, fun s' hs => ih (hC.2 s' hs) (hD.2 s' hs)⟩

/-- Whether every step of a run meets a condition that can be decided can be decided. -/
instance decidableMeets {C : σ → ℓ → Prop} [∀ s l, Decidable (C s l)] :
    (s : σ) → (ls : List ℓ) → Decidable (Meets step C s ls)
  | _, [] => .isTrue trivial
  | s, l :: ls =>
    match h : step s l with
    | some s' =>
      have := decidableMeets (C := C) s' ls
      decidable_of_iff (C s l ∧ Meets step C s' ls)
        ⟨fun hm => ⟨hm.1, fun t ht => Option.some.inj (h.symm.trans ht) ▸ hm.2⟩, fun hm => ⟨hm.1, hm.2 s' h⟩⟩
    | none => decidable_of_iff (C s l) ⟨fun hm => ⟨hm, fun t ht => by simp [h] at ht⟩, fun hm => hm.1⟩

/-- What every step preserves, a run preserves. -/
theorem exec_invariant {I : σ → Prop} (hstep : ∀ s l s', I s → step s l = some s' → I s')
    {s t : σ} {ls : List ℓ} (hI : I s) (h : exec step s ls = some t) : I t :=
  exec_invariant_of (C := fun _ _ => True) (fun s l s' hs _ => hstep s l s' hs) hI
    (meets_true s ls) h

/-- **Simulation**: if each step keeps a relation to what has been made of the labels, a run does. -/
theorem exec_simulates {τ : Type*} {next : τ → ℓ → τ} {R : σ → τ → Prop} (hstep : ∀ s a l s', R s a → step s l = some s' → R s' (next a l))
    {s t : σ} {a : τ} {ls : List ℓ} (hR : R s a) (h : exec step s ls = some t) : R t (ls.foldl next a) := by
  induction ls generalizing s a with
  | nil =>
    cases h
    exact hR
  | cons l ls ih =>
    obtain ⟨s', hs, hrest⟩ := exec_cons h
    exact ih (hstep s a l s' hR hs) hrest

/-- Where each step takes one off a measure, the measure says how long a run is. -/
theorem exec_measure {C : σ → ℓ → Prop} {I : σ → Prop} {μ : σ → ℤ}
    (hstep : ∀ s l s', I s → C s l → step s l = some s' → I s') (hμ : ∀ s l s', I s → C s l → step s l = some s' → μ s' + 1 = μ s)
    {s t : σ} {ls : List ℓ} (hI : I s) (hC : Meets step C s ls) (h : exec step s ls = some t) : μ t + ls.length = μ s := by
  induction ls generalizing s with
  | nil =>
    cases h
    simp
  | cons l ls ih =>
    obtain ⟨s', hs, hrest⟩ := exec_cons h
    have hrec := ih (hstep s l s' hI hC.1 hs) (hC.2 s' hs) hrest
    have hone := hμ s l s' hI hC.1 hs
    rw [List.length_cons]
    omega

/-- A weaker condition is met when a stronger one is, as long as an invariant of
the run lets one imply the other. -/
theorem Meets.mono {C D : σ → ℓ → Prop} {I : σ → Prop}
    (hstep : ∀ s l s', I s → C s l → step s l = some s' → I s')
    (hCD : ∀ s l, I s → C s l → D s l) {s : σ} {ls : List ℓ} (hI : I s)
    (h : Meets step C s ls) : Meets step D s ls := by
  induction ls generalizing s with
  | nil => trivial
  | cons l ls ih =>
    exact ⟨hCD s l hI h.1, fun s' hs => ih (hstep s l s' hI h.1 hs) (h.2 s' hs)⟩

/-- **Conditions that mean the same**, for the steps of a run that is possible: each of its steps then meets the one just if each meets the other. Both what the
steps preserve and a third condition can be used. -/
theorem meets_congr {C D R : σ → ℓ → Prop} {I : σ → Prop} (hI : ∀ s l s', I s → R s l → step s l = some s' → I s')
    (hstep : ∀ s l s', I s → R s l → step s l = some s' → (C s l ↔ D s l)) {s t : σ} {ls : List ℓ} (hs : I s) (hR : Meets step R s ls)
    (h : exec step s ls = some t) : Meets step C s ls ↔ Meets step D s ls := by
  induction ls generalizing s with
  | nil => exact Iff.rfl
  | cons l ls ih =>
    obtain ⟨s', hs', hrest⟩ := exec_cons h
    refine and_congr (hstep s l s' hs hR.1 hs') (forall_congr' fun s'' => imp_congr_right fun h'' => ?_)
    obtain rfl : s' = s'' := Option.some.inj (hs'.symm.trans h'')
    exact ih (hI s l s' hs hR.1 hs') (hR.2 s' hs') hrest

theorem Always.first {P : σ → Prop} {s : σ} {ls : List ℓ} (h : Always step P s ls) : P s := by
  cases ls with
  | nil => exact h
  | cons l ls => exact h.1

/-- What holds throughout a run holds in the state it ends in. -/
theorem Always.last {P : σ → Prop} {s t : σ} {ls : List ℓ} (h : Always step P s ls) (hexec : exec step s ls = some t) : P t := by
  induction ls generalizing s with
  | nil =>
    cases hexec
    exact h
  | cons l ls ih =>
    obtain ⟨s', hs, hrest⟩ := exec_cons hexec
    exact ih (h.2 s' hs) hrest

/-- What follows from the invariant holds throughout a run whose steps all meet `C`. -/
theorem Always.of_meets {C : σ → ℓ → Prop} {P I : σ → Prop} (hstep : ∀ s l s', I s → C s l → step s l = some s' → I s') (hP : ∀ s, I s → P s)
    {s : σ} {ls : List ℓ} (hI : I s) (hC : Meets step C s ls) : Always step P s ls := by
  induction ls generalizing s with
  | nil => exact hP s hI
  | cons l ls ih => exact ⟨hP s hI, fun s' hs' => ih (hstep s l s' hI hC.1 hs') (hC.2 s' hs')⟩

/-- What no step brings back holds throughout a run, if it holds in the state it ends in. -/
theorem always_of_last {P I : σ → Prop} (hI : ∀ s l s', I s → step s l = some s' → I s')
    (hback : ∀ s l s', I s → step s l = some s' → P s' → P s) {s t : σ} {ls : List ℓ} (hs : I s) (h : exec step s ls = some t)
    (hP : P t) : Always step P s ls := by
  induction ls generalizing s with
  | nil =>
    cases h
    exact hP
  | cons l ls ih =>
    obtain ⟨s', hs', hrest⟩ := exec_cons h
    have hall := ih (hI s l s' hs hs') hrest
    refine ⟨hback s l s' hs hs' hall.first, fun s'' h'' => ?_⟩
    obtain rfl : s' = s'' := Option.some.inj (hs'.symm.trans h'')
    exact hall

/-- **The exact condition**: where a step that meets `C` preserves `P`, and one that does not breaks it, `P` holds
throughout a run just when all its steps meet `C`. What every step preserves, `I`, can be used. -/
theorem always_iff_meets {C : σ → ℓ → Prop} {P I : σ → Prop} (hI : ∀ s l s', I s → step s l = some s' → I s')
    (hstep : ∀ s l s', I s → P s → step s l = some s' → (P s' ↔ C s l)) {s t : σ} {ls : List ℓ} (hs : I s) (hP : P s)
    (h : exec step s ls = some t) : Always step P s ls ↔ Meets step C s ls := by
  induction ls generalizing s with
  | nil => exact ⟨fun _ => trivial, fun _ => hP⟩
  | cons l ls ih =>
    obtain ⟨s', hs', hrest⟩ := exec_cons h
    have hiff := hstep s l s' hs hP hs'
    have heq : ∀ s'', step s l = some s'' → s'' = s' := fun s'' h'' => Option.some.inj (h''.symm.trans hs')
    constructor
    · rintro ⟨-, hall⟩
      have hP' := (hall s' hs').first
      refine ⟨hiff.mp hP', fun s'' h'' => ?_⟩
      rw [heq s'' h'']
      exact (ih (hI s l s' hs hs') hP' hrest).mp (hall s' hs')
    · rintro ⟨hC, hmeets⟩
      refine ⟨hP, fun s'' h'' => ?_⟩
      rw [heq s'' h'']
      exact (ih (hI s l s' hs hs') (hiff.mpr hC) hrest).mpr (hmeets s' hs')

/-! ### Steps that may throw -/

section Throws

variable {ε α β : Type}

/-- A step that does not throw. -/
theorem bind_ok {x : Except ε α} {a : α} (h : x = .ok a) (f : α → Except ε β) : (x >>= f) = f a := by
  rw [h]
  rfl

/-- If both steps do not throw the first does not. -/
theorem bind_inv {x : Except ε α} {f : α → Except ε β} {b : β} (h : (x >>= f) = .ok b) :
    ∃ a, x = .ok a ∧ f a = .ok b := by
  cases x with
  | error e => cases h
  | ok a => exact ⟨a, rfl, h⟩

theorem map_inv {x : Except ε α} {f : α → β} {b : β} (h : x.map f = .ok b) : ∃ a, x = .ok a ∧ f a = b := by
  cases x with
  | error e => cases h
  | ok a => exact ⟨a, rfl, Except.ok.inj h⟩

end Throws

end YcsbIvs.Foundations
