import Mathlib.Data.List.Range
import Mathlib.Order.Monotone.Basic
import Mathlib.Order.Lattice
import Mathlib.Tactic.Choose
import Mathlib.Tactic.ByContra

/-!
# Loops that the world decides the end of

A round of a loop takes a state and what the world does in it, and either ends the loop with a result or leaves a state for the
next round. `loop` runs the rounds of a list; over a sequence of them `firstRounds` says which have been run, and a loop without a
bound ends in the round that ends it (`Ends`), or never does.

What a round that does not end the loop preserves, the rounds before the end preserve (`loop_again`), and the result is one that a round gives from such
a state (`loop_ends`). Where the state does not decide whether a round goes on, the loop goes on over the rounds that do (`loop_again_iff`).
A loop ends if there is always a round to come that ends it or lowers a measure, and none raises it (`ends_of_measure`).
-/

namespace YcsbIvs.Foundations

universe u v w

variable {σ : Type u} {ℓ : Type v} {α : Type w}

/-- The loop over the rounds that a list says: its result, or the state it goes on in. -/
def loop (body : σ → ℓ → α ⊕ σ) : σ → List ℓ → α ⊕ σ
  | s, [] => .inr s
  | s, l :: ls =>
    match body s l with
    | .inl a => .inl a
    | .inr s' => loop body s' ls

/-- The first `n` of a sequence of rounds. -/
def firstRounds (rounds : ℕ → ℓ) (n : ℕ) : List ℓ := (List.range n).map rounds

/-- The loop ends, with this result. -/
def Ends (body : σ → ℓ → α ⊕ σ) (s : σ) (rounds : ℕ → ℓ) (a : α) : Prop := ∃ n, loop body s (firstRounds rounds n) = .inl a

variable {body : σ → ℓ → α ⊕ σ} {I : σ → Prop} {rounds : ℕ → ℓ}

@[simp] theorem firstRounds_zero (rounds : ℕ → ℓ) : firstRounds rounds 0 = [] := rfl

theorem firstRounds_succ (rounds : ℕ → ℓ) (n : ℕ) : firstRounds rounds (n + 1) = firstRounds rounds n ++ [rounds n] := by
  rw [firstRounds, List.range_succ, List.map_append, firstRounds, List.map_singleton]

/-- The first round, and the first of the rounds after it. -/
theorem firstRounds_succ_eq_cons (rounds : ℕ → ℓ) (n : ℕ) : firstRounds rounds (n + 1) = rounds 0 :: firstRounds (fun i => rounds (i + 1)) n := by
  rw [firstRounds, List.range_succ_eq_map, List.map_cons, List.map_map]
  rfl

theorem forall_mem_firstRounds {P : ℓ → Prop} {n : ℕ} : (∀ l ∈ firstRounds rounds n, P l) ↔ ∀ m < n, P (rounds m) := by
  simp [firstRounds]

theorem loop_cons_again {s s' : σ} {l : ℓ} (h : body s l = .inr s') (ls : List ℓ) : loop body s (l :: ls) = loop body s' ls := by
  simp only [loop, h]

theorem loop_cons_ends {s : σ} {l : ℓ} {a : α} (h : body s l = .inl a) (ls : List ℓ) : loop body s (l :: ls) = .inl a := by
  simp only [loop, h]

/-- More rounds after some that do not end the loop. -/
theorem loop_append {s s' : σ} {ls : List ℓ} (h : loop body s ls = .inr s') (ms : List ℓ) :
    loop body s (ls ++ ms) = loop body s' ms := by
  induction ls generalizing s with
  | nil =>
    cases h
    rfl
  | cons l ls ih =>
    cases hbody : body s l with
    | inl a =>
      rw [loop_cons_ends hbody] at h
      cases h
    | inr t =>
      rw [loop_cons_again hbody] at h
      rw [List.cons_append, loop_cons_again hbody, ih h]

/-- What a round that goes on preserves, rounds that go on preserve. -/
theorem loop_again (hI : ∀ s l s', I s → body s l = .inr s' → I s') {s s' : σ} {ls : List ℓ} (hs : I s)
    (h : loop body s ls = .inr s') : I s' := by
  induction ls generalizing s with
  | nil =>
    cases h
    exact hs
  | cons l ls ih =>
    cases hbody : body s l with
    | inl a =>
      rw [loop_cons_ends hbody] at h
      cases h
    | inr t =>
      rw [loop_cons_again hbody] at h
      exact ih (hI s l t hs hbody) h

/-- A result is what a round gives after some that go on. -/
theorem loop_ends {s : σ} {ls : List ℓ} {a : α} (h : loop body s ls = .inl a) :
    ∃ done l rest s', ls = done ++ l :: rest ∧ loop body s done = .inr s' ∧ body s' l = .inl a := by
  induction ls generalizing s with
  | nil => cases h
  | cons l ls ih =>
    cases hbody : body s l with
    | inl b =>
      rw [loop_cons_ends hbody] at h
      cases h
      exact ⟨[], l, ls, s, rfl, rfl, hbody⟩
    | inr t =>
      rw [loop_cons_again hbody] at h
      obtain ⟨done, l', rest, s', rfl, hdone, hl'⟩ := ih h
      exact ⟨l :: done, l', rest, s', rfl, (loop_cons_again hbody done).trans hdone, hl'⟩

/-- So what each round gives from a state that the rounds before it can leave, the loop gives. -/
theorem loop_result {Q : α → Prop} (hI : ∀ s l s', I s → body s l = .inr s' → I s') (hQ : ∀ s l a, I s → body s l = .inl a → Q a)
    {s : σ} {ls : List ℓ} {a : α} (hs : I s) (h : loop body s ls = .inl a) : Q a := by
  obtain ⟨done, l, rest, s', -, hdone, hl⟩ := loop_ends h
  exact hQ s' l a (loop_again hI hs hdone) hl

/-- What every round keeps of a state, or of the state that its result comes with, the loop keeps. -/
theorem loop_keeps {J : σ → Prop} {state : α → σ} (hJ : ∀ s l, J s → J ((body s l).elim state id)) {s : σ} (hs : J s) (ls : List ℓ) :
    J ((loop body s ls).elim state id) := by
  have hagain : ∀ s l s', J s → body s l = .inr s' → J s' := fun s l s' hs h => by
    have := hJ s l hs
    rwa [h] at this
  cases h : loop body s ls with
  | inl a =>
    refine loop_result (Q := fun a => J (state a)) hagain (fun s l a hs h => ?_) hs h
    have := hJ s l hs
    rwa [h] at this
  | inr s' => exact loop_again hagain hs h

/-- A loop ends in the round that ends it. -/
theorem ends_iff {s : σ} {a : α} :
    Ends body s rounds a ↔ ∃ n s', loop body s (firstRounds rounds n) = .inr s' ∧ body s' (rounds n) = .inl a := by
  constructor
  · rintro ⟨n, h⟩
    induction n with
    | zero => cases h
    | succ n ih =>
      cases hn : loop body s (firstRounds rounds n) with
      | inl b =>
        obtain ⟨done, l, rest, s', hsplit, hdone, hl⟩ := loop_ends hn
        rw [firstRounds_succ, hsplit, List.append_assoc, loop_append hdone, List.cons_append, loop_cons_ends hl] at h
        cases h
        exact ih hn
      | inr s' =>
        rw [firstRounds_succ, loop_append hn] at h
        refine ⟨n, s', hn, ?_⟩
        cases hbody : body s' (rounds n) with
        | inl b =>
          rw [loop_cons_ends hbody] at h
          exact h
        | inr t =>
          rw [loop_cons_again hbody] at h
          cases h
  · rintro ⟨n, s', hn, hbody⟩
    exact ⟨n + 1, by rw [firstRounds_succ, loop_append hn, loop_cons_ends hbody]⟩

/-- Where the state does not decide whether a round goes on, the loop goes on over the rounds that do. -/
theorem loop_again_iff {A : ℓ → Prop} (hI : ∀ s l s', I s → body s l = .inr s' → I s')
    (hA : ∀ s l, I s → ((∃ s', body s l = .inr s') ↔ A l)) {s : σ} {ls : List ℓ} (hs : I s) :
    (∃ s', loop body s ls = .inr s') ↔ ∀ l ∈ ls, A l := by
  induction ls generalizing s with
  | nil => exact ⟨fun _ l hl => absurd hl List.not_mem_nil, fun _ => ⟨s, rfl⟩⟩
  | cons l ls ih =>
    rw [List.forall_mem_cons, ← hA s l hs]
    cases hbody : body s l with
    | inl a =>
      rw [loop_cons_ends hbody]
      exact ⟨fun h => (nomatch h), fun h => (nomatch h.1)⟩
    | inr t =>
      rw [loop_cons_again hbody, ih (hI s l t hs hbody)]
      exact ⟨fun h => ⟨⟨t, rfl⟩, h⟩, fun h => h.2⟩

/-- **A loop ends** if no round raises a measure, and after any round there is one that ends the loop or lowers it. -/
theorem ends_of_measure {m : σ → ℕ} (hI : ∀ s l s', I s → body s l = .inr s' → I s')
    (hle : ∀ s l s', I s → body s l = .inr s' → m s' ≤ m s)
    (hlt : ∀ n, ∃ k, n ≤ k ∧ ∀ s s', I s → body s (rounds k) = .inr s' → m s' < m s) {s : σ} (hs : I s) :
    ∃ a, Ends body s rounds a := by
  by_contra hnot
  have hgoes : ∀ n, ∃ s', loop body s (firstRounds rounds n) = .inr s' := fun n => by
    cases h : loop body s (firstRounds rounds n) with
    | inl a => exact absurd ⟨a, n, h⟩ hnot
    | inr s' => exact ⟨s', rfl⟩
  choose state hstate using hgoes
  have hkept : ∀ n, I (state n) := fun n => loop_again hI hs (hstate n)
  have hstep : ∀ n, body (state n) (rounds n) = .inr (state (n + 1)) := fun n => by
    have h := hstate (n + 1)
    rw [firstRounds_succ, loop_append (hstate n), loop] at h
    cases hbody : body (state n) (rounds n) with
    | inl a =>
      rw [hbody] at h
      cases h
    | inr t =>
      rw [hbody] at h
      exact h
  have hanti : Antitone fun n => m (state n) := antitone_nat_of_succ_le fun n => hle _ _ _ (hkept n) (hstep n)
  -- so the measure falls below any bound
  have hbelow : ∀ c, ∃ n, m (state n) + c ≤ m (state 0) := fun c => by
    induction c with
    | zero => exact ⟨0, le_rfl⟩
    | succ c ih =>
      obtain ⟨n, hn⟩ := ih
      obtain ⟨k, hnk, hk⟩ := hlt n
      have hfall := hk _ _ (hkept k) (hstep k)
      have hmono : m (state k) ≤ m (state n) := hanti hnk
      exact ⟨k + 1, by omega⟩
  obtain ⟨n, hn⟩ := hbelow (m (state 0) + 1)
  omega

end YcsbIvs.Foundations
