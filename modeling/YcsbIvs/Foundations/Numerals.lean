import YcsbIvs.Foundations.SortedMap
import Mathlib.Order.Monotone.Basic
import Mathlib.Tactic.Ring

/-!
# Numerals of one length

A numeral is a list of digits, the first the highest. What a digit is worth is a function `v`, that keeps the order of the digits. Numerals of one length
are in the order of their numbers (`numeral_lt_iff`); zeros before a numeral change nothing. `digitsOf` are the digits of a number, cut to a length
(`numeral_digitsOf`); of the next number they are the same but for the last, or a carry (`digitsOf_succ`, `digitsOf_carry`).
-/

namespace YcsbIvs.Foundations

universe u

variable {α : Type u} [LinearOrder α] {v : α → ℕ} {b : ℕ}

/-- The number of a list of digits, to the base `b`. -/
def numeral (v : α → ℕ) (b : ℕ) (l : List α) : ℕ := l.foldl (fun n c => b * n + v c) 0

omit [LinearOrder α] in
theorem foldl_numeral (l : List α) (n : ℕ) : l.foldl (fun n c => b * n + v c) n = n * b ^ l.length + numeral v b l := by
  induction l generalizing n with
  | nil => simp [numeral]
  | cons c l ih =>
    have hcons : numeral v b (c :: l) = (b * 0 + v c) * b ^ l.length + numeral v b l := by rw [numeral, List.foldl_cons, ih]
    rw [List.foldl_cons, ih, hcons, List.length_cons, Nat.pow_succ]
    ring

omit [LinearOrder α] in
theorem numeral_cons (c : α) (l : List α) : numeral v b (c :: l) = v c * b ^ l.length + numeral v b l := by
  rw [numeral, List.foldl_cons, foldl_numeral, Nat.mul_zero, Nat.zero_add]

omit [LinearOrder α] in
/-- Zeros before a numeral change nothing. -/
theorem numeral_zeros {z : α} (hz : v z = 0) (k : ℕ) (l : List α) : numeral v b (List.replicate k z ++ l) = numeral v b l := by
  induction k with
  | zero => rfl
  | succ k ih => rw [List.replicate_succ, List.cons_append, numeral_cons, ih, hz, Nat.zero_mul, Nat.zero_add]

omit [LinearOrder α] in
theorem numeral_lt {l : List α} (h : ∀ c ∈ l, v c < b) : numeral v b l < b ^ l.length := by
  induction l with
  | nil => exact Nat.one_pos
  | cons c l ih =>
    obtain ⟨hc, hl⟩ := List.forall_mem_cons.mp h
    have hrest := ih hl
    have hmul : (v c + 1) * b ^ l.length ≤ b * b ^ l.length := Nat.mul_le_mul_right _ hc
    rw [numeral_cons, List.length_cons, Nat.pow_succ, Nat.mul_comm (b ^ l.length)]
    rw [Nat.add_mul, Nat.one_mul] at hmul
    omega

/-- **Numerals of one length are in the order of their numbers.** -/
theorem numeral_lt_iff {S : Set α} (hmono : StrictMonoOn v S) (hb : ∀ c ∈ S, v c < b) {l m : List α} (hlength : l.length = m.length)
    (hl : ∀ c ∈ l, c ∈ S) (hm : ∀ c ∈ m, c ∈ S) : numeral v b l < numeral v b m ↔ l < m := by
  induction l generalizing m with
  | nil =>
    obtain rfl := List.length_eq_zero_iff.mp hlength.symm
    exact ⟨fun h => absurd h (lt_irrefl _), fun h => absurd h (lt_irrefl _)⟩
  | cons c l ih =>
    cases m with
    | nil => cases hlength
    | cons d m =>
      obtain ⟨hc, hl⟩ := List.forall_mem_cons.mp hl
      obtain ⟨hd, hm⟩ := List.forall_mem_cons.mp hm
      have hlength := Nat.succ.inj hlength
      have hlow := numeral_lt (v := v) (b := b) fun c hc => hb c (hl c hc)
      have hlow' := numeral_lt (v := v) (b := b) fun c hc => hb c (hm c hc)
      rw [numeral_cons, numeral_cons, List.cons_lt_cons_iff, ← ih hlength hl hm, hlength]
      rw [hlength] at hlow
      rcases lt_trichotomy c d with hlt | rfl | hgt
      · -- the first digit decides
        have hmul := Nat.mul_le_mul_right (b ^ m.length) (hmono hc hd hlt)
        rw [Nat.succ_mul] at hmul
        exact ⟨fun _ => .inl hlt, fun _ => by omega⟩
      · simp
      · have hmul := Nat.mul_le_mul_right (b ^ m.length) (hmono hd hc hgt)
        rw [Nat.succ_mul] at hmul
        constructor
        · intro h
          omega
        · rintro (h | ⟨rfl, -⟩)
          · exact absurd h hgt.asymm
          · exact absurd hgt (lt_irrefl _)

/-! ### The digits of a number -/

/-- The last `k` digits of `n`, to the base `b`. -/
def digitsOf (b : ℕ) : ℕ → ℕ → List ℕ
  | 0, _ => []
  | k + 1, n => digitsOf b k (n / b) ++ [n % b]

@[simp] theorem length_digitsOf (b k n : ℕ) : (digitsOf b k n).length = k := by
  induction k generalizing n with
  | zero => rfl
  | succ k ih => rw [digitsOf, List.length_append, ih, List.length_singleton]

theorem digitsOf_zero (b k : ℕ) : digitsOf b k 0 = List.replicate k 0 := by
  induction k with
  | zero => rfl
  | succ k ih => rw [digitsOf, Nat.zero_div, Nat.zero_mod, ih, List.replicate_succ']

theorem digitsOf_lt {b k n d : ℕ} (hb : 0 < b) (hd : d ∈ digitsOf b k n) : d < b := by
  induction k generalizing n with
  | zero => exact absurd hd List.not_mem_nil
  | succ k ih =>
    obtain hd | hd := List.mem_append.mp hd
    · exact ih hd
    · rw [List.mem_singleton.mp hd]
      exact Nat.mod_lt n hb

/-- They stand for what is left of `n`. -/
theorem numeral_digitsOf (b k n : ℕ) : numeral id b (digitsOf b k n) = n % b ^ k := by
  induction k generalizing n with
  | zero => exact (Nat.mod_one n).symm
  | succ k ih =>
    have hlast : numeral id b (digitsOf b k (n / b) ++ [n % b]) = b * numeral id b (digitsOf b k (n / b)) + n % b := List.foldl_append
    rw [digitsOf, hlast, ih, Nat.pow_succ', Nat.mod_mul, Nat.add_comm]

/-- Numbers that are not cut are told apart. -/
theorem digitsOf_inj {b k m n : ℕ} (hm : m < b ^ k) (hn : n < b ^ k) (h : digitsOf b k m = digitsOf b k n) : m = n := by
  have hnumeral := congrArg (numeral id b) h
  rwa [numeral_digitsOf, numeral_digitsOf, Nat.mod_eq_of_lt hm, Nat.mod_eq_of_lt hn] at hnumeral

theorem not_dvd_succ {b n : ℕ} (h : n % b + 1 < b) : ¬b ∣ n + 1 := by
  intro hdvd
  have hmod := Nat.mod_eq_zero_of_dvd hdvd
  rw [Nat.add_mod, Nat.mod_eq_of_lt (show 1 < b by omega), Nat.mod_eq_of_lt h] at hmod
  omega

theorem succ_eq_mul {b n : ℕ} (h : n % b + 1 = b) : n + 1 = b * (n / b + 1) := by
  have hdivision := Nat.div_add_mod n b
  rw [Nat.mul_add, Nat.mul_one]
  omega

/-- Without a carry. -/
theorem digitsOf_succ {b n : ℕ} (h : n % b + 1 < b) (k : ℕ) : digitsOf b (k + 1) (n + 1) = digitsOf b k (n / b) ++ [n % b + 1] := by
  rw [digitsOf, Nat.succ_div_of_not_dvd (not_dvd_succ h), Nat.add_mod, Nat.mod_eq_of_lt (show 1 < b by omega), Nat.mod_eq_of_lt h]

/-- With a carry. -/
theorem digitsOf_carry {b n : ℕ} (h : n % b + 1 = b) (k : ℕ) : digitsOf b (k + 1) (n + 1) = digitsOf b k (n / b + 1) ++ [0] := by
  have hdvd : b ∣ n + 1 := ⟨_, succ_eq_mul h⟩
  rw [digitsOf, Nat.succ_div_of_dvd hdvd, Nat.mod_eq_zero_of_dvd hdvd]

/-- A carry is lost if it is lost by the digits before the last. -/
theorem pow_succ_dvd_succ {b n : ℕ} (h : n % b + 1 = b) (k : ℕ) : b ^ (k + 1) ∣ n + 1 ↔ b ^ k ∣ n / b + 1 := by
  rw [succ_eq_mul h, Nat.pow_succ', Nat.mul_dvd_mul_iff_left (by omega)]

end YcsbIvs.Foundations
