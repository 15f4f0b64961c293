import Mathlib.Algebra.BigOperators.Group.List.Basic
import Mathlib.Algebra.Order.BigOperators.Group.List
import Mathlib.Algebra.Ring.Nat
import Mathlib.Data.List.Forall2
import Mathlib.Tactic.SplitIfs

/-!
# Odometers

Digits with a radix each, the last digit the fastest. `number` is the number the digits
stand for: it is below the product of the radices, and each such number is that of one list of digits
(`number_lt`, `number_inj`, `exists_number_eq`). `bump` counts on by one, and gives nothing when all digits
are at their greatest (`bump_some`, `bump_none`).
-/

namespace YcsbIvs.Foundations

/-- Each digit is below its radix. -/
def IsDigits (radices digits : List ℕ) : Prop := List.Forall₂ (fun r d => d < r) radices digits

/-- The number the digits stand for. -/
def number : List ℕ → List ℕ → ℕ
  | _ :: radices, d :: digits => d * radices.prod + number radices digits
  | _, _ => 0

/-- As many zeros as there are radices. -/
def zeros (radices : List ℕ) : List ℕ := radices.map fun _ => 0

@[simp] theorem zeros_nil : zeros [] = [] := rfl

@[simp] theorem zeros_cons (r : ℕ) (radices : List ℕ) : zeros (r :: radices) = 0 :: zeros radices := rfl

@[simp] theorem length_zeros (radices : List ℕ) : (zeros radices).length = radices.length := List.length_map _

@[simp] theorem zeros_append (radices radices' : List ℕ) : zeros (radices ++ radices') = zeros radices ++ zeros radices' :=
  List.map_append

theorem zeros_eq_replicate (radices : List ℕ) : zeros radices = List.replicate radices.length 0 := List.map_const' ..

theorem number_replicate (radices : List ℕ) (n : ℕ) : number radices (List.replicate n 0) = 0 := by
  induction radices generalizing n with
  | nil => rfl
  | cons r radices ih =>
    cases n with
    | zero => rfl
    | succ n => rw [List.replicate_succ, number, ih, Nat.zero_mul]

@[simp] theorem number_zeros (radices : List ℕ) : number radices (zeros radices) = 0 := by
  rw [zeros_eq_replicate, number_replicate]

theorem isDigits_zeros {radices : List ℕ} (h : ∀ r ∈ radices, 0 < r) : IsDigits radices (zeros radices) := by
  induction radices with
  | nil => exact .nil
  | cons r radices ih =>
    exact .cons (h r List.mem_cons_self) (ih fun r' hr' => h r' (List.mem_cons_of_mem _ hr'))

theorem number_lt {radices digits : List ℕ} (h : IsDigits radices digits) : number radices digits < radices.prod := by
  induction h with
  | nil => simp [number]
  | @cons r d radices digits hd _ ih =>
    rw [number, List.prod_cons]
    calc d * radices.prod + number radices digits < d * radices.prod + radices.prod := by omega
      _ = (d + 1) * radices.prod := by rw [Nat.add_mul, Nat.one_mul]
      _ ≤ r * radices.prod := Nat.mul_le_mul_right _ hd

/-- Digits are told apart by their numbers. -/
theorem number_inj {radices digits digits' : List ℕ} (h : IsDigits radices digits) (h' : IsDigits radices digits')
    (heq : number radices digits = number radices digits') : digits = digits' := by
  induction h generalizing digits' with
  | nil =>
    cases h'
    rfl
  | @cons r d radices digits _ hds ih =>
    obtain ⟨d', digits', _, hds', rfl⟩ := List.forall₂_cons_left_iff.mp h'
    have hlt := number_lt hds
    have hlt' := number_lt hds'
    have hpos : 0 < radices.prod := by omega
    simp only [number] at heq
    -- The first digit is the quotient, and the rest the remainder.
    have hquot : d = d' := by
      have hdiv := congrArg (· / radices.prod) heq
      simp only [Nat.mul_comm _ radices.prod, Nat.mul_add_div hpos, Nat.div_eq_of_lt hlt, Nat.div_eq_of_lt hlt', Nat.add_zero] at hdiv
      exact hdiv
    subst hquot
    rw [ih hds' (Nat.add_left_cancel heq)]

/-- Each number below the product is that of some digits. -/
theorem exists_number_eq {radices : List ℕ} (hpos : ∀ r ∈ radices, 0 < r) {n : ℕ} (hn : n < radices.prod) :
    ∃ digits, IsDigits radices digits ∧ number radices digits = n := by
  induction radices generalizing n with
  | nil => exact ⟨[], .nil, by rw [List.prod_nil] at hn; simp only [number]; omega⟩
  | cons r radices ih =>
    obtain ⟨-, hrest⟩ := List.forall_mem_cons.mp hpos
    have hprod : 0 < radices.prod := (Nat.zero_le _).trans_lt (number_lt (isDigits_zeros hrest))
    -- The first digit is the quotient, and the others stand for the remainder.
    obtain ⟨digits, hdigits, hnumber⟩ := ih hrest (Nat.mod_lt n hprod)
    rw [List.prod_cons] at hn
    refine ⟨n / radices.prod :: digits, .cons (Nat.div_lt_of_lt_mul (by rwa [Nat.mul_comm] at hn)) hdigits, ?_⟩
    rw [number, hnumber, Nat.mul_comm, Nat.div_add_mod]

/-- The digits of two parts of the radices. -/
theorem IsDigits.split {radices radices' digits : List ℕ} (h : IsDigits (radices ++ radices') digits) :
    ∃ front back, digits = front ++ back ∧ IsDigits radices front ∧ IsDigits radices' back := by
  induction radices generalizing digits with
  | nil => exact ⟨[], digits, rfl, .nil, h⟩
  | cons r radices ih =>
    obtain ⟨d, digits, hd, hds, rfl⟩ := List.forall₂_cons_left_iff.mp h
    obtain ⟨front, back, rfl, hfront, hback⟩ := ih hds
    exact ⟨d :: front, back, rfl, .cons hd hfront, hback⟩

theorem IsDigits.length_eq {radices digits : List ℕ} (h : IsDigits radices digits) : radices.length = digits.length :=
  List.Forall₂.length_eq h

theorem IsDigits.getD_lt {radices digits : List ℕ} (h : IsDigits radices digits) {i : ℕ} (hi : i < radices.length) :
    digits.getD i 0 < radices.getD i 1 := by
  induction h generalizing i with
  | nil => exact absurd hi (Nat.not_lt_zero i)
  | @cons r e radices digits he hds ih =>
    cases i with
    | zero => exact he
    | succ i => exact ih (Nat.lt_of_succ_lt_succ hi)

/-- A digit can be set to another one below its radix. -/
theorem IsDigits.set {radices digits : List ℕ} (h : IsDigits radices digits) {i d : ℕ} (hd : d < radices.getD i 1) :
    IsDigits radices (digits.set i d) := by
  induction h generalizing i with
  | nil => exact .nil
  | @cons r e radices digits he hds ih =>
    cases i with
    | zero => exact .cons hd hds
    | succ i => exact .cons he (ih hd)

/-! ### Counting -/

/-- The next digits, if not all are at their greatest. -/
def bump : List ℕ → List ℕ → Option (List ℕ)
  | r :: radices, d :: digits =>
    match bump radices digits with
    | some digits => some (d :: digits)
    | none => if d + 1 < r then some ((d + 1) :: zeros radices) else none
  | _, _ => none

/-- When it is over the number is the greatest. -/
theorem bump_none {radices digits : List ℕ} (h : IsDigits radices digits) (hbump : bump radices digits = none) :
    number radices digits + 1 = radices.prod := by
  induction h with
  | nil => rfl
  | @cons r d radices digits hd _ ih =>
    rw [bump] at hbump
    split at hbump
    · cases hbump
    · next htail =>
      split_ifs at hbump with hlt
      obtain rfl : r = d + 1 := by omega
      rw [number, Nat.add_assoc, ih htail, List.prod_cons, Nat.add_mul, Nat.one_mul]

theorem IsDigits.pos {radices digits : List ℕ} (h : IsDigits radices digits) : ∀ r ∈ radices, 0 < r := by
  induction h with
  | nil => exact fun r hr => nomatch hr
  | @cons r d radices digits hd _ ih => exact List.forall_mem_cons.mpr ⟨by omega, ih⟩

/-- Counting stands for adding one. -/
theorem bump_some {radices digits digits' : List ℕ} (h : IsDigits radices digits) (hbump : bump radices digits = some digits') :
    IsDigits radices digits' ∧ number radices digits' = number radices digits + 1 := by
  induction h generalizing digits' with
  | nil => cases hbump
  | @cons r d radices digits hd hds ih =>
    rw [bump] at hbump
    split at hbump
    · next digits₁ htail =>
      cases hbump
      obtain ⟨hdigits₁, hnumber⟩ := ih htail
      refine ⟨.cons hd hdigits₁, ?_⟩
      rw [number, number, hnumber, Nat.add_assoc]
    · next htail =>
      split_ifs at hbump with hlt
      cases hbump
      refine ⟨.cons hlt (isDigits_zeros (IsDigits.pos hds)), ?_⟩
      rw [number, number, number_zeros, Nat.add_assoc, bump_none hds htail, Nat.add_mul, Nat.one_mul, Nat.add_zero]

/-- The last digit is the fastest. -/
theorem bump_concat {radices digits : List ℕ} (h : radices.length = digits.length) (r d : ℕ) :
    bump (radices ++ [r]) (digits ++ [d]) =
      if d + 1 < r then some (digits ++ [d + 1]) else (bump radices digits).map (· ++ [0]) := by
  induction radices generalizing digits with
  | nil =>
    obtain rfl : digits = [] := List.length_eq_zero_iff.mp h.symm
    simp [bump]
  | cons r' radices ih =>
    cases digits with
    | nil => cases h
    | cons d' digits =>
      rw [List.cons_append, List.cons_append, bump, ih (Nat.succ.inj h)]
      by_cases hlt : d + 1 < r
      · rw [if_pos hlt, if_pos hlt]
        rfl
      · rw [if_neg hlt, if_neg hlt]
        simp only [bump]
        cases bump radices digits with
        | some digits' => rfl
        | none =>
          by_cases hlt' : d' + 1 < r'
          · simp [hlt']
          · simp [hlt']

end YcsbIvs.Foundations
