import Mathlib.Analysis.SpecialFunctions.Pow.Real

/-!
# Arithmetic of doubles

What a program does to its doubles is a parameter: the operations of an `Arithmetic`. What holds of the program in any arithmetic holds of it in that of the
machine; what holds of it only where nothing is rounded is said of the arithmetics `rationals` and `reals`.

In `reals` a double is a real number, or nothing where an operation does not give one, as for a division by zero. Of nothing, nothing is made; it is not less
than any number, and cast to zero.
-/

namespace YcsbIvs.Foundations

/-- The operations of the language on doubles. -/
structure FieldArithmetic (D : Type) where
  /-- A literal, or a number cast to a double. -/
  ofRat : ℚ → D
  /-- `-x`. -/
  neg : D → D
  /-- `x + y`. -/
  add : D → D → D
  /-- `x - y`. -/
  sub : D → D → D
  /-- `x * y`. -/
  mul : D → D → D
  /-- `x / y`. -/
  div : D → D → D
  /-- `x < y`. -/
  lt : D → D → Bool

/-- Those of its library as well. -/
structure Arithmetic (D : Type) extends FieldArithmetic D where
  /-- `Math.pow(x, y)`. -/
  pow : D → D → D
  /-- `Math.log(x)`. -/
  log : D → D
  /-- `(long) x`. -/
  toLong : D → ℤ

/-- Exact rationals, for what does not divide by zero. -/
def rationals : FieldArithmetic ℚ where
  ofRat q := q
  neg x := -x
  add x y := x + y
  sub x y := x - y
  mul x y := x * y
  div x y := x / y
  lt x y := decide (x < y)

/-- A power has a real value. -/
def HasPower (x y : ℝ) : Prop := 0 < x ∨ (x = 0 ∧ 0 ≤ y) ∨ (x < 0 ∧ ∃ k : ℤ, y = k)

open scoped Classical in
/-- Exact arithmetic. -/
noncomputable def reals : Arithmetic (Option ℝ) where
  ofRat q := some q
  neg x := x.map fun x => -x
  add x y := x.bind fun x => y.map fun y => x + y
  sub x y := x.bind fun x => y.map fun y => x - y
  mul x y := x.bind fun x => y.map fun y => x * y
  div x y := x.bind fun x => y.bind fun y => if y = 0 then none else some (x / y)
  pow x y := x.bind fun x => y.bind fun y => if HasPower x y then some (x ^ y) else none
  log x := x.bind fun x => if 0 < x then some (Real.log x) else none
  lt x y := match x, y with
    | some x, some y => decide (x < y)
    | _, _ => false
  toLong x := match x with
    | some x => max (-2 ^ 63) (min (2 ^ 63 - 1) (if 0 ≤ x then ⌊x⌋ else ⌈x⌉))
    | none => 0

namespace reals

@[simp] theorem ofRat_eq (q : ℚ) : reals.ofRat q = some (q : ℝ) := rfl

@[simp] theorem add_some (x y : ℝ) : reals.add (some x) (some y) = some (x + y) := rfl

@[simp] theorem sub_some (x y : ℝ) : reals.sub (some x) (some y) = some (x - y) := rfl

@[simp] theorem mul_some (x y : ℝ) : reals.mul (some x) (some y) = some (x * y) := rfl

theorem div_zero (x : Option ℝ) : reals.div x (some 0) = none := by
  cases x with
  | none => rfl
  | some x => exact if_pos rfl

theorem div_some (x : ℝ) {y : ℝ} (h : y ≠ 0) : reals.div (some x) (some y) = some (x / y) := if_neg h

theorem pow_some {x : ℝ} (h : 0 < x) (y : ℝ) : reals.pow (some x) (some y) = some (x ^ y) := if_pos (.inl h)

end reals

end YcsbIvs.Foundations
