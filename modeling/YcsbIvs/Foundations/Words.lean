import Mathlib.Algebra.Ring.Int.Defs
import Mathlib.Algebra.Ring.Nat
import Mathlib.Data.Int.Order.Basic
import Mathlib.Tactic.SplitIfs

/-!
# Words

Signed machine words of 32 and 64 bits, kept as integers: `asInt` and `asLong`
are the casts to the two widths, `putInt` and `getInt` the four big-endian bytes
of a word of 32 bits.

A value that fits is unchanged by the cast (`asInt_of_fits`), and a cast value is
unchanged only if it fits (`asInt_eq_self`).
-/

namespace YcsbIvs.Foundations

/-! ### Casts -/

/-- The integer a signed word of 32 bits keeps of `x`. -/
def asInt (x : ℤ) : ℤ := (x + 2 ^ 31) % 2 ^ 32 - 2 ^ 31

/-- The integer a signed word of 64 bits keeps of `x`. -/
def asLong (x : ℤ) : ℤ := (x + 2 ^ 63) % 2 ^ 64 - 2 ^ 63

/-- `x` fits in a signed word of 32 bits. -/
def FitsInt (x : ℤ) : Prop := -2 ^ 31 ≤ x ∧ x < 2 ^ 31

/-- `x` fits in a signed word of 64 bits. -/
def FitsLong (x : ℤ) : Prop := -2 ^ 63 ≤ x ∧ x < 2 ^ 63

instance (x : ℤ) : Decidable (FitsInt x) := inferInstanceAs (Decidable (_ ∧ _))

instance (x : ℤ) : Decidable (FitsLong x) := inferInstanceAs (Decidable (_ ∧ _))

/-- A signed word of 32 bits. -/
abbrev Word := {n : ℤ // FitsInt n}

theorem fitsInt_asInt (x : ℤ) : FitsInt (asInt x) := by
  unfold FitsInt asInt
  omega

/-- The word that keeps `n`. -/
def Word.of (n : ℤ) : Word := ⟨asInt n, fitsInt_asInt n⟩

theorem asInt_of_fits {x : ℤ} (h : FitsInt x) : asInt x = x := by
  unfold FitsInt at h
  unfold asInt
  omega

theorem asInt_eq_self {x : ℤ} : asInt x = x ↔ FitsInt x :=
  ⟨fun h => h ▸ fitsInt_asInt x, asInt_of_fits⟩

/-- A term may be cast before the sum is. -/
theorem asInt_asInt_add (x y : ℤ) : asInt (asInt x + y) = asInt (x + y) := by
  unfold asInt
  omega

/-- A factor may be cast before the product is. -/
theorem asInt_asInt_mul (x y : ℤ) : asInt (asInt x * y) = asInt (x * y) := by
  have hcast : asInt x = x - 2 ^ 32 * ((x + 2 ^ 31) / 2 ^ 32) := by
    unfold asInt
    omega
  rw [hcast, Int.sub_mul, Int.mul_assoc]
  generalize (x + 2 ^ 31) / 2 ^ 32 * y = k
  unfold asInt
  omega

theorem fitsLong_asLong (x : ℤ) : FitsLong (asLong x) := by
  unfold FitsLong asLong
  omega

theorem asLong_of_fits {x : ℤ} (h : FitsLong x) : asLong x = x := by
  unfold FitsLong at h
  unfold asLong
  omega

theorem asLong_asLong_add (x y : ℤ) : asLong (asLong x + y) = asLong (x + y) := by
  unfold asLong
  omega

theorem asLong_add_asLong (x y : ℤ) : asLong (x + asLong y) = asLong (x + y) := by
  unfold asLong
  omega

theorem asLong_asLong_sub (x y : ℤ) : asLong (asLong x - y) = asLong (x - y) :=
  asLong_asLong_add x (-y)

/-- The low 32 bits are those of the low 64. -/
theorem asInt_asLong (x : ℤ) : asInt (asLong x) = asInt x := by
  unfold asInt asLong
  omega

/-! ### Big-endian bytes -/

/-- The four bytes of the word that keeps `n`, most significant first. -/
def putInt (n : ℤ) : List UInt8 :=
  let w := (n % 2 ^ 32).toNat
  [UInt8.ofNat (w / 2 ^ 24), UInt8.ofNat (w / 2 ^ 16), UInt8.ofNat (w / 2 ^ 8), UInt8.ofNat w]

/-- The word of four bytes, most significant first. -/
def getInt (b₀ b₁ b₂ b₃ : UInt8) : ℤ :=
  asInt (b₀.toNat * 2 ^ 24 + b₁.toNat * 2 ^ 16 + b₂.toNat * 2 ^ 8 + b₃.toNat)

@[simp] theorem length_putInt (n : ℤ) : (putInt n).length = 4 := rfl

/-- The bytes of a number that fits read back as the number. -/
theorem getInt_putInt {n : ℤ} (h : FitsInt n) :
    ∃ b₀ b₁ b₂ b₃, putInt n = [b₀, b₁, b₂, b₃] ∧ getInt b₀ b₁ b₂ b₃ = n := by
  refine ⟨_, _, _, _, rfl, ?_⟩
  unfold FitsInt at h
  simp only [getInt, asInt, UInt8.toNat_ofNat']
  omega

end YcsbIvs.Foundations
