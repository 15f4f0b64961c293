import Mathlib

/-!
# Doubles

A number of 64 bits that is compared with a double is cast to one first. The cast rounds to the nearest double,
and of two that are as near to the even one; `Float` and its model are those of the language.

What a cast gives is a number, and so equal to itself (`longToDouble_beq_self`).
-/

namespace YcsbIvs.Foundations

open Float.Model Float.Model.UnpackedFloat

/-- `(double) n`. -/
def longToDouble (n : ℤ) : Float := .ofModel (.ofInt n)

/-- The bits of a number are those of a number. -/
theorem unpack_pack_ne_nan {u : UnpackedFloat} (h : u ≠ .notANumber) :
    UnpackedFloat.unpack Format.binary64 (UnpackedFloat.pack Format.binary64 u) ≠ .notANumber := by
  rw [UnpackedFloat.unpack]
  simp only
  split_ifs with hexp hmantissa hzero hmantissa <;> first | exact UnpackedFloat.noConfusion | skip
  -- all bits of the exponent are set, and so it is infinite
  refine absurd ?_ hmantissa
  cases u with
  | notANumber => exact absurd rfl h
  | infinity s => simp [UnpackedFloat.pack, packedInfinity]
  | zero s => simp [UnpackedFloat.pack, packedZero]
  | finite s m e hm =>
    rw [UnpackedFloat.pack] at hexp ⊢
    dsimp only at hexp ⊢
    split_ifs at hexp ⊢ with hover hnormal
    · simp [packedInfinity]
    · rw [unpackExponent_packComponents] at hexp
      have hval := congrArg BitVec.toNat hexp
      rw [BitVec.toNat_ofNat, Nat.mod_eq_of_lt (by omega), show (-1#11).toNat = 2047 from rfl] at hval
      omega
    · rw [unpackExponent_packComponents] at hexp
      exact absurd hexp (by decide)

theorem roundWithAccuracy_ne_nan (spec : Format) (s : Sign) (m : ℕ) (e : ℤ) (a : Accuracy) :
    roundWithAccuracy spec s m e a ≠ .notANumber := by
  rw [roundWithAccuracy]
  dsimp only
  split_ifs <;> exact UnpackedFloat.noConfusion

theorem ofInt_ne_nan (n : ℤ) : UnpackedFloat.ofInt Format.binary64 n ≠ .notANumber := by
  rw [UnpackedFloat.ofInt, UnpackedFloat.normalize]
  cases compare n 0 with
  | lt => exact roundWithAccuracy_ne_nan _ _ _ _ _
  | eq => exact UnpackedFloat.noConfusion
  | gt => exact roundWithAccuracy_ne_nan _ _ _ _ _

theorem longToDouble_beq_self (n : ℤ) : (longToDouble n == longToDouble n) = true :=
  have hnumber := unpack_pack_ne_nan (ofInt_ne_nan n)
  (beq_iff_ne_notANumber_and_eq _ _).mpr ⟨hnumber, hnumber, .inl rfl⟩

end YcsbIvs.Foundations
