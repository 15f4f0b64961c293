import YcsbIvs.Foundations.Numerals
import YcsbIvs.Workloads.KeyNumbers

/-!
# The order of key names

`buildKeyName` pads the number of a key with zeros. Names of ordered keys, padded to one length, are in the order of their numbers
(`buildKeyName_lt_iff`).
-/

namespace YcsbIvs.Workloads

open YcsbIvs.Foundations

/-- What a digit is worth. -/
def digitValue (c : UInt16) : ℕ := c.toNat - 0x30

/-- The digits. -/
def Digit (c : UInt16) : Prop := 0x30 ≤ c.toNat ∧ c.toNat ≤ 0x39

theorem strictMonoOn_digitValue : StrictMonoOn digitValue {c | Digit c} := by
  intro c hc d hd hlt
  have hlt : c.toNat < d.toNat := UInt16.lt_iff_toNat_lt.mp hlt
  simp only [Set.mem_ofPred_eq, Digit] at hc hd
  simp only [digitValue]
  omega

theorem digitValue_lt : ∀ c ∈ {c | Digit c}, digitValue c < 10 := by
  intro c hc
  simp only [Set.mem_ofPred_eq, Digit] at hc
  simp only [digitValue]
  omega

theorem toNat_ofNat_of_isDigit {c : Char} (h : c.isDigit = true) : (UInt16.ofNat c.toNat).toNat = c.toNat ∧ 0x30 ≤ c.toNat ∧ c.toNat ≤ 0x39 := by
  simp only [Char.isDigit, Bool.and_eq_true, decide_eq_true_eq] at h
  have hge : 48 ≤ c.toNat := h.1
  have hle : c.toNat ≤ 57 := h.2
  rw [UInt16.toNat_ofNat']
  omega

section

variable {n : ℤ}

theorem longToString_of_nonneg (h : 0 ≤ n) : longToString n = (Nat.toDigits 10 n.natAbs).map fun c => UInt16.ofNat c.toNat :=
  if_neg (not_lt.mpr h)

theorem digit_longToString (h : 0 ≤ n) : ∀ c ∈ longToString n, Digit c := by
  intro c hc
  rw [longToString_of_nonneg h] at hc
  obtain ⟨a, ha, rfl⟩ := List.mem_map.mp hc
  obtain ⟨heq, hge, hle⟩ := toNat_ofNat_of_isDigit (Nat.isDigit_of_mem_toDigits (by decide) (by decide) ha)
  unfold Digit
  omega

/-- A string of digits is a numeral of its number. -/
theorem numeral_longToString (h : 0 ≤ n) : numeral digitValue 10 (longToString n) = n.natAbs := by
  have hfold : ∀ (l : List Char) (m : ℕ), (∀ c ∈ l, c.isDigit = true) →
      (l.map fun c => UInt16.ofNat c.toNat).foldl (fun n c => 10 * n + digitValue c) m = Nat.ofDigitChars 10 l m := by
    intro l
    induction l with
    | nil => exact fun m _ => Nat.ofDigitChars_nil.symm
    | cons c l ih =>
      intro m hall
      obtain ⟨hc, hl⟩ := List.forall_mem_cons.mp hall
      rw [List.map_cons, List.foldl_cons, ih _ hl, Nat.ofDigitChars_cons, digitValue, (toNat_ofNat_of_isDigit hc).1]
      rfl
  rw [longToString_of_nonneg h, numeral, hfold _ _ fun c hc => Nat.isDigit_of_mem_toDigits (by decide) (by decide) hc,
    Nat.ofDigitChars_toDigits (by decide) (by decide)]

/-- How many digits there are. -/
theorem length_longToString_le_iff (h : 0 ≤ n) {k : ℕ} (hk : 0 < k) : (longToString n).length ≤ k ↔ n < 10 ^ k := by
  rw [longToString_of_nonneg h, List.length_map, Nat.length_toDigits_le_iff (by decide) hk]
  have hcast : ((10 ^ k : ℕ) : ℤ) = 10 ^ k := by norm_cast
  omega

/-- **Names of ordered keys, padded to one length, are in the order of their numbers.** -/
theorem buildKeyName_lt_iff {m zeropadding : ℤ} (hn : 0 ≤ n) (hm : 0 ≤ m) (hn' : (longToString n).length ≤ zeropadding)
    (hm' : (longToString m).length ≤ zeropadding) :
    buildKeyName n zeropadding true < buildKeyName m zeropadding true ↔ n < m := by
  have hzero : Digit 0x30 := ⟨le_rfl, by decide⟩
  have hworth : digitValue 0x30 = 0 := rfl
  have hdigits : ∀ {j : ℤ}, 0 ≤ j → ∀ c ∈ List.replicate (zeropadding - (longToString j).length).toNat 0x30 ++ longToString j, Digit c := by
    intro j hj c hc
    rcases List.mem_append.mp hc with hc | hc
    · exact List.eq_of_mem_replicate hc ▸ hzero
    · exact digit_longToString hj c hc
  simp only [buildKeyName, if_true, List.append_assoc]
  rw [append_lt_append_left_iff, ← numeral_lt_iff strictMonoOn_digitValue digitValue_lt (by
    rw [List.length_append, List.length_append, List.length_replicate, List.length_replicate]
    omega) (hdigits hn) (hdigits hm), numeral_zeros hworth, numeral_zeros hworth, numeral_longToString hn, numeral_longToString hm]
  omega

end

/-- The numbers that are padded to one length. -/
def paddedNumbers (zeropadding : ℤ) : Set ℤ := {n | 0 ≤ n ∧ (longToString n).length ≤ zeropadding}

/-- **The names of ordered keys are told apart and keep the order of their numbers**, and so none comes between those of a number and the next. -/
theorem buildKeyName_keeps_order (zeropadding : ℤ) :
    Set.InjOn (fun n => buildKeyName n zeropadding true) (paddedNumbers zeropadding) ∧
      (∀ n ∈ paddedNumbers zeropadding, ∀ m ∈ paddedNumbers zeropadding,
        n < m ↔ buildKeyName n zeropadding true < buildKeyName m zeropadding true) ∧
      ∀ n ∈ paddedNumbers zeropadding, n + 1 ∈ paddedNumbers zeropadding → ∀ m ∈ paddedNumbers zeropadding,
        buildKeyName n zeropadding true < buildKeyName m zeropadding true → buildKeyName (n + 1) zeropadding true ≤ buildKeyName m zeropadding true := by
  have hlt : ∀ n ∈ paddedNumbers zeropadding, ∀ m ∈ paddedNumbers zeropadding,
      (n < m ↔ buildKeyName n zeropadding true < buildKeyName m zeropadding true) :=
    fun n hn m hm => (buildKeyName_lt_iff hn.1 hm.1 hn.2 hm.2).symm
  refine ⟨fun n hn m hm heq => ?_, hlt, fun n hn hnext m hm h => ?_⟩
  · -- a name is not before itself
    have heq : buildKeyName n zeropadding true = buildKeyName m zeropadding true := heq
    have hnone : ¬ n < m := fun h => lt_irrefl m ((hlt m hm m hm).mpr (heq ▸ (hlt n hn m hm).mp h))
    have hnone' : ¬ m < n := fun h => lt_irrefl m ((hlt m hm m hm).mpr (heq ▸ (hlt m hm n hn).mp h))
    omega
  · have hle : ¬ m < n + 1 := not_lt.mpr ((hlt n hn m hm).mpr h)
    exact not_lt.mp fun hbefore => hle ((hlt m hm (n + 1) hnext).mpr hbefore)

/-- 5 and 12, with eight digits. -/
theorem buildKeyName_keeps_order_five : buildKeyName 5 8 true < buildKeyName 12 8 true :=
  ((buildKeyName_keeps_order 8).2.1 5 ⟨by decide, by decide⟩ 12 ⟨by decide, by decide⟩).mp (by decide)

end YcsbIvs.Workloads
