import Mathlib.Data.List.Basic
import Mathlib.Data.Nat.Init
import Mathlib.Order.Basic
import Mathlib.Tactic.SplitIfs

/-!
# UTF-16 strings and UTF-8 bytes

A string is a list of UTF-16 code units. `encode` writes it as UTF-8, a surrogate
that is not part of a pair as `?`. `decode` reads bytes as UTF-8 the way a
replacing decoder does: a malformed sequence becomes one `U+FFFD`, and how many
bytes belong to it is decided by its first bytes (`decodeOne`).

What is proved:

- a string whose surrogates are all paired (`WellFormed`) is read back as it was
  written (`decode_encode`), so two such strings with the same bytes are the same
  (`encode_inj`);
- bytes below `0x80` are read one by one (`decode_ascii`);
- what is read is well formed, whatever the bytes (`wellFormed_decode`), and not longer than they are (`length_decode_le`);
- any string is written as one that is well formed, which is what is read of it (`encode_scrub`, `decode_encode_scrub`).
-/

namespace YcsbIvs.Foundations

/-- A string: its UTF-16 code units. -/
abbrev Utf16 := List UInt16

/-- A string of ASCII characters. -/
def ascii (s : String) : Utf16 := s.toList.map fun c => UInt16.ofNat c.toNat

/-- Bytes. -/
abbrev Bytes := List UInt8

/-! ### Writing -/

/-- The first half of a surrogate pair. -/
def isHighSurrogate (u : UInt16) : Bool := 0xD800 ≤ u.toNat && u.toNat < 0xDC00

/-- The second half of a surrogate pair. -/
def isLowSurrogate (u : UInt16) : Bool := 0xDC00 ≤ u.toNat && u.toNat < 0xE000

/-- The code point of a surrogate pair. -/
def codePoint (u v : UInt16) : ℕ := (u.toNat - 0xD800) * 0x400 + (v.toNat - 0xDC00) + 0x10000

/-- The bytes of one code unit that is not part of a pair. -/
def encodeUnit (u : UInt16) : Bytes :=
  let n := u.toNat
  if n < 0x80 then [UInt8.ofNat n]
  else if n < 0x800 then [UInt8.ofNat (0xC0 + n / 0x40), UInt8.ofNat (0x80 + n % 0x40)]
  else if isHighSurrogate u || isLowSurrogate u then [0x3F]
  else [UInt8.ofNat (0xE0 + n / 0x1000), UInt8.ofNat (0x80 + n / 0x40 % 0x40), UInt8.ofNat (0x80 + n % 0x40)]

/-- The four bytes of a surrogate pair. -/
def encodePair (u v : UInt16) : Bytes :=
  let n := codePoint u v
  [UInt8.ofNat (0xF0 + n / 0x40000), UInt8.ofNat (0x80 + n / 0x1000 % 0x40),
    UInt8.ofNat (0x80 + n / 0x40 % 0x40), UInt8.ofNat (0x80 + n % 0x40)]

/-- A string as UTF-8. -/
def encode : Utf16 → Bytes
  | [] => []
  | [u] => encodeUnit u
  | u :: v :: s =>
    if isHighSurrogate u && isLowSurrogate v then encodePair u v ++ encode s
    else encodeUnit u ++ encode (v :: s)

/-- Every surrogate of the string is part of a pair. -/
def WellFormed : Utf16 → Bool
  | [] => true
  | [u] => !isHighSurrogate u && !isLowSurrogate u
  | u :: v :: s =>
    if isHighSurrogate u && isLowSurrogate v then WellFormed s
    else !isHighSurrogate u && !isLowSurrogate u && WellFormed (v :: s)

/-! ### Reading -/

/-- The byte cannot continue a character. -/
def isNotContinuation (b : UInt8) : Bool := b.toNat / 0x40 != 2

/-- The replacement character `U+FFFD`. -/
def replacement : UInt16 := 0xFFFD

/-- After a three-byte lead, the second byte is wrong. -/
def isMalformed3_2 (b₁ b₂ : UInt8) : Bool := (b₁ == 0xE0 && b₂.toNat / 0x20 == 4) || isNotContinuation b₂

/-- After a four-byte lead, the second byte is wrong. -/
def isMalformed4_2 (b₁ b₂ : UInt8) : Bool :=
  (b₁ == 0xF0 && (b₂.toNat < 0x90 || 0xBF < b₂.toNat)) || (b₁ == 0xF4 && b₂.toNat / 0x10 != 8) ||
    isNotContinuation b₂

/-- A two-byte character led by `b₁`: its code units, and how many bytes of `rest` it takes. -/
def decode2 (b₁ : UInt8) : Bytes → Utf16 × ℕ
  | b₂ :: _ =>
    if isNotContinuation b₂ then ([replacement], 0)
    else ([UInt16.ofNat (b₁.toNat % 0x20 * 0x40 + b₂.toNat % 0x40)], 1)
  | [] => ([replacement], 0)

/-- A three-byte character led by `b₁`. -/
def decode3 (b₁ : UInt8) : Bytes → Utf16 × ℕ
  | b₂ :: b₃ :: _ =>
    if isMalformed3_2 b₁ b₂ then ([replacement], 0)
    else if isNotContinuation b₃ then ([replacement], 1)
    else
      let u := UInt16.ofNat (b₁.toNat % 0x10 * 0x1000 + b₂.toNat % 0x40 * 0x40 + b₃.toNat % 0x40)
      if isHighSurrogate u || isLowSurrogate u then ([replacement], 2) else ([u], 2)
  | [b₂] => if isMalformed3_2 b₁ b₂ then ([replacement], 0) else ([replacement], 1)
  | [] => ([replacement], 0)

/-- A four-byte character led by `b₁`, as a surrogate pair. -/
def decode4 (b₁ : UInt8) (rest : Bytes) : Utf16 × ℕ :=
  if 0xF4 < b₁.toNat then ([replacement], 0)
  else match rest with
    | b₂ :: b₃ :: b₄ :: _ =>
      if isMalformed4_2 b₁ b₂ then ([replacement], 0)
      else if isNotContinuation b₃ then ([replacement], 1)
      else if isNotContinuation b₄ then ([replacement], 2)
      else
        let n := b₁.toNat % 8 * 0x40000 + b₂.toNat % 0x40 * 0x1000 + b₃.toNat % 0x40 * 0x40 +
          b₄.toNat % 0x40 - 0x10000
        ([UInt16.ofNat (0xD800 + n / 0x400), UInt16.ofNat (0xDC00 + n % 0x400)], 3)
    | [b₂, b₃] =>
      if isMalformed4_2 b₁ b₂ then ([replacement], 0)
      else if isNotContinuation b₃ then ([replacement], 1)
      else ([replacement], 2)
    | [b₂] => if isMalformed4_2 b₁ b₂ then ([replacement], 0) else ([replacement], 1)
    | [] => ([replacement], 0)

/-- The first character of `b₁; rest`: its code units, and how many bytes of `rest` it takes. -/
def decodeOne (b₁ : UInt8) (rest : Bytes) : Utf16 × ℕ :=
  if b₁.toNat < 0x80 then ([UInt16.ofNat b₁.toNat], 0)
  else if 0xC2 ≤ b₁.toNat ∧ b₁.toNat < 0xE0 then decode2 b₁ rest
  else if 0xE0 ≤ b₁.toNat ∧ b₁.toNat < 0xF0 then decode3 b₁ rest
  else if 0xF0 ≤ b₁.toNat ∧ b₁.toNat < 0xF8 then decode4 b₁ rest
  else ([replacement], 0)

/-- The characters of the bytes, at most `fuel` of them. -/
def decodeLoop : ℕ → Bytes → Utf16
  | 0, _ => []
  | _, [] => []
  | fuel + 1, b :: rest => (decodeOne b rest).1 ++ decodeLoop fuel (rest.drop (decodeOne b rest).2)

/-- Bytes read as UTF-8. There are at most as many characters as bytes. -/
def decode (bs : Bytes) : Utf16 := decodeLoop bs.length bs

/-! ### Reading one character at a time -/

theorem decodeLoop_of_le {n m : ℕ} {bs : Bytes} (hn : bs.length ≤ n) (hm : bs.length ≤ m) :
    decodeLoop n bs = decodeLoop m bs := by
  induction n generalizing m bs with
  | zero =>
    obtain rfl : bs = [] := List.length_eq_zero_iff.mp (by omega)
    cases m <;> rfl
  | succ n ih =>
    cases bs with
    | nil => cases m <;> rfl
    | cons b rest =>
      cases m with
      | zero => simp at hm
      | succ m =>
        simp only [List.length_cons] at hn hm
        have hd := List.length_drop (i := (decodeOne b rest).2) (l := rest)
        simp only [decodeLoop]
        rw [ih (m := m) (by omega) (by omega)]

@[simp] theorem decode_nil : decode [] = [] := rfl

theorem decode_cons (b : UInt8) (rest : Bytes) :
    decode (b :: rest) = (decodeOne b rest).1 ++ decode (rest.drop (decodeOne b rest).2) := by
  have hd := List.length_drop (i := (decodeOne b rest).2) (l := rest)
  simp only [decode, List.length_cons, decodeLoop]
  rw [decodeLoop_of_le (by omega) (Nat.le_refl _)]

/-! ### Bytes below `0x80` -/

/-- Bytes below `0x80`. -/
def IsAscii (bs : Bytes) : Prop := ∀ b ∈ bs, b.toNat < 0x80

theorem isAscii_of_all {bs : Bytes} (h : bs.all (fun b => b.toNat < 0x80) = true) : IsAscii bs := by
  intro b hb
  simpa using List.all_eq_true.mp h b hb

/-- Bytes below `0x80` are read one by one. -/
theorem decode_ascii {bs : Bytes} (h : IsAscii bs) : decode bs = bs.map fun b => UInt16.ofNat b.toNat := by
  induction bs with
  | nil => rfl
  | cons b bs ih =>
    have hb : b.toNat < 0x80 := h b List.mem_cons_self
    rw [decode_cons, decodeOne, if_pos hb, List.drop_zero, ih fun c hc => h c (List.mem_cons_of_mem b hc)]
    rfl

/-! ### What is read is well formed -/

/-- The code units of one character: a unit that is not a surrogate, or a pair. -/
def IsCharacter (s : Utf16) : Prop :=
  (∃ u, s = [u] ∧ isHighSurrogate u = false ∧ isLowSurrogate u = false) ∨
    ∃ u v, s = [u, v] ∧ isHighSurrogate u = true ∧ isLowSurrogate v = true

theorem isCharacter_replacement : IsCharacter [replacement] := .inl ⟨_, rfl, rfl, rfl⟩

/-- A character before a well-formed string. -/
theorem wellFormed_append {c s : Utf16} (hc : IsCharacter c) (hs : WellFormed s = true) :
    WellFormed (c ++ s) = true := by
  rcases hc with ⟨u, rfl, hh, hl⟩ | ⟨u, v, rfl, hu, hv⟩
  · cases s with
    | nil => simp [WellFormed, hh, hl]
    | cons v s => simp [WellFormed, hh, hl, hs]
  · simp [WellFormed, hu, hv, hs]

theorem isCharacter_decode2 (b : UInt8) (rest : Bytes) :
    IsCharacter (decode2 b rest).1 := by
  unfold decode2
  split
  · next b₂ _ =>
    split_ifs
    · exact isCharacter_replacement
    · have h : (UInt16.ofNat (b.toNat % 0x20 * 0x40 + b₂.toNat % 0x40)).toNat < 0x800 := by
        rw [UInt16.toNat_ofNat']
        omega
      refine .inl ⟨_, rfl, ?_, ?_⟩
      · rw [isHighSurrogate, decide_eq_false (by omega), Bool.false_and]
      · rw [isLowSurrogate, decide_eq_false (by omega), Bool.false_and]
  · exact isCharacter_replacement

theorem isCharacter_decode3 (b : UInt8) (rest : Bytes) : IsCharacter (decode3 b rest).1 := by
  unfold decode3
  split
  · dsimp only
    split_ifs with h1 h2 h3
    · exact isCharacter_replacement
    · exact isCharacter_replacement
    · exact isCharacter_replacement
    · simp only [Bool.or_eq_true, not_or, Bool.not_eq_true] at h3
      exact .inl ⟨_, rfl, h3.1, h3.2⟩
  · split_ifs <;> exact isCharacter_replacement
  · exact isCharacter_replacement

theorem isCharacter_decode4 {b : UInt8} (hb : 0xF0 ≤ b.toNat ∧ b.toNat < 0xF8) (rest : Bytes) :
    IsCharacter (decode4 b rest).1 := by
  unfold decode4
  split_ifs with hF
  · exact isCharacter_replacement
  · split
    · next b₂ b₃ b₄ _ =>
      split_ifs with h1 h2 h3
      · exact isCharacter_replacement
      · exact isCharacter_replacement
      · exact isCharacter_replacement
      · -- a four-byte character that is not malformed is between `U+10000` and `U+10FFFF`
        have hlast : b.toNat = 0xF4 → b₂.toNat < 0x90 := by
          intro hb4
          have h4 : b = 0xF4 := UInt8.toNat_inj.mp hb4
          simp [isMalformed4_2, h4, isNotContinuation] at h1
          omega
        generalize hn : b.toNat % 8 * 0x40000 + b₂.toNat % 0x40 * 0x1000 + b₃.toNat % 0x40 * 0x40 +
          b₄.toNat % 0x40 - 0x10000 = n
        have hlt : n < 0x100000 := by
          by_cases hb4 : b.toNat = 0xF4
          · have hcont : isNotContinuation b₂ = false := by
              simp only [isMalformed4_2, Bool.or_eq_true, not_or, Bool.not_eq_true] at h1
              exact h1.2
            have := hlast hb4
            simp only [isNotContinuation, bne_eq_false_iff_eq] at hcont
            omega
          · omega
        refine .inr ⟨_, _, rfl, ?_, ?_⟩
        · rw [isHighSurrogate, UInt16.toNat_ofNat', Bool.and_eq_true, decide_eq_true_eq, decide_eq_true_eq]
          omega
        · rw [isLowSurrogate, UInt16.toNat_ofNat', Bool.and_eq_true, decide_eq_true_eq, decide_eq_true_eq]
          omega
    · split_ifs <;> exact isCharacter_replacement
    · split_ifs <;> exact isCharacter_replacement
    · exact isCharacter_replacement

theorem isCharacter_decodeOne (b : UInt8) (rest : Bytes) : IsCharacter (decodeOne b rest).1 := by
  unfold decodeOne
  split_ifs with h1 h2 h3 h4
  · refine .inl ⟨_, rfl, ?_, ?_⟩
    · rw [isHighSurrogate, UInt16.toNat_ofNat', decide_eq_false (by omega), Bool.false_and]
    · rw [isLowSurrogate, UInt16.toNat_ofNat', decide_eq_false (by omega), Bool.false_and]
  · exact isCharacter_decode2 b rest
  · exact isCharacter_decode3 b rest
  · exact isCharacter_decode4 h4 rest
  · exact isCharacter_replacement

/-- What is read is well formed, whatever the bytes. -/
theorem wellFormed_decode (bs : Bytes) : WellFormed (decode bs) = true := by
  induction hn : bs.length using Nat.strongRecOn generalizing bs with
  | _ n ih =>
    cases bs with
    | nil => rfl
    | cons b rest =>
      have hd := List.length_drop (i := (decodeOne b rest).2) (l := rest)
      simp only [List.length_cons] at hn
      rw [decode_cons]
      exact wellFormed_append (isCharacter_decodeOne b rest) (ih _ (by omega) _ rfl)

/-- Only no bytes are read as the empty string. -/
theorem decode_eq_nil {bs : Bytes} : decode bs = [] ↔ bs = [] := by
  constructor
  · intro h
    cases bs with
    | nil => rfl
    | cons b rest =>
      rw [decode_cons, List.append_eq_nil_iff] at h
      rcases isCharacter_decodeOne b rest with ⟨u, hu, -⟩ | ⟨u, v, huv, -⟩
      · rw [hu] at h
        cases h.1
      · rw [huv] at h
        cases h.1
  · rintro rfl
    rfl

/-! ### How much is read -/

/-- What a first byte from `0x80` on can come to: a replacement that takes no other byte, or no more code units than it takes
other bytes. -/
def Shrinks (n : ℕ) (c : Utf16 × ℕ) : Prop := c = ([replacement], 0) ∨ (c.1.length ≤ c.2 ∧ c.2 ≤ n)

theorem shrinks_decode2 (b : UInt8) (rest : Bytes) : Shrinks rest.length (decode2 b rest) := by
  unfold decode2 Shrinks
  split
  · split_ifs <;> simp
  · simp

theorem shrinks_decode3 (b : UInt8) (rest : Bytes) : Shrinks rest.length (decode3 b rest) := by
  unfold decode3 Shrinks
  split
  · dsimp only
    split_ifs <;> simp
  · split_ifs <;> simp
  · simp

theorem shrinks_decode4 (b : UInt8) (rest : Bytes) : Shrinks rest.length (decode4 b rest) := by
  unfold decode4 Shrinks
  split_ifs
  · simp
  · split
    · dsimp only
      split_ifs <;> simp
    · split_ifs <;> simp
    · split_ifs <;> simp
    · simp

/-- The first character is the first byte, or the byte is not below `0x80`. -/
theorem decodeOne_cases (b : UInt8) (rest : Bytes) :
    (b.toNat < 0x80 ∧ decodeOne b rest = ([UInt16.ofNat b.toNat], 0)) ∨ (0x80 ≤ b.toNat ∧ Shrinks rest.length (decodeOne b rest)) := by
  unfold decodeOne
  split_ifs with h1 h2 h3 h4
  · exact .inl ⟨h1, rfl⟩
  · exact .inr ⟨Nat.not_lt.mp h1, shrinks_decode2 b rest⟩
  · exact .inr ⟨Nat.not_lt.mp h1, shrinks_decode3 b rest⟩
  · exact .inr ⟨Nat.not_lt.mp h1, shrinks_decode4 b rest⟩
  · exact .inr ⟨Nat.not_lt.mp h1, .inl rfl⟩

/-- There are at most as many code units as bytes. -/
theorem length_decode_le (bs : Bytes) : (decode bs).length ≤ bs.length := by
  induction hn : bs.length using Nat.strongRecOn generalizing bs with
  | _ n ih =>
    cases bs with
    | nil => simp
    | cons b rest =>
      have hd := List.length_drop (i := (decodeOne b rest).2) (l := rest)
      simp only [List.length_cons] at hn
      have hrest := ih _ (by omega) (rest.drop (decodeOne b rest).2) rfl
      rw [decode_cons, List.length_append]
      rcases decodeOne_cases b rest with ⟨-, hone⟩ | ⟨-, hone | ⟨hle, htake⟩⟩
      · simp only [hone, List.length_singleton] at hd hrest ⊢
        omega
      · simp only [hone, List.length_singleton] at hd hrest ⊢
        omega
      · omega

/-! ### Reading what was written -/

theorem toNat_ofNat8 {n : ℕ} (h : n < 0x100) : (UInt8.ofNat n).toNat = n := by
  rw [UInt8.toNat_ofNat']
  omega

theorem ofNat16_eq {n : ℕ} {u : UInt16} (h : n = u.toNat) : UInt16.ofNat n = u := by
  rw [h, UInt16.ofNat_toNat]

theorem isNotContinuation_ofNat {n : ℕ} (h : n < 0x40) : isNotContinuation (UInt8.ofNat (0x80 + n)) = false := by
  unfold isNotContinuation
  rw [toNat_ofNat8 (by omega)]
  simp only [bne_eq_false_iff_eq]
  omega

/-- A code unit that is not a surrogate is read back. -/
theorem decode_encodeUnit {u : UInt16} (hu : isHighSurrogate u = false) (hl : isLowSurrogate u = false)
    (bs : Bytes) : decode (encodeUnit u ++ bs) = u :: decode bs := by
  have hlt : u.toNat < 0x10000 := u.toNat_lt
  generalize hn : u.toNat = n at hlt
  simp only [encodeUnit, hn, hu, hl, Bool.or_self, Bool.false_eq_true, if_false]
  split_ifs with h1 h2
  · have hb : (UInt8.ofNat n).toNat = n := toNat_ofNat8 (by omega)
    rw [List.singleton_append, decode_cons, decodeOne, hb, if_pos h1, ofNat16_eq hn.symm]
    rfl
  · have hb₁ : (UInt8.ofNat (0xC0 + n / 0x40)).toNat = 0xC0 + n / 0x40 := toNat_ofNat8 (by omega)
    have hb₂ : (UInt8.ofNat (0x80 + n % 0x40)).toNat = 0x80 + n % 0x40 := toNat_ofNat8 (by omega)
    rw [List.cons_append, decode_cons, decodeOne, hb₁, if_neg (by omega), if_pos (by omega)]
    simp only [decode2, List.cons_append, isNotContinuation_ofNat (Nat.mod_lt n (by decide : 0 < 0x40)),
      Bool.false_eq_true, if_false, hb₁, hb₂]
    rw [ofNat16_eq (u := u) (by omega)]
    rfl
  · have hb₁ : (UInt8.ofNat (0xE0 + n / 0x1000)).toNat = 0xE0 + n / 0x1000 := toNat_ofNat8 (by omega)
    have hb₂ : (UInt8.ofNat (0x80 + n / 0x40 % 0x40)).toNat = 0x80 + n / 0x40 % 0x40 := toNat_ofNat8 (by omega)
    have hb₃ : (UInt8.ofNat (0x80 + n % 0x40)).toNat = 0x80 + n % 0x40 := toNat_ofNat8 (by omega)
    have hc₂ := isNotContinuation_ofNat (Nat.mod_lt (n / 0x40) (by decide : 0 < 0x40))
    have hc₃ := isNotContinuation_ofNat (Nat.mod_lt n (by decide : 0 < 0x40))
    have hm : isMalformed3_2 (UInt8.ofNat (0xE0 + n / 0x1000)) (UInt8.ofNat (0x80 + n / 0x40 % 0x40)) = false := by
      simp only [isMalformed3_2, hc₂, hb₂, Bool.or_false, Bool.and_eq_false_iff, beq_eq_false_iff_ne]
      by_cases hE : n / 0x1000 = 0
      · right; omega
      · left
        intro h
        rw [h] at hb₁
        simp at hb₁
        omega
    rw [List.cons_append, decode_cons, decodeOne, hb₁, if_neg (by omega), if_neg (by omega), if_pos (by omega)]
    simp only [decode3, List.cons_append, hm, hc₃, Bool.false_eq_true, if_false, hb₁, hb₂, hb₃]
    rw [ofNat16_eq (u := u) (by omega)]
    simp [hu, hl]

/-- A surrogate pair is read back. -/
theorem decode_encodePair {u v : UInt16} (hu : isHighSurrogate u = true) (hv : isLowSurrogate v = true)
    (bs : Bytes) : decode (encodePair u v ++ bs) = u :: v :: decode bs := by
  simp only [isHighSurrogate, isLowSurrogate, Bool.and_eq_true, decide_eq_true_eq] at hu hv
  generalize hn : codePoint u v = n
  have hcp : n = (u.toNat - 0xD800) * 0x400 + (v.toNat - 0xDC00) + 0x10000 := hn.symm
  have hb₁ : (UInt8.ofNat (0xF0 + n / 0x40000)).toNat = 0xF0 + n / 0x40000 := toNat_ofNat8 (by omega)
  have hb₂ : (UInt8.ofNat (0x80 + n / 0x1000 % 0x40)).toNat = 0x80 + n / 0x1000 % 0x40 := toNat_ofNat8 (by omega)
  have hb₃ : (UInt8.ofNat (0x80 + n / 0x40 % 0x40)).toNat = 0x80 + n / 0x40 % 0x40 := toNat_ofNat8 (by omega)
  have hb₄ : (UInt8.ofNat (0x80 + n % 0x40)).toNat = 0x80 + n % 0x40 := toNat_ofNat8 (by omega)
  have hc₂ := isNotContinuation_ofNat (Nat.mod_lt (n / 0x1000) (by decide : 0 < 0x40))
  have hc₃ := isNotContinuation_ofNat (Nat.mod_lt (n / 0x40) (by decide : 0 < 0x40))
  have hc₄ := isNotContinuation_ofNat (Nat.mod_lt n (by decide : 0 < 0x40))
  have hm : isMalformed4_2 (UInt8.ofNat (0xF0 + n / 0x40000)) (UInt8.ofNat (0x80 + n / 0x1000 % 0x40)) = false := by
    simp only [isMalformed4_2, hc₂, hb₂, Bool.or_false, Bool.or_eq_false_iff, Bool.and_eq_false_iff,
      beq_eq_false_iff_ne, bne_eq_false_iff_eq, decide_eq_false_iff_not]
    constructor
    · by_cases hF : n / 0x40000 = 0
      · right; omega
      · left
        intro h
        rw [h] at hb₁
        simp at hb₁
        omega
    · by_cases hF : n / 0x40000 = 4
      · right; omega
      · left
        intro h
        rw [h] at hb₁
        simp at hb₁
        omega
  simp only [encodePair, hn, List.cons_append, List.nil_append]
  rw [decode_cons, decodeOne, hb₁, if_neg (by omega), if_neg (by omega), if_neg (by omega), if_pos (by omega)]
  simp only [decode4, hb₁, hb₂, hb₃, hb₄, hm, hc₃, hc₄, Bool.false_eq_true, if_false]
  rw [if_neg (by omega), ofNat16_eq (u := u) (by omega), ofNat16_eq (u := v) (by omega)]
  rfl

/-- **A string whose surrogates are all paired is read back as it was written.** -/
theorem decode_encode_append {s : Utf16} (h : WellFormed s = true) (bs : Bytes) :
    decode (encode s ++ bs) = s ++ decode bs := by
  induction s using WellFormed.induct with
  | case1 => rfl
  | case2 u =>
    simp only [WellFormed, Bool.and_eq_true, Bool.not_eq_true'] at h
    exact decode_encodeUnit h.1 h.2 bs
  | case3 u v s hp ih =>
    rw [WellFormed, if_pos hp] at h
    rw [encode, if_pos hp, List.append_assoc]
    simp only [Bool.and_eq_true] at hp
    rw [decode_encodePair hp.1 hp.2, ih h]
    rfl
  | case4 u v s hp ih =>
    rw [WellFormed, if_neg hp] at h
    rw [encode, if_neg hp, List.append_assoc]
    simp only [Bool.and_eq_true, Bool.not_eq_true'] at h
    rw [decode_encodeUnit h.1.1 h.1.2, ih h.2]
    rfl

theorem decode_encode {s : Utf16} (h : WellFormed s = true) : decode (encode s) = s := by
  have := decode_encode_append h []
  rwa [List.append_nil, decode_nil, List.append_nil] at this

/-- Two well-formed strings with the same bytes are the same. -/
theorem encode_inj {s t : Utf16} (hs : WellFormed s = true) (ht : WellFormed t = true)
    (h : encode s = encode t) : s = t := by
  rw [← decode_encode hs, ← decode_encode ht, h]

/-! ### Strings that are not well formed -/

/-- The code unit of a character that stands for it: `?` for a surrogate. -/
def scrubUnit (u : UInt16) : UInt16 := if isHighSurrogate u || isLowSurrogate u then 0x3F else u

/-- The string with `?` for each surrogate that is not part of a pair. -/
def scrub : Utf16 → Utf16
  | [] => []
  | [u] => [scrubUnit u]
  | u :: v :: s => if isHighSurrogate u && isLowSurrogate v then u :: v :: scrub s else scrubUnit u :: scrub (v :: s)

theorem scrubUnit_not_surrogate (u : UInt16) : isHighSurrogate (scrubUnit u) = false ∧ isLowSurrogate (scrubUnit u) = false := by
  rw [scrubUnit]
  split_ifs with h
  · exact ⟨rfl, rfl⟩
  · rw [Bool.or_eq_true, not_or, Bool.not_eq_true, Bool.not_eq_true] at h
    exact h

theorem encodeUnit_scrubUnit (u : UInt16) : encodeUnit (scrubUnit u) = encodeUnit u := by
  rw [scrubUnit]
  split_ifs with h
  · have hge : ¬ u.toNat < 0x80 ∧ ¬ u.toNat < 0x800 := by
      simp only [isHighSurrogate, isLowSurrogate, Bool.or_eq_true, Bool.and_eq_true, decide_eq_true_eq] at h
      omega
    rw [encodeUnit.eq_def u]
    dsimp only
    rw [if_neg hge.1, if_neg hge.2, if_pos h]
    rfl
  · rfl

/-- A code unit that does not begin a pair is encoded on its own. -/
theorem encode_cons {u : UInt16} (h : isHighSurrogate u = false) (s : Utf16) : encode (u :: s) = encodeUnit u ++ encode s := by
  cases s with
  | nil => simp [encode]
  | cons v s => simp [encode, h]

/-- A string up to a code unit that is not part of a pair is encoded on its own. -/
theorem encode_append (s : Utf16) {c : UInt16} (h : isHighSurrogate c = false ∧ isLowSurrogate c = false) (t : Utf16) :
    encode (s ++ c :: t) = encode (s ++ [c]) ++ encode t := by
  induction s using encode.induct with
  | case1 => rw [List.nil_append, List.nil_append, encode_cons h.1, encode]
  | case2 u => simp [encode, h.2, encode_cons h.1]
  | case3 u v s hp ih => simp only [List.cons_append, encode, hp, if_true, ih, List.append_assoc]
  | case4 u v s hp ih =>
    simp only [List.cons_append] at ih ⊢
    rw [encode, if_neg hp, encode, if_neg hp, ih, List.append_assoc]

/-- **Every string is encoded as a well-formed one is**. -/
theorem encode_scrub (s : Utf16) : WellFormed (scrub s) = true ∧ encode (scrub s) = encode s := by
  induction s using scrub.induct with
  | case1 => exact ⟨rfl, rfl⟩
  | case2 u =>
    obtain ⟨hh, hl⟩ := scrubUnit_not_surrogate u
    exact ⟨by simp [scrub, WellFormed, hh, hl], by simp [scrub, encode, encodeUnit_scrubUnit]⟩
  | case3 u v s h ih => exact ⟨by simp [scrub, WellFormed, h, ih.1], by simp [scrub, encode, h, ih.2]⟩
  | case4 u v s h ih =>
    obtain ⟨hh, hl⟩ := scrubUnit_not_surrogate u
    rw [scrub, if_neg h, encode_cons hh, ih.2, encodeUnit_scrubUnit]
    refine ⟨wellFormed_append (c := [scrubUnit u]) (.inl ⟨_, rfl, hh, hl⟩) ih.1, ?_⟩
    rw [encode, if_neg h]

/-- What has been encoded comes back as that one. -/
theorem decode_encode_scrub (s : Utf16) : decode (encode s) = scrub s := by
  obtain ⟨hwell, hencode⟩ := encode_scrub s
  rw [← hencode, decode_encode hwell]

theorem scrub_of_wellFormed {s : Utf16} (h : WellFormed s = true) : scrub s = s := by
  rw [← decode_encode_scrub, decode_encode h]

end YcsbIvs.Foundations
