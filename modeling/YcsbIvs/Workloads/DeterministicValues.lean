import YcsbIvs.Foundations.Split
import YcsbIvs.Workloads.DataIntegrity

/-!
# Deterministic values are told apart

`buildDeterministicValue` begins with the key, a colon and the name of the field, appends colons and hashes until the string is long enough, and cuts it. Each round
appends two characters at least, and twelve at most, so the loop ends, unless the string gets too long for memory. If neither name has a colon in it, and the
value is longer than the names, the two can be read from it: so **values of different keys or fields are different, and `verifyRow` tells
them apart** (`deterministicValue_spec`).
-/

namespace YcsbIvs.Workloads

open YcsbIvs.Foundations YcsbIvs.Core

/-! ### Numbers as strings -/

theorem length_longToString (n : ℤ) : (longToString n).length = (Nat.toDigits 10 n.natAbs).length + if n < 0 then 1 else 0 := by
  rw [longToString]
  split_ifs <;> simp

theorem length_longToString_pos (n : ℤ) : 0 < (longToString n).length := by
  have hpos := Nat.length_toDigits_pos (b := 10) (n := n.natAbs)
  rw [length_longToString]
  omega

/-- An `int` has ten digits at most, and a sign. -/
theorem length_longToString_le {n : ℤ} (h : FitsInt n) : (longToString n).length ≤ 11 := by
  have hdigits : (Nat.toDigits 10 n.natAbs).length ≤ 10 := by
    rw [Nat.length_toDigits_le_iff (by decide) (by decide)]
    rw [FitsInt] at h
    omega
  rw [length_longToString]
  split_ifs <;> omega

theorem fitsInt_hashCode (s : Utf16) : FitsInt (hashCode s) := by
  have hfold : ∀ (s : Utf16) (n : ℤ), FitsInt n → FitsInt (s.foldl (fun h c => asInt (31 * h + c.toNat)) n) := by
    intro s
    induction s with
    | nil => exact fun n hn => hn
    | cons c s ih => exact fun n _ => ih _ (fitsInt_asInt _)
  exact hfold s 0 (by decide)

/-! ### The loop -/

/-- What a round appends. -/
def grown (sb : Utf16) : Utf16 := sb ++ [0x3A] ++ longToString (hashCode (sb ++ [0x3A]))

theorem length_grown (sb : Utf16) : sb.length + 2 ≤ (grown sb).length ∧ (grown sb).length ≤ sb.length + 12 := by
  have hpos := length_longToString_pos (hashCode (sb ++ [0x3A]))
  have hle := length_longToString_le (fitsInt_hashCode (sb ++ [0x3A]))
  simp only [grown, List.length_append, List.length_singleton]
  omega

/-- **The loop ends**: with a string that is long enough, or without memory. -/
theorem growLoop_spec {size fuel : ℕ} {sb : Utf16} (hfuel : size < fuel + sb.length) (hpos : 0 < fuel) :
    (∃ v, growLoop size fuel sb = .ok v ∧ size ≤ v.length ∧ sb <+: v ∧ (sb.length < size → sb ++ [0x3A] <+: v)) ∨
      (growLoop size fuel sb = .error .outOfMemory ∧ 2 ^ 31 < size + 12) := by
  induction fuel generalizing sb with
  | zero => exact absurd hpos (lt_irrefl 0)
  | succ fuel ih =>
    rw [growLoop]
    by_cases hlt : sb.length < size
    · obtain ⟨hmore, hless⟩ := length_grown sb
      rw [if_pos hlt]
      dsimp only
      rw [← grown]
      by_cases hfits : (grown sb).length < 2 ^ 31
      · rw [if_pos hfits]
        refine (ih (by omega) (by omega)).imp_left ?_
        rintro ⟨v, hv, hsize, hprefix, -⟩
        have hcolon : sb ++ [0x3A] <+: v := (List.prefix_append _ _).trans hprefix
        exact ⟨v, hv, hsize, (List.prefix_append _ _).trans hcolon, fun _ => hcolon⟩
      · rw [if_neg hfits]
        exact .inr ⟨rfl, by omega⟩
    · rw [if_neg hlt]
      exact .inl ⟨sb, rfl, not_lt.mp hlt, List.prefix_refl _, fun h => absurd h hlt⟩

/-- What all values of a key and a field begin with. -/
def named (key fieldkey : Utf16) : Utf16 := key ++ [0x3A] ++ fieldkey

theorem length_named (key fieldkey : Utf16) : (named key fieldkey).length = key.length + 1 + fieldkey.length := by
  simp only [named, List.length_append, List.length_singleton]

/-- The loop with the fuel that it is given. -/
theorem growLoop_named (key fieldkey : Utf16) (size : ℕ) :
    (∃ v, growLoop size (size + 1) (named key fieldkey) = .ok v ∧ size ≤ v.length ∧
        ((named key fieldkey).length < size → named key fieldkey ++ [0x3A] <+: v)) ∨
      (growLoop size (size + 1) (named key fieldkey) = .error .outOfMemory ∧ 2 ^ 31 < size + 12) := by
  refine (growLoop_spec (by omega) (Nat.succ_pos _)).imp_left ?_
  rintro ⟨v, hv, hsize, -, hcolon⟩
  exact ⟨v, hv, hsize, hcolon⟩

/-- **A value is made, as long as it is to be**, unless there is no memory. -/
theorem buildDeterministicValue_total (key fieldkey : Utf16) {size : ℤ} (h : 0 ≤ size) :
    (∃ v, buildDeterministicValue key fieldkey size = .ok v ∧ (v.length : ℤ) = size) ∨
      (buildDeterministicValue key fieldkey size = .error .outOfMemory ∧
        (2 ^ 31 ≤ key.length + 1 + fieldkey.length ∨ 2 ^ 31 < size + 12)) := by
  have hlength := length_named key fieldkey
  by_cases hfits : (named key fieldkey).length < 2 ^ 31
  · have hbuild : buildDeterministicValue key fieldkey size =
        (growLoop size.toNat (size.toNat + 1) (named key fieldkey)).map (List.take size.toNat) := by
      rw [buildDeterministicValue, if_neg (not_lt.mpr h)]
      exact if_pos hfits
    rcases growLoop_named key fieldkey size.toNat with ⟨v, hv, -⟩ | ⟨hmemory, hlarge⟩
    · rw [hv] at hbuild
      exact .inl ⟨_, hbuild, length_buildDeterministicValue hbuild⟩
    · rw [hmemory] at hbuild
      exact .inr ⟨hbuild, .inr (by omega)⟩
  · refine .inr ⟨?_, .inl (by omega)⟩
    rw [buildDeterministicValue, if_neg (not_lt.mpr h)]
    exact if_neg hfits

/-! ### What a value begins with -/

/-- A value that is longer than the names begins with them, and a colon. -/
theorem named_prefix {key fieldkey v : Utf16} {size : ℤ} (hsize : (key.length + 1 + fieldkey.length : ℕ) < size)
    (h : buildDeterministicValue key fieldkey size = .ok v) : ∃ rest, v = key ++ 0x3A :: (fieldkey ++ 0x3A :: rest) := by
  have hlength := length_named key fieldkey
  rw [buildDeterministicValue, if_neg (by omega)] at h
  dsimp only at h
  rw [← named] at h
  by_cases hfits : (named key fieldkey).length < 2 ^ 31
  · rw [if_pos hfits] at h
    obtain ⟨sb, hsb, rfl⟩ := map_inv h
    rcases growLoop_named key fieldkey size.toNat with ⟨v, hv, -, hcolon⟩ | ⟨hmemory, -⟩
    · obtain rfl : v = sb := Except.ok.inj (hv.symm.trans hsb)
      -- the cut leaves the names and the colon
      obtain ⟨rest, hrest⟩ : named key fieldkey ++ [0x3A] <+: v.take size.toNat := by
        refine List.prefix_take_iff.mpr ⟨hcolon (by omega), ?_⟩
        rw [List.length_append, List.length_singleton]
        omega
      refine ⟨rest, ?_⟩
      rw [← hrest, named]
      simp only [List.append_assoc]
      rfl
    · rw [hmemory] at hsb
      cases hsb
  · rw [if_neg hfits] at h
    cases h

/-- **Names without colons can be read from a value** that is longer than they are. -/
theorem buildDeterministicValue_inj {key key' fieldkey fieldkey' v : Utf16} {size : ℤ} (hkey : (0x3A : UInt16) ∉ key) (hkey' : (0x3A : UInt16) ∉ key')
    (hfield : (0x3A : UInt16) ∉ fieldkey) (hfield' : (0x3A : UInt16) ∉ fieldkey') (hsize : (key.length + 1 + fieldkey.length : ℕ) < size)
    (hsize' : (key'.length + 1 + fieldkey'.length : ℕ) < size) (h : buildDeterministicValue key fieldkey size = .ok v)
    (h' : buildDeterministicValue key' fieldkey' size = .ok v) : key = key' ∧ fieldkey = fieldkey' := by
  obtain ⟨rest, rfl⟩ := named_prefix hsize h
  obtain ⟨rest', heq⟩ := named_prefix hsize' h'
  obtain ⟨hk, heq⟩ := eq_of_append_cons hkey hkey' heq
  exact ⟨hk, (eq_of_append_cons hfield hfield' heq).1⟩

/-! ### Verification -/

section

variable {τ ν : Type} {w : Integrity τ ν} {key : ν}

/-- A cell with another value than is to be is found out. -/
theorem verifyLoop_other {entries : List (Σ _ : ν, ByteIterator)} {entry : Σ _ : ν, ByteIterator} (hmem : entry ∈ entries) {v : Utf16}
    {it : ByteIterator} (hread : entry.2.toString = .ok (v, it)) (hother : w.value key entry.1 ≠ .ok v) {status : Status}
    (h : w.verifyLoop key entries = .ok status) : status = .unexpectedState := by
  induction entries with
  | nil => exact absurd hmem List.not_mem_nil
  | cons first entries ih =>
    rw [Integrity.verifyLoop] at h
    obtain ⟨⟨cell, it'⟩, hcell, h⟩ := bind_inv h
    obtain ⟨expected, hexpected, h⟩ := bind_inv h
    by_cases heq : cell = expected
    · rw [if_pos heq] at h
      rcases List.mem_cons.mp hmem with rfl | hmem
      · obtain ⟨rfl, -⟩ := Prod.mk.inj (Except.ok.inj (hread.symm.trans hcell))
        exact absurd (heq ▸ hexpected) hother
      · exact ih hmem h
    · rw [if_neg heq] at h
      exact (Except.ok.inj h).symm

/-- The names of a value: without colons, and shorter than the value. -/
structure IsReadable (w : Integrity τ ν) (key fieldkey : ν) : Prop where
  keyApart : (0x3A : UInt16) ∉ w.string key
  fieldApart : (0x3A : UInt16) ∉ w.string fieldkey
  short : ((w.string key).length + 1 + (w.string fieldkey).length : ℕ) < w.fieldlength.1

/-- **The value of another key or field is found out.** -/
theorem verifyRow_other {cells : Values ν} {entry : Σ _ : ν, ByteIterator} (hmem : entry ∈ cells.entries) {key' fieldkey' : ν} {v : Utf16} {it : ByteIterator}
    (hread : entry.2.toString = .ok (v, it)) (hv : w.value key' fieldkey' = .ok v) (hnames : IsReadable w key entry.1)
    (hnames' : IsReadable w key' fieldkey') (hne : w.string key' ≠ w.string key ∨ w.string fieldkey' ≠ w.string entry.1) {status : Status}
    (h : w.verifyRow key cells = .ok status) : status = .unexpectedState := by
  have hother : w.value key entry.1 ≠ .ok v := by
    intro hsame
    obtain ⟨hk, hf⟩ := buildDeterministicValue_inj hnames'.keyApart hnames.keyApart hnames'.fieldApart hnames.fieldApart hnames'.short hnames.short hv hsame
    rcases hne with hne | hne
    · exact hne hk
    · exact hne hf
  rw [Integrity.verifyRow] at h
  split at h
  · next hnil => exact absurd (hnil ▸ hmem) List.not_mem_nil
  · exact verifyLoop_other hmem hread hother h

/-- **What `buildDeterministicValue` makes**: a value as long as it is to be, unless a string is too long for memory; from a value that is longer than
names without colons they can be read; so `verifyRow` finds out the value of another key or field. -/
theorem deterministicValue_spec {τ ν : Type} (w : Integrity τ ν) :
    (∀ (key fieldkey : Utf16) (size : ℤ), 0 ≤ size →
      (∃ v, buildDeterministicValue key fieldkey size = .ok v ∧ (v.length : ℤ) = size) ∨
        (buildDeterministicValue key fieldkey size = .error .outOfMemory ∧
          (2 ^ 31 ≤ key.length + 1 + fieldkey.length ∨ 2 ^ 31 < size + 12))) ∧
      (∀ (key key' fieldkey fieldkey' v : Utf16) (size : ℤ), (0x3A : UInt16) ∉ key → (0x3A : UInt16) ∉ key' → (0x3A : UInt16) ∉ fieldkey →
        (0x3A : UInt16) ∉ fieldkey' → (key.length + 1 + fieldkey.length : ℕ) < size → (key'.length + 1 + fieldkey'.length : ℕ) < size →
          buildDeterministicValue key fieldkey size = .ok v → buildDeterministicValue key' fieldkey' size = .ok v →
            key = key' ∧ fieldkey = fieldkey') ∧
      ∀ (key key' fieldkey' : ν) (cells : Values ν), ∀ entry ∈ cells.entries, ∀ (v : Utf16) (it : ByteIterator), entry.2.toString = .ok (v, it) →
        w.value key' fieldkey' = .ok v → IsReadable w key entry.1 → IsReadable w key' fieldkey' →
          w.string key' ≠ w.string key ∨ w.string fieldkey' ≠ w.string entry.1 → ∀ status, w.verifyRow key cells = .ok status → status = .unexpectedState :=
  ⟨fun key fieldkey _ h => buildDeterministicValue_total key fieldkey h,
    fun _ _ _ _ _ _ hkey hkey' hfield hfield' hsize hsize' h h' =>
      buildDeterministicValue_inj hkey hkey' hfield hfield' hsize hsize' h h',
    fun _ _ _ _ _ hmem _ _ hread hv hnames hnames' hne _ h => verifyRow_other hmem hread hv hnames hnames' hne h⟩

end

/-- The values of the field `b` of the key `a` and of the field `a` of the key `b`, with eight characters. -/
theorem deterministicValue_spec_two : buildDeterministicValue [0x61] [0x62] 8 ≠ buildDeterministicValue [0x62] [0x61] 8 := by
  obtain ⟨htotal, hinj, -⟩ := deterministicValue_spec integrityEight
  intro h
  rcases htotal [0x61] [0x62] 8 (by decide) with ⟨v, hv, -⟩ | ⟨-, hlong | hlarge⟩
  · obtain ⟨hkey, -⟩ := hinj [0x61] [0x62] [0x62] [0x61] v 8 (by decide) (by decide) (by decide) (by decide) (by decide) (by decide) hv (h ▸ hv)
    exact absurd hkey (by decide)
  · exact absurd hlong (by decide)
  · exact absurd hlarge (by decide)

/-- Names that have almost as many characters as a string can have leave no room for a colon and a hash. -/
theorem not_deterministicValue_total :
    ¬ ∀ (key fieldkey : Utf16) (size : ℤ), 0 ≤ size → FitsInt size → ∃ v, buildDeterministicValue key fieldkey size = .ok v ∧ (v.length : ℤ) = size := by
  intro h
  obtain ⟨v, hv, -⟩ := h (List.replicate (2 ^ 30) 0x61) (List.replicate (2 ^ 30 - 3) 0x61) (2 ^ 31 - 1) (by decide) (by decide)
  have hlength := length_named (List.replicate (2 ^ 30) 0x61) (List.replicate (2 ^ 30 - 3) 0x61)
  rw [List.length_replicate, List.length_replicate] at hlength
  have hgrown := (length_grown (named (List.replicate (2 ^ 30) 0x61) (List.replicate (2 ^ 30 - 3) 0x61))).1
  rw [buildDeterministicValue, if_neg (by decide)] at hv
  dsimp only at hv
  rw [← named, if_pos (by omega)] at hv
  obtain ⟨sb, hsb, -⟩ := map_inv hv
  rw [growLoop, if_pos (by omega)] at hsb
  dsimp only at hsb
  rw [← grown, if_neg (by omega)] at hsb
  cases hsb

end YcsbIvs.Workloads
