import YcsbIvs.RocksDB.Binding

/-!
# What `extend` leaves in the record

`extend` reads each named field as a string, and puts the string joined with the increment
into the map that it then updates the record with. The iterator it has read from stays in
the map when the joined string would reach `maxfieldlength`: it is used up by then, and
`update` stores what it has left, nothing. So a field at the cap loses its contents
(`contents_left`), unless it had none.

`extend_appends_iff` says when an `extend` that reports `OK` does what it is for.
-/

namespace YcsbIvs.Extend

open YcsbIvs.Foundations YcsbIvs.Core

variable {τ ν σ : Type} [DecidableEq τ] [DecidableEq ν]

/-- The increment of a field: what `toString` of its iterator gives. -/
def incrOf (values : Values ν) (f : ν) : Utf16 :=
  match (values.lookup f).map ByteIterator.toString with
  | some (.ok (incr, _)) => incr
  | _ => []

/-- The length test of the loop, on the lengths themselves: where the sum does not fit in
an `int`, the joined string would be too long. -/
theorem asInt_lt_iff {M : ℤ} {n : ℕ} (hfits : asInt n < M → n < 2 ^ 31) : asInt n < M ↔ (n : ℤ) < M := by
  constructor
  · intro h
    rwa [asInt_of_fits ⟨by omega, by have := hfits h; omega⟩] at h
  · intro h
    have : asInt n ≤ n := by
      unfold asInt
      omega
    omega

/-- What the loop leaves in the map for a field whose bytes were `bs`. -/
theorem contents_left {M : ℤ} {a : ByteArrayByteIterator} {given left : ByteIterator} {bs : Bytes}
    (ha : a.Holds bs) (e : Extends M (.byteArray a) given left) :
    left.contents = some (if ((decode bs).length + e.incr.length : ℤ) < M
      then toBytes (decode bs) ++ toBytes e.incr else []) := by
  have hread := e.read_eq
  rw [ByteIterator.toString_byteArray ha, Except.ok.injEq, Prod.mk.injEq] at hread
  obtain ⟨horig, hused⟩ := hread
  have htest : asInt (e.orig.length + e.incr.length) < M ↔ ((decode bs).length + e.incr.length : ℤ) < M := by
    have := asInt_lt_iff (M := M) (n := e.orig.length + e.incr.length)
      (fun h => e.fits (by simpa using h))
    rw [horig]
    simpa using this
  refine (congrArg ByteIterator.contents e.left_eq).trans ?_
  simp only [htest]
  split_ifs
  · rw [ByteIterator.contents_of_holds (ByteIterator.holds_ofString _), toBytes_append, horig]
  · rw [← hused]
    have hholds : (ByteIterator.byteArray a).Holds bs := ha
    exact ByteIterator.contents_drain_of_holds hholds

/-- The map that the loop leaves, for a record `r` that was read: the fields that are named
are joined or used up, and what else is in it is as it was read. -/
structure LeftBy (M : ℤ) (r : Record ν) (values result : Values ν) : Prop where
  /-- Named fields. -/
  named : ∀ f ∈ values, ∃ bs it, r f = some bs ∧ result.lookup f = some it ∧
    it.contents = some (if ((decode bs).length + (incrOf values f).length : ℤ) < M
      then toBytes (decode bs) ++ toBytes (incrOf values f) else [])
  /-- The other fields. -/
  other : ∀ f ∉ values, ∀ it, result.lookup f = some it → ∃ bs, r f = some bs ∧ it.contents = some bs

theorem leftBy_of_loop {M : ℤ} {r : Record ν} {values result values' result' : Values ν}
    (hreads : ReadsOut r values.keys result) (hloop : extendLoop M values.keys values result = .ok (values', result')) :
    LeftBy M r values result' := by
  obtain ⟨hout, hin⟩ := extendLoop_lookup values.keys_nodup hloop
  constructor
  · intro f hf
    obtain ⟨read, given, left, ⟨e⟩, hread, hgiven, hleft⟩ := hin f hf
    obtain ⟨a, bs, rfl, ha, hrf⟩ := hreads.holds f read hread
    have hincr : incrOf values f = e.incr := by
      rw [incrOf, hgiven, Option.map_some, e.given_eq]
    refine ⟨bs, left, hrf, hleft, ?_⟩
    rw [hincr]
    exact contents_left ha e
  · intro f hf it hit
    rw [hout f hf] at hit
    obtain ⟨a, bs, rfl, ha, hrf⟩ := hreads.holds f it hit
    exact ⟨bs, hrf, ByteIterator.contents_byteArray ha⟩

/-- **The record after an `extend` that reports `OK`**: every field that is named was in the
record, and holds what the loop left of it; the others are as they were. -/
theorem extend_record {B : ExtendBinding τ ν σ} {s s' : σ} {table : τ} {key : ν} {values values' : Values ν} {M : ℤ}
    (h : B.extend s table key values M = .ok (some .ok, values', s')) :
    ∃ r r', B.records s table key = some r ∧ B.records s' = (B.records s).set table key (some r') ∧
      (∀ f ∉ values, r' f = r f) ∧
      ∀ f ∈ values, ∃ bs, r f = some bs ∧ r' f = some (if ((decode bs).length + (incrOf values f).length : ℤ) < M
        then toBytes (decode bs) ++ toBytes (incrOf values f) else []) := by
  obtain ⟨r, result, result', hr, hreads, hloop, -, hset⟩ := ExtendBinding.extend_ok h
  have hleft := leftBy_of_loop hreads hloop
  refine ⟨r, r.merge result', hr, hset, ?_, ?_⟩
  · intro f hf
    cases hres : result'.lookup f with
    | none => exact Record.merge_of_notMem (AList.lookup_eq_none.mp hres)
    | some it =>
      obtain ⟨bs, hrf, hc⟩ := hleft.other f hf it hres
      rw [Record.merge_of_lookup hres, hrf, hc]
  · intro f hf
    obtain ⟨bs, it, hrf, hit, hc⟩ := hleft.named f hf
    exact ⟨bs, hrf, by rw [Record.merge_of_lookup hit, hc]⟩

/-- What `extend` is for: each named field holds its contents, followed by the increment if
the two are shorter than `M` together; the others are unchanged. -/
structure Appends (M : ℤ) (values : Values ν) (r r' : Record ν) : Prop where
  /-- Named fields. -/
  named : ∀ f ∈ values, ∀ bs, r f = some bs →
    r' f = some (if (bs.length + (incrOf values f).length : ℤ) < M then bs ++ toBytes (incrOf values f) else bs)
  /-- The other fields. -/
  other : ∀ f ∉ values, r' f = r f
  /-- No field gets shorter. -/
  no_shorter : ∀ f bs, r f = some bs → ∃ bs', r' f = some bs' ∧ bs.length ≤ bs'.length

/-- **When `extend` appends**: an `extend` of a record of ASCII bytes that reports `OK` has
done so if and only if each named field stays below the cap with its increment, or is
empty. -/
theorem extend_appends_iff {B : ExtendBinding τ ν σ} {s s' : σ} {table : τ} {key : ν} {values values' : Values ν}
    {M : ℤ} {r : Record ν} (hr : B.records s table key = some r) (hascii : ∀ f bs, r f = some bs → IsAscii bs)
    (h : B.extend s table key values M = .ok (some .ok, values', s')) :
    (∃ r', B.records s' table key = some r' ∧ Appends M values r r') ↔
      ∀ f ∈ values, ∀ bs, r f = some bs → (bs.length + (incrOf values f).length : ℤ) < M ∨ bs = [] := by
  obtain ⟨r₀, r', hr₀, hset, hother, hnamed⟩ := extend_record h
  obtain rfl : r₀ = r := Option.some.inj (hr₀.symm.trans hr)
  have hafter : B.records s' table key = some r' := by
    rw [hset, Records.set_self]
  -- the named fields after the extend, in their bytes
  have hbytes : ∀ f ∈ values, ∀ bs, r₀ f = some bs → r' f =
      some (if (bs.length + (incrOf values f).length : ℤ) < M then bs ++ toBytes (incrOf values f) else []) := by
    intro f hf bs hbs
    obtain ⟨bs', hbs', hr'⟩ := hnamed f hf
    obtain rfl : bs' = bs := Option.some.inj (hbs'.symm.trans hbs)
    have hlen : (decode bs').length = bs'.length := by
      rw [decode_ascii (hascii f bs' hbs), List.length_map]
    rw [hr', toBytes_decode (hascii f bs' hbs), hlen]
  constructor
  · rintro ⟨r'', hr'', happ⟩ f hf bs hbs
    obtain rfl : r'' = r' := Option.some.inj (hr''.symm.trans hafter)
    by_cases hlt : (bs.length + (incrOf values f).length : ℤ) < M
    · exact .inl hlt
    · have hleft := happ.named f hf bs hbs
      rw [hbytes f hf bs hbs, if_neg hlt, if_neg hlt, Option.some.injEq] at hleft
      exact .inr hleft.symm
  · intro hcond
    have hnamed' : ∀ f ∈ values, ∀ bs, r₀ f = some bs →
        r' f = some (if (bs.length + (incrOf values f).length : ℤ) < M then bs ++ toBytes (incrOf values f) else bs) := by
      intro f hf bs hbs
      rw [hbytes f hf bs hbs]
      split_ifs with hlt
      · rfl
      · rcases hcond f hf bs hbs with hlt' | hnil
        · exact absurd hlt' hlt
        · rw [hnil]
    refine ⟨r', hafter, hnamed', hother, ?_⟩
    intro f bs hbs
    by_cases hf : f ∈ values
    · refine ⟨_, hnamed' f hf bs hbs, ?_⟩
      split_ifs
      · rw [List.length_append]
        exact Nat.le_add_right _ _
      · exact Nat.le_refl _
    · exact ⟨bs, (hother f hf).trans hbs, Nat.le_refl _⟩

/-! ### Over RocksDB -/

open YcsbIvs.RocksDB

/-- A map whose field `f` is the string `ab`. -/
def fieldAb : Values Name := oneField (.string (.ofString [0x61, 0x62]))

/-- An increment of `f` by the string `c`. -/
def incrementC : Values Name := oneField (.string (.ofString [0x63]))

theorem records_fieldAb : (storeWith fieldAb).1.records tableT keyK = some (contentsOf fieldAb) :=
  records_storeWith (readable_oneField (ByteIterator.holds_ofString _)) (by decide)

theorem isAscii_fieldAb (f : Name) (bs : Bytes) (h : contentsOf fieldAb f = some bs) : IsAscii bs := by
  obtain ⟨it, hit, hc⟩ := Option.bind_eq_some_iff.mp h
  obtain ⟨-, rfl⟩ := lookup_oneField hit
  rw [ByteIterator.contents_of_holds (ByteIterator.holds_ofString _), Option.some.injEq] at hc
  have hab : IsAscii (toBytes [0x61, 0x62]) := isAscii_of_all rfl
  exact hc ▸ hab

theorem extend_incrementC (M : ℤ) (hM : M = 3 ∨ M = 4) :
    ∃ values' s', (extendBinding keptOrder).extend (storeWith fieldAb) tableT keyK incrementC M =
      .ok (some .ok, values', s') := by
  rcases hM with rfl | rfl <;> exact ⟨_, _, rfl⟩

/-- The increment `c` over `ab`, below the cap of four. -/
theorem extend_appends_iff_fieldAb :
    ∃ values' s', (extendBinding keptOrder).extend (storeWith fieldAb) tableT keyK incrementC 4 =
        .ok (some .ok, values', s') ∧
      ((∃ r', (extendBinding keptOrder).records s' tableT keyK = some r' ∧
          Appends 4 incrementC (contentsOf fieldAb) r') ↔
        ∀ f ∈ incrementC, ∀ bs, contentsOf fieldAb f = some bs →
          (bs.length + (incrOf incrementC f).length : ℤ) < 4 ∨ bs = []) := by
  obtain ⟨values', s', h⟩ := extend_incrementC 4 (.inr rfl)
  exact ⟨values', s', h, extend_appends_iff (B := extendBinding keptOrder) (s := storeWith fieldAb) records_fieldAb
    isAscii_fieldAb h⟩

/-- At a cap of three the same extend reports `OK`, and the field is empty. -/
theorem not_appends_fieldAb :
    ∃ values' s', (extendBinding keptOrder).extend (storeWith fieldAb) tableT keyK incrementC 3 =
        .ok (some .ok, values', s') ∧
      (extendBinding keptOrder).records (storeWith fieldAb) tableT keyK = some (contentsOf fieldAb) ∧
      (∀ f bs, contentsOf fieldAb f = some bs → IsAscii bs) ∧
      ¬ ∃ r', (extendBinding keptOrder).records s' tableT keyK = some r' ∧
        Appends 3 incrementC (contentsOf fieldAb) r' := by
  obtain ⟨values', s', h⟩ := extend_incrementC 3 (.inl rfl)
  refine ⟨values', s', h, records_fieldAb, isAscii_fieldAb, ?_⟩
  rintro ⟨r', hr', happ⟩
  obtain ⟨r, r'', hr, hset, -, hnamed⟩ := extend_record h
  obtain rfl : r = contentsOf fieldAb := Option.some.inj (hr.symm.trans records_fieldAb)
  rw [hset, Records.set_self, Option.some.injEq] at hr'
  obtain ⟨bs, hbs, hleft⟩ := hnamed fieldF (by decide)
  obtain rfl : bs = [0x61, 0x62] := (Option.some.inj hbs).symm
  obtain ⟨bs', hbs', hle⟩ := happ.no_shorter fieldF _ hbs
  rw [← hr', hleft, if_neg (by decide), Option.some.injEq] at hbs'
  rw [← hbs'] at hle
  exact absurd hle (by decide)

end YcsbIvs.Extend
