import YcsbIvs.Core.DB
import YcsbIvs.Foundations.Gather
import YcsbIvs.Foundations.Split
import YcsbIvs.TimeSeries.Queries

/-!
# Parsing a query

`TimeseriesDB` gets the strings of a query in a set, so in any order, and makes of them the timestamps and the tags for the `read` or `scan` of a
binding. Each string is taken for what it begins with, and cut at the pair delimiter.

Numbers are parsed as `Long.valueOf` does it, with the decimal digits of all scripts; one that was written by `longToString` is read back
(`parseLong_longToString`).
-/

namespace YcsbIvs.TimeSeries

open YcsbIvs.Core YcsbIvs.Foundations YcsbIvs.Generator
open YcsbIvs.Workloads (longToString)

/-! ### Numbers -/

/-- The zeros of the decimal digits. -/
def zeroDigits : List ℕ :=
  [0x0030, 0x0660, 0x06F0, 0x07C0, 0x0966, 0x09E6, 0x0A66, 0x0AE6, 0x0B66, 0x0BE6, 0x0C66, 0x0CE6, 0x0D66, 0x0E50, 0x0ED0, 0x0F20, 0x1040,
    0x1090, 0x17E0, 0x1810, 0x1946, 0x19D0, 0x1A80, 0x1A90, 0x1B50, 0x1BB0, 0x1C40, 0x1C50, 0xA620, 0xA8D0, 0xA900, 0xA9D0, 0xAA50, 0xABF0,
    0xFF10]

/-- `Character.digit(c, 10)`, `none` for -1. -/
def digit (c : UInt16) : Option ℕ := (zeroDigits.find? fun z => z ≤ c.toNat && c.toNat < z + 10).map fun z => c.toNat - z

/-- The number of some digits, after `n`. -/
def parseDigits : Utf16 → ℕ → Option ℕ
  | [], n => some n
  | c :: s, n =>
    match digit c with
    | none => none
    | some d => parseDigits s (10 * n + d)

/-- The digits of a number, and whether a minus is before them. -/
def signed : Utf16 → Bool × Utf16
  | [] => (false, [])
  | c :: s => if c = 0x2D then (true, s) else if c = 0x2B then (false, s) else (false, c :: s)

/-- `Long.valueOf(s)`. -/
def parseLong (s : Utf16) : Except Thrown ℤ :=
  let (negative, digits) := signed s
  if digits.isEmpty then .error .numberFormat
  else match parseDigits digits 0 with
    | none => .error .numberFormat
    | some n =>
      let value : ℤ := if negative then -n else n
      if FitsLong value then .ok value else .error .numberFormat

/-- A character of a number. -/
def IsNumeral (c : UInt16) : Prop := c = 0x2D ∨ (0x30 ≤ c.toNat ∧ c.toNat ≤ 0x39)

theorem digit_ofNat {c : Char} (h : c.isDigit = true) : digit (UInt16.ofNat c.toNat) = some (c.toNat - 0x30) := by
  simp only [Char.isDigit, Bool.and_eq_true, decide_eq_true_eq] at h
  have hge : 48 ≤ c.toNat := h.1
  have hle : c.toNat ≤ 57 := h.2
  have hnat : (UInt16.ofNat c.toNat).toNat = c.toNat := by
    rw [UInt16.toNat_ofNat']
    omega
  rw [digit, zeroDigits, hnat, List.find?_cons_of_pos]
  · rfl
  · simp only [Bool.and_eq_true, decide_eq_true_eq]
    omega

theorem parseDigits_map {l : List Char} (h : ∀ c ∈ l, c.isDigit = true) (n : ℕ) :
    parseDigits (l.map fun c => UInt16.ofNat c.toNat) n = some (Nat.ofDigitChars 10 l n) := by
  induction l generalizing n with
  | nil => rfl
  | cons c l ih =>
    rw [List.map_cons, parseDigits, digit_ofNat (h c List.mem_cons_self)]
    dsimp only
    rw [ih (fun d hd => h d (List.mem_cons_of_mem c hd)), Nat.ofDigitChars_cons]
    rfl

/-- The characters of a number. -/
theorem isNumeral_longToString {n : ℤ} {c : UInt16} (h : c ∈ longToString n) : IsNumeral c := by
  have hdigits : ∀ d ∈ (Nat.toDigits 10 n.natAbs).map fun c => UInt16.ofNat c.toNat, IsNumeral d := by
    intro d hd
    obtain ⟨a, ha, rfl⟩ := List.mem_map.mp hd
    have hdigit := Nat.isDigit_of_mem_toDigits (by decide) (by decide) ha
    simp only [Char.isDigit, Bool.and_eq_true, decide_eq_true_eq] at hdigit
    have hge : 48 ≤ a.toNat := hdigit.1
    have hle : a.toNat ≤ 57 := hdigit.2
    right
    rw [UInt16.toNat_ofNat']
    omega
  rw [longToString] at h
  split_ifs at h
  · rcases List.mem_cons.mp h with rfl | h
    · exact .inl rfl
    · exact hdigits c h
  · exact hdigits c h

theorem longToString_ne_nil (n : ℤ) : longToString n ≠ [] := by
  rw [longToString]
  split_ifs
  · exact List.cons_ne_nil _ _
  · exact mt List.map_eq_nil_iff.mp Nat.toDigits_ne_nil

/-- A number of 64 bits is read back. -/
theorem parseLong_longToString {n : ℤ} (h : FitsLong n) : parseLong (longToString n) = .ok n := by
  have hall : ∀ c ∈ Nat.toDigits 10 n.natAbs, c.isDigit = true := fun c hc => Nat.isDigit_of_mem_toDigits (by decide) (by decide) hc
  have hparse : parseDigits ((Nat.toDigits 10 n.natAbs).map fun c => UInt16.ofNat c.toNat) 0 = some n.natAbs := by
    rw [parseDigits_map hall, Nat.ofDigitChars_toDigits (by decide) (by decide)]
  obtain ⟨a, l, hcons⟩ := List.exists_cons_of_ne_nil (Nat.toDigits_ne_nil (n := n.natAbs) (b := 10))
  by_cases hneg : n < 0
  · have hvalue : -(n.natAbs : ℤ) = n := by omega
    rw [longToString, if_pos hneg, parseLong, signed, if_pos rfl]
    dsimp only
    rw [hparse, if_neg (by simp [hcons])]
    dsimp only
    rw [if_pos rfl, hvalue, if_pos h]
  · have hvalue : (n.natAbs : ℤ) = n := by omega
    -- a digit is not a sign
    have hsigned : signed ((Nat.toDigits 10 n.natAbs).map fun c => UInt16.ofNat c.toNat) =
        (false, (Nat.toDigits 10 n.natAbs).map fun c => UInt16.ofNat c.toNat) := by
      have hdigit := hall a (hcons ▸ List.mem_cons_self)
      simp only [Char.isDigit, Bool.and_eq_true, decide_eq_true_eq] at hdigit
      have hge : 48 ≤ a.toNat := hdigit.1
      have hle : a.toNat ≤ 57 := hdigit.2
      have hnat : (UInt16.ofNat a.toNat).toNat = a.toNat := by
        rw [UInt16.toNat_ofNat']
        omega
      rw [hcons, List.map_cons, signed, if_neg, if_neg]
      · intro heq
        rw [heq] at hnat
        have h43 : (0x2B : UInt16).toNat = 43 := rfl
        omega
      · intro heq
        rw [heq] at hnat
        have h45 : (0x2D : UInt16).toNat = 45 := rfl
        omega
    rw [longToString, if_neg hneg, parseLong, hsigned]
    dsimp only
    rw [hparse, if_neg (by simp [hcons])]
    dsimp only
    rw [if_neg Bool.false_ne_true, hvalue, if_pos h]

/-! ### The binding -/

/-- A constant of an enumeration, if there is one of the name. -/
def orIllegal {α : Type} : Option α → Except Thrown α
  | none => .error .illegalArgument
  | some a => .ok a

theorem orIllegal_eq_ok {α : Type} {o : Option α} {a : α} : orIllegal o = .ok a ↔ o = some a := by
  cases o <;> simp [orIllegal]

/-- `AggregationOperation`. -/
inductive AggregationOperation where
  /-- `NONE`. -/
  | none
  /-- `SUM`. -/
  | sum
  /-- `AVERAGE`. -/
  | average
  /-- `COUNT`. -/
  | count
  /-- `MAX`. -/
  | max
  /-- `MIN`. -/
  | min
  deriving DecidableEq, Repr

namespace AggregationOperation

/-- `toString()`. -/
def toString : AggregationOperation → Utf16
  | none => [0x4E, 0x4F, 0x4E, 0x45]
  | sum => [0x53, 0x55, 0x4D]
  | average => [0x41, 0x56, 0x45, 0x52, 0x41, 0x47, 0x45]
  | count => [0x43, 0x4F, 0x55, 0x4E, 0x54]
  | max => [0x4D, 0x41, 0x58]
  | min => [0x4D, 0x49, 0x4E]

/-- `values()`. -/
def values : List AggregationOperation := [none, sum, average, count, max, min]

/-- `AggregationOperation.valueOf(name)`. -/
def valueOf (name : Utf16) : Except Thrown AggregationOperation := orIllegal (values.find? fun op => op.toString = name)

end AggregationOperation

/-- `TimeseriesDB`. -/
structure TimeseriesDB where
  timestampKey : Utf16
  tagPairDelimiter : Utf16
  queryTimeSpanDelimiter : Utf16
  timestampUnit : TimeUnit
  groupByKey : Utf16
  downsamplingKey : Utf16
  downsamplingFunction : AggregationOperation
  downsamplingInterval : ℤ

/-- `init()`, if the unit is in upper case and the interval is not set or not empty; it throws otherwise. -/
def TimeseriesDB.init (p : Properties) : Except Thrown TimeseriesDB := do
  let timestampUnit ← orIllegal p.timestampunits
  let downsamplingFunction ← AggregationOperation.valueOf (p.downsamplingfunction.getD AggregationOperation.none.toString)
  .ok
    { timestampKey := p.timestampkey
      tagPairDelimiter := p.tagpairdelimiter
      queryTimeSpanDelimiter := p.querytimespandelimiter
      timestampUnit := timestampUnit
      groupByKey := p.groupbykey
      downsamplingKey := p.downsamplingkey
      downsamplingFunction := downsamplingFunction
      downsamplingInterval := (p.downsamplinginterval.getD (.of 0)).val }

/-- Why `read` or `scan` is over before it calls that of the binding. -/
inductive Stop where
  /-- It throws. -/
  | thrown (t : Thrown)
  /-- It returns. -/
  | returns (status : Status)
  deriving DecidableEq

/-- An exception of a step. -/
def orStop {α : Type} (x : Except Thrown α) : Except Stop α := x.mapError .thrown

section

variable (db : TimeseriesDB)

/-- `field.split(tagPairDelimiter)[1]`. -/
def secondPart (field : Utf16) : Except Stop Utf16 := orStop (elementAt (split db.tagPairDelimiter field) 1)

/-- The tag of a field. -/
def readTag {τ : Type} (queryParts : List Utf16) : Except Stop (Item τ Utf16 Utf16) := do
  let name ← orStop (elementAt queryParts 0)
  let value ← orStop (elementAt queryParts 1)
  .ok (.pair name value)

/-- A round of the loop of `read`. -/
def readField (field : Utf16) : Except Stop (Item ℤ Utf16 Utf16) :=
  if db.timestampKey.isPrefixOf field then do
    let timestamp ← secondPart db field
    if occurs db.queryTimeSpanDelimiter timestamp then .error (.returns .badRequest)
    else do
      let timestamp ← orStop (parseLong timestamp)
      .ok (.mark timestamp)
  else readTag (split db.tagPairDelimiter field)

/-- The range of the timestamps, in `scan`. -/
def readRange (field : Utf16) : Except Stop (ℤ × ℤ) := do
  let timestamps ← secondPart db field
  if occurs db.queryTimeSpanDelimiter timestamps then do
    let rangeParts := split db.queryTimeSpanDelimiter timestamps
    let start ← orStop (elementAt rangeParts 0)
    let start ← orStop (parseLong start)
    let ending ← orStop (elementAt rangeParts 1)
    let ending ← orStop (parseLong ending)
    .ok (start, ending)
  else .error (.returns .notImplemented)

/-- A round of the loop of `scan`. The groups that it finds are not used. -/
def scanField (field : Utf16) : Except Stop (Item (ℤ × ℤ) Utf16 Utf16) :=
  if db.timestampKey.isPrefixOf field then do
    let range ← readRange db field
    .ok (.mark range)
  else if db.groupByKey.isPrefixOf field then do
    let groupBySpecifier ← secondPart db field
    let _ ← orStop (AggregationOperation.valueOf groupBySpecifier)
    .ok .skip
  else if db.downsamplingKey.isPrefixOf field then do
    let downsamplingSpec ← secondPart db field
    if downsamplingSpec = db.downsamplingFunction.toString ++ longToString db.downsamplingInterval then .ok .skip
    else .error (.returns .badRequest)
  else
    let queryParts := split db.tagPairDelimiter field
    if queryParts.length = 1 then .ok .skip else readTag queryParts

/-- What comes of `read` or `scan`: the call of that of the binding, if it gets there. -/
inductive Answer (Call : Type) where
  /-- It returns a status. -/
  | returns (status : Status)
  /-- It calls that of the binding. -/
  | calls (call : Call)

/-- What comes of the loop. -/
def answer {τ Call : Type} (call : τ → SortedMap Utf16 (List Utf16) → Call) (x : Except Stop (Gathered τ Utf16 Utf16)) :
    Except Thrown (Answer Call) :=
  match x with
  | .error (.thrown t) => .error t
  | .error (.returns status) => .ok (.returns status)
  | .ok found =>
    match found.mark with
    | none => .ok (.returns .badRequest)
    | some mark => .ok (.calls (call mark found.pairs))

/-- `read(metric, timestamp, tags)`. -/
structure ReadCall where
  metric : Utf16
  timestamp : ℤ
  tags : SortedMap Utf16 (List Utf16)

/-- `read(table, key, fields, result)`, the fields in the order in which they are gone through. -/
def TimeseriesDB.read (table : Utf16) (fields : List Utf16) : Except Thrown (Answer ReadCall) :=
  answer (fun timestamp tags => ⟨table, timestamp, tags⟩) (gather (readField db) fields .empty)

/-- `scan(metric, startTs, endTs, tags, aggreg, timeValue, timeUnit)`. -/
structure ScanCall where
  metric : Utf16
  startTs : ℤ
  endTs : ℤ
  tags : SortedMap Utf16 (List Utf16)
  aggreg : AggregationOperation
  timeValue : ℤ
  timeUnit : TimeUnit

/-- `scan(table, startkey, recordcount, fields, result)`, the fields in the order in which they are gone through. -/
def TimeseriesDB.scan (table : Utf16) (fields : List Utf16) : Except Thrown (Answer ScanCall) :=
  answer (fun range tags => ⟨table, range.1, range.2, tags, db.downsamplingFunction, db.downsamplingInterval, db.timestampUnit⟩)
    (gather (scanField db) fields .empty)

end

end YcsbIvs.TimeSeries
