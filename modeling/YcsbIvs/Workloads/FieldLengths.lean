import YcsbIvs.Foundations.Lines
import YcsbIvs.Generator.Histogram
import YcsbIvs.Generator.Zipfian
import YcsbIvs.TimeSeries.TimeseriesDB
import Mathlib.Logic.Function.DependsOn

/-!
# Lengths of fields

`getFieldLengthGenerator` and `getExtendFieldLengthGenerator` make a generator of lengths of the properties for a distribution, a length and the file of a histogram. Those of
the second have names of their own, `extendfieldlengthhistogram` among them, but the second function asks for `fieldlengthhistogram` as well.

What the function makes depends on that property and four others (`dependsOn_getExtendFieldLengthGenerator`). **It is independent of the lengths of an insert, and takes its own
file, just if it comes to no histogram, or the files are the same** (`extendLengths_iff`).
-/

namespace YcsbIvs.Workloads

open YcsbIvs.Foundations YcsbIvs.Generator
open YcsbIvs.TimeSeries (parseLong)

/-! ### Histograms of a file -/

/-- `Integer.parseInt(s)`. -/
def parseInt (s : Utf16) : Except Thrown ℤ := do
  let n ← parseLong s
  if FitsInt n then .ok n else .error .numberFormat

/-- What the constructor of a `HistogramGenerator` throws. -/
inductive HistogramError where
  /-- An `IOException`. -/
  | io
  /-- The index of a bucket is more than there are before it, or negative. -/
  | indexOutOfBounds
  /-- Another exception. -/
  | thrown (t : Thrown)
  deriving DecidableEq

/-- An exception of a step. -/
def orThrown {α : Type} : Except Thrown α → Except HistogramError α := Except.mapError .thrown

/-- The loop over the lines of the buckets, each with its index and its value. -/
def readBuckets : List Utf16 → List ℤ → Except HistogramError (List ℤ)
  | [], a => .ok a
  | str :: lines, a => do
    let line := split [0x09] str
    let index ← orThrown (elementAt line 0 >>= parseInt)
    let value ← orThrown (elementAt line 1 >>= parseInt)
    if 0 ≤ index ∧ index ≤ a.length then readBuckets lines (a.insertIdx index.toNat value) else .error .indexOutOfBounds

/-- `BlockSize`. -/
def blockSizeName : Utf16 := [0x42, 0x6C, 0x6F, 0x63, 0x6B, 0x53, 0x69, 0x7A, 0x65]

/-- `new HistogramGenerator(histogramfile)`, with the texts of the files there are. -/
def newHistogramGenerator (files : Utf16 → Option Utf16) (histogramfile : Utf16) : Except HistogramError HistogramGenerator :=
  match (files histogramfile).map (readLines false []) with
  | none => .error .io
  | some [] => .error .io
  | some (str :: lines) => do
    let line := split [0x09] str
    let name ← orThrown (elementAt line 0)
    if name ≠ blockSizeName then .error .io
    else do
      let blockSize ← orThrown (elementAt line 1 >>= parseInt)
      let buckets ← readBuckets lines []
      .ok (.new buckets (.of blockSize))

/-! ### Properties -/

/-- The properties of the lengths. -/
inductive LengthProperty where
  /-- `fieldlengthdistribution`. -/
  | fieldlengthdistribution
  /-- `fieldlength`. -/
  | fieldlength
  /-- `minfieldlength`. -/
  | minfieldlength
  /-- `fieldlengthhistogram`. -/
  | fieldlengthhistogram
  /-- `extendfieldlengthdistribution`. -/
  | extendfieldlengthdistribution
  /-- `extendfieldlength`. -/
  | extendfieldlength
  /-- `extendfieldlengthhistogram`. -/
  | extendfieldlengthhistogram
  deriving DecidableEq

/-- Those that are set. -/
abbrev LengthProperties := LengthProperty → Option Utf16

/-- `p.getProperty(name, defaultValue)`. -/
def LengthProperties.getProperty (p : LengthProperties) (name : LengthProperty) (defaultValue : Utf16) : Utf16 := (p name).getD defaultValue

/-- `constant`. -/
def constantName : Utf16 := [0x63, 0x6F, 0x6E, 0x73, 0x74, 0x61, 0x6E, 0x74]

/-- `uniform`. -/
def uniformName : Utf16 := [0x75, 0x6E, 0x69, 0x66, 0x6F, 0x72, 0x6D]

/-- `zipfian`. -/
def zipfianName : Utf16 := [0x7A, 0x69, 0x70, 0x66, 0x69, 0x61, 0x6E]

/-- `histogram`. -/
def histogramName : Utf16 := [0x68, 0x69, 0x73, 0x74, 0x6F, 0x67, 0x72, 0x61, 0x6D]

/-- `hist.txt`, the default of `fieldlengthhistogram`. -/
def defaultHistogram : Utf16 := [0x68, 0x69, 0x73, 0x74, 0x2E, 0x74, 0x78, 0x74]

/-- `100`, the default of both lengths. -/
def defaultLength : Utf16 := [0x31, 0x30, 0x30]

/-- `1`, the default of `minfieldlength`. -/
def defaultMinLength : Utf16 := [0x31]

/-! ### The generators -/

variable {D : Type}

/-- The `NumberGenerator` of a length. -/
inductive LengthGenerator (D : Type) where
  /-- `ConstantIntegerGenerator`. -/
  | constant (i : ℤ)
  /-- `UniformLongGenerator`. -/
  | uniform (g : UniformLongGenerator)
  /-- `ZipfianGenerator`. -/
  | zipfian (g : ZipfianGenerator D)
  /-- `HistogramGenerator`. -/
  | histogram (g : HistogramGenerator)

/-- What the messages call the length. -/
inductive LengthName where
  /-- `field length`. -/
  | fieldLength
  /-- `extend field length`. -/
  | extendFieldLength
  deriving DecidableEq

/-- What is thrown instead. -/
inductive LengthError where
  /-- `WorkloadException`: `Couldn't read … histogram file: …`. -/
  | unread (name : LengthName) (file : Utf16)
  /-- `WorkloadException`: `Unknown … distribution "…"`. -/
  | unknown (name : LengthName) (distribution : Utf16)
  /-- `NumberFormatException` of a length. -/
  | numberFormat
  /-- Another exception of the file. -/
  | histogram (e : HistogramError)
  deriving DecidableEq

/-- A length that is parsed. -/
def parseLength (s : Utf16) : Except LengthError ℤ := (parseInt s).mapError fun _ => .numberFormat

/-- `new HistogramGenerator(file)` where an `IOException` is caught. -/
def histogramOf (files : Utf16 → Option Utf16) (name : LengthName) (file : Utf16) : Except LengthError HistogramGenerator :=
  match newHistogramGenerator files file with
  | .ok g => .ok g
  | .error .io => .error (.unread name file)
  | .error e => .error (.histogram e)

/-- The generator of a distribution, for lengths from `minfieldlength` to `fieldlength`; `u` is the first draw of a Zipfian. -/
def ofDistribution (A : Arithmetic D) (files : Utf16 → Option Utf16) (name : LengthName) (distribution : Utf16) (minfieldlength fieldlength : ℤ)
    (histogram : Utf16) (u : D) : Except LengthError (LengthGenerator D) :=
  if distribution = constantName then .ok (.constant fieldlength)
  else if distribution = uniformName then .ok (.uniform (.new minfieldlength fieldlength))
  else if distribution = zipfianName then .ok (.zipfian (.new A minfieldlength fieldlength (A.ofRat (99 / 100)) u))
  else if distribution = histogramName then (histogramOf files name histogram).map .histogram
  else .error (.unknown name distribution)

/-- The body of both functions, for the names of the properties. -/
def lengthGenerator (A : Arithmetic D) (files : Utf16 → Option Utf16) (name : LengthName) (distribution length histogram : LengthProperty)
    (p : LengthProperties) (u : D) : Except LengthError (LengthGenerator D) := do
  let fieldlengthdistribution := p.getProperty distribution constantName
  let fieldlength ← parseLength (p.getProperty length defaultLength)
  let minfieldlength ← parseLength (p.getProperty .minfieldlength defaultMinLength)
  let fieldlengthhistogram := p.getProperty histogram defaultHistogram
  ofDistribution A files name fieldlengthdistribution minfieldlength fieldlength fieldlengthhistogram u

/-- `getFieldLengthGenerator(p)`. -/
def getFieldLengthGenerator (A : Arithmetic D) (files : Utf16 → Option Utf16) (p : LengthProperties) (u : D) : Except LengthError (LengthGenerator D) :=
  lengthGenerator A files .fieldLength .fieldlengthdistribution .fieldlength .fieldlengthhistogram p u

/-- `getExtendFieldLengthGenerator(p)`. The file is that of the other function. -/
def getExtendFieldLengthGenerator (A : Arithmetic D) (files : Utf16 → Option Utf16) (p : LengthProperties) (u : D) :
    Except LengthError (LengthGenerator D) :=
  lengthGenerator A files .extendFieldLength .extendfieldlengthdistribution .extendfieldlength .fieldlengthhistogram p u

/-- What the second function is to make: of its own file. -/
def ownExtendFieldLengthGenerator (A : Arithmetic D) (files : Utf16 → Option Utf16) (p : LengthProperties) (u : D) :
    Except LengthError (LengthGenerator D) :=
  lengthGenerator A files .extendFieldLength .extendfieldlengthdistribution .extendfieldlength .extendfieldlengthhistogram p u

/-! ### What they depend on -/

/-- The properties of an extend. -/
def extendProperties : Set LengthProperty :=
  {.extendfieldlengthdistribution, .extendfieldlength, .minfieldlength, .extendfieldlengthhistogram}

/-- The body comes to the histogram. -/
structure ReadsHistogram (distribution length : LengthProperty) (p : LengthProperties) : Prop where
  distribution : p.getProperty distribution constantName = histogramName
  length : ∃ n, parseLength (p.getProperty length defaultLength) = .ok n
  minLength : ∃ n, parseLength (p.getProperty .minfieldlength defaultMinLength) = .ok n

/-- The files are one, or have the same histogram in them; both may be no histograms in the same way, but if they cannot be read the message has their name. -/
def SameHistogram (files : Utf16 → Option Utf16) (file file' : Utf16) : Prop :=
  file = file' ∨ (newHistogramGenerator files file = newHistogramGenerator files file' ∧ newHistogramGenerator files file ≠ .error .io)

section

variable (A : Arithmetic D) (files : Utf16 → Option Utf16)

/-- The body depends on the properties that it asks for. -/
theorem dependsOn_lengthGenerator (name : LengthName) (distribution length histogram : LengthProperty) (u : D) :
    DependsOn (fun p : LengthProperties => lengthGenerator A files name distribution length histogram p u)
      {distribution, length, .minfieldlength, histogram} := by
  intro p p' h
  simp only [lengthGenerator, LengthProperties.getProperty]
  rw [h distribution (by simp), h length (by simp), h .minfieldlength (by simp), h histogram (by simp)]

/-- What the second function makes depends on a property of the first. -/
theorem dependsOn_getExtendFieldLengthGenerator (u : D) :
    DependsOn (fun p : LengthProperties => getExtendFieldLengthGenerator A files p u)
      {.extendfieldlengthdistribution, .extendfieldlength, .minfieldlength, .fieldlengthhistogram} :=
  dependsOn_lengthGenerator A files _ _ _ _ u

/-- What it is to make does not. -/
theorem dependsOn_ownExtendFieldLengthGenerator (u : D) :
    DependsOn (fun p : LengthProperties => ownExtendFieldLengthGenerator A files p u) extendProperties :=
  dependsOn_lengthGenerator A files _ _ _ _ u

/-- What the first function makes does not depend on the properties of the second. -/
theorem dependsOn_getFieldLengthGenerator (u : D) :
    DependsOn (fun p : LengthProperties => getFieldLengthGenerator A files p u)
      {.fieldlengthdistribution, .fieldlength, .minfieldlength, .fieldlengthhistogram} :=
  dependsOn_lengthGenerator A files _ _ _ _ u

variable {A files}

theorem histogramOf_eq_iff {name : LengthName} {file file' : Utf16} :
    histogramOf files name file = histogramOf files name file' ↔ SameHistogram files file file' := by
  by_cases hfile : file = file'
  · rw [hfile]
    exact iff_of_true rfl (.inl rfl)
  rw [SameHistogram, or_iff_right hfile, histogramOf, histogramOf]
  cases hr : newHistogramGenerator files file with
  | ok g =>
    cases hr' : newHistogramGenerator files file' with
    | ok g' => simp
    | error e' => cases e' <;> simp
  | error e =>
    cases hr' : newHistogramGenerator files file' with
    | ok g' => cases e <;> simp
    | error e' => cases e <;> cases e' <;> simp [hfile]

theorem map_histogram_eq_iff {x y : Except LengthError HistogramGenerator} :
    (x.map LengthGenerator.histogram : Except LengthError (LengthGenerator D)) = y.map LengthGenerator.histogram ↔ x = y := by
  cases x <;> cases y <;> simp [Except.map]

/-- **Two calls that differ in the property of the file only** make the same just if they come to no histogram, or to the same. -/
theorem lengthGenerator_eq_iff {name : LengthName} {distribution length histogram histogram' : LengthProperty} {p p' : LengthProperties} {u : D}
    (hdistribution : p distribution = p' distribution) (hlength : p length = p' length) (hmin : p .minfieldlength = p' .minfieldlength) :
    lengthGenerator A files name distribution length histogram p u = lengthGenerator A files name distribution length histogram' p' u ↔
      ¬ ReadsHistogram distribution length p ∨
        SameHistogram files (p.getProperty histogram defaultHistogram) (p'.getProperty histogram' defaultHistogram) := by
  have hget : ∀ {property : LengthProperty} (d : Utf16), p property = p' property → p'.getProperty property d = p.getProperty property d := by
    intro property d h
    rw [LengthProperties.getProperty, LengthProperties.getProperty, h]
  rw [lengthGenerator, lengthGenerator]
  dsimp only
  rw [hget _ hdistribution, hget _ hlength, hget _ hmin]
  cases hn : parseLength (p.getProperty length defaultLength) with
  | error e => exact iff_of_true rfl (.inl fun h => by obtain ⟨n, hok⟩ := h.length; rw [hn] at hok; cases hok)
  | ok n =>
  cases hm : parseLength (p.getProperty .minfieldlength defaultMinLength) with
  | error e => exact iff_of_true rfl (.inl fun h => by obtain ⟨m, hok⟩ := h.minLength; rw [hm] at hok; cases hok)
  | ok m =>
  rw [bind_ok rfl, bind_ok rfl, bind_ok rfl, bind_ok rfl]
  by_cases hreads : p.getProperty distribution constantName = histogramName
  · have hR : ReadsHistogram distribution length p := ⟨hreads, ⟨n, hn⟩, ⟨m, hm⟩⟩
    have hsame : SameHistogram files (p.getProperty histogram defaultHistogram) (p'.getProperty histogram' defaultHistogram) ↔
        histogramOf files name (p.getProperty histogram defaultHistogram) = histogramOf files name (p'.getProperty histogram' defaultHistogram) :=
      histogramOf_eq_iff.symm
    rw [or_iff_right (not_not_intro hR), hsame, ← map_histogram_eq_iff (D := D), hreads]
    exact Iff.rfl
  · have hR : ¬ ReadsHistogram distribution length p := fun h => hreads h.distribution
    refine iff_of_true ?_ (.inl hR)
    simp only [ofDistribution, if_neg hreads]

/-- **What an extend's generator is made of is independent of an insert's, and is its own file, just if it comes to no histogram, or the files are the same.** -/
theorem extendLengths_iff (A : Arithmetic D) (files : Utf16 → Option Utf16) (u : D) {p p' : LengthProperties} (hagree : ∀ name ∈ extendProperties, p name = p' name) :
    (getExtendFieldLengthGenerator A files p u = getExtendFieldLengthGenerator A files p' u ↔
      ¬ ReadsHistogram .extendfieldlengthdistribution .extendfieldlength p ∨
        SameHistogram files (p.getProperty .fieldlengthhistogram defaultHistogram) (p'.getProperty .fieldlengthhistogram defaultHistogram)) ∧
      (getExtendFieldLengthGenerator A files p u = ownExtendFieldLengthGenerator A files p u ↔
        ¬ ReadsHistogram .extendfieldlengthdistribution .extendfieldlength p ∨
          SameHistogram files (p.getProperty .fieldlengthhistogram defaultHistogram) (p.getProperty .extendfieldlengthhistogram defaultHistogram)) :=
  ⟨lengthGenerator_eq_iff (hagree _ (by simp [extendProperties])) (hagree _ (by simp [extendProperties])) (hagree _ (by simp [extendProperties])),
    lengthGenerator_eq_iff rfl rfl rfl⟩

end

/-- With the default distribution, the file does not matter. -/
theorem extendLengths_iff_constant :
    getExtendFieldLengthGenerator reals (fun _ => none) (fun _ => none) none =
      getExtendFieldLengthGenerator reals (fun _ => none) (fun name => if name = .fieldlengthhistogram then some [0x65] else none) none := by
  refine (extendLengths_iff reals (fun _ => none) none (fun name hname => ?_)).1.mpr (.inl fun h => absurd h.distribution (by decide))
  rw [if_neg]
  rintro rfl
  simp [extendProperties] at hname

/-- The file `e`, of a histogram with two buckets, is the only one. -/
def histogramE (file : Utf16) : Option Utf16 :=
  if file = [0x65] then some (blockSizeName ++ [0x09, 0x31, 0x30, 0x0A, 0x30, 0x09, 0x31, 0x0A, 0x31, 0x09, 0x31, 0x0A]) else none

/-- It is to be taken for the lengths of an extend. -/
def extendByHistogram : LengthProperties
  | .extendfieldlengthdistribution => some histogramName
  | .extendfieldlengthhistogram => some [0x65]
  | _ => none

/-- Lengths of inserts that are of the same file. -/
def insertByHistogram (name : LengthProperty) : Option Utf16 := if name = .fieldlengthhistogram then some [0x65] else extendByHistogram name

/-- `hist.txt` is asked for, which there is not. -/
theorem not_extendLengths :
    ¬ ∀ (D : Type) (A : Arithmetic D) (files : Utf16 → Option Utf16) (u : D) (p p' : LengthProperties), (∀ name ∈ extendProperties, p name = p' name) →
      getExtendFieldLengthGenerator A files p u = getExtendFieldLengthGenerator A files p' u := by
  intro h
  have hagree : ∀ name ∈ extendProperties, extendByHistogram name = insertByHistogram name := by
    intro name hname
    rw [insertByHistogram, if_neg]
    rintro rfl
    simp [extendProperties] at hname
  have hunread : getExtendFieldLengthGenerator reals histogramE extendByHistogram none = .error (.unread .extendFieldLength defaultHistogram) := rfl
  have hread : ∃ g, getExtendFieldLengthGenerator reals histogramE insertByHistogram none = .ok g := ⟨_, rfl⟩
  obtain ⟨g, hg⟩ := hread
  rw [← h _ _ _ none _ _ hagree, hunread] at hg
  cases hg

end YcsbIvs.Workloads
