import YcsbIvs.Generator.Discrete
import YcsbIvs.Generator.Histogram
import YcsbIvs.Generator.Zipfian
import YcsbIvs.Workloads.NextKeynum

/-!
# The last value

After `nextValue()` of a `Generator` has returned a value, `lastValue()` is to return the same, any number of times, and to change nothing: `Promise`. A `NumberGenerator` is
to call `setLastValue` for it. Some do not: the constant, the exponential and the histogram generator never do, and the Zipfian one does not for its first two numbers.
`SequentialGenerator` does, but its `lastValue()` is one more than its counter, which is past the value already. `DiscreteGenerator` keeps no value but one that
`lastValue()` draws itself, and returns that for good.

When each of them keeps the promise is `NumberGenerator.Keeps` and `DiscreteGenerator.Keeps` (`keepsPromise_iff`). `AcknowledgedCounterGenerator` promises something else.
-/

namespace YcsbIvs.Generator

open YcsbIvs.Foundations YcsbIvs.Workloads

variable {D : Type}

/-! ### Generators -/

/-- What a call gives. -/
inductive Returned (V : Type) where
  /-- A value. -/
  | value (v : V)
  /-- There is none. -/
  | null
  /-- It throws. -/
  | thrown

theorem Returned.null_ne {V : Type} (v : V) : Returned.null ≠ .value v := by
  intro h
  cases h

theorem Returned.thrown_ne {V : Type} (v : V) : Returned.thrown ≠ .value v := by
  intro h
  cases h

/-- A `Generator`: what its calls give, and the generator after them. -/
structure GeneratorCalls (G V E : Type) where
  /-- `nextValue()`. -/
  nextValue : G → E → Returned V × G
  /-- `lastValue()`. -/
  lastValue : G → E → Returned V × G

namespace GeneratorCalls

variable {G V E : Type}

/-- What a number of calls give, and the generator after them. -/
def run (call : G → E → Returned V × G) : G → List E → List (Returned V) × G
  | g, [] => ([], g)
  | g, d :: draws => ((call g d).1 :: (run call (call g d).2 draws).1, (run call (call g d).2 draws).2)

/-- If `nextValue()` returns a value now, `lastValue()` then returns it, any number of times, and later calls of `nextValue()` return what they would have. -/
def Promise (C : GeneratorCalls G V E) (g : G) (d : E) : Prop :=
  ∀ v, (C.nextValue g d).1 = .value v → ∀ draws,
    (∀ answer ∈ (run C.lastValue (C.nextValue g d).2 draws).1, answer = .value v) ∧
      ∀ later, (run C.nextValue (run C.lastValue (C.nextValue g d).2 draws).2 later).1 = (run C.nextValue (C.nextValue g d).2 later).1

/-- Calls that change nothing and give the same. -/
theorem run_const {call : G → E → Returned V × G} {g : G} {answer : Returned V} (h : ∀ d, call g d = (answer, g)) (draws : List E) :
    run call g draws = (List.replicate draws.length answer, g) := by
  induction draws with
  | nil => rfl
  | cons d draws ih => rw [run, h, ih]; rfl

/-- The promise of a generator whose `lastValue()` returns what it has kept. -/
theorem promise_iff_kept {C : GeneratorCalls G V E} (kept : G → Returned V) (h : ∀ g d, C.lastValue g d = (kept g, g)) (g : G) (d : E) :
    C.Promise g d ↔ ∀ v, (C.nextValue g d).1 = .value v → kept (C.nextValue g d).2 = .value v := by
  refine forall₂_congr fun v _ => ⟨fun hall => ?_, fun hkept draws => ?_⟩
  · obtain ⟨hanswers, -⟩ := hall [d]
    rw [run_const (h _)] at hanswers
    exact hanswers _ (List.mem_singleton_self _)
  · rw [run_const (h _)]
    exact ⟨fun answer hanswer => (List.eq_of_mem_replicate hanswer).trans hkept, fun later => rfl⟩

end GeneratorCalls

/-- What is drawn in one call. -/
structure GeneratorDraw (A : Arithmetic D) where
  /-- `nextDouble()`. -/
  double : D
  /-- It is not negative. -/
  nonneg : A.lt double (A.ofRat 0) = false
  /-- It is less than one. -/
  lt_one : A.lt double (A.ofRat 1) = true
  /-- `nextDouble()` of a hotspot. -/
  operation : ℚ
  /-- `nextLong()`. -/
  number : ℤ
  /-- `nextInt(bound)` gives its remainder. -/
  bounded : ℕ
  /-- `basis.lastValue()` of the latest. -/
  latest : ℤ

/-! ### Numbers -/

/-- A `Number`. -/
inductive Boxed (D : Type) where
  /-- `Integer`. -/
  | int (n : ℤ)
  /-- `Long`. -/
  | long (n : ℤ)
  /-- `Double`. -/
  | double (x : D)

/-- `ScrambledZipfianGenerator`. -/
structure ScrambledZipfianGenerator (D : Type) where
  /-- What is scrambled. -/
  gen : ZipfianGenerator D
  /-- The least number. -/
  min : ℤ
  /-- How many there are. -/
  itemcount : ℤ
  /-- `lastValue()`. -/
  lastVal : Option ℤ

/-- `nextValue()`, if `nextDouble()` gives `u`. -/
def ScrambledZipfianGenerator.nextValue (A : Arithmetic D) (g : ScrambledZipfianGenerator D) (u : D) : Except Thrown ℤ × ScrambledZipfianGenerator D :=
  let (number, gen) := g.gen.nextValue A u
  match modulo (hash number) g.itemcount with
  | .error e => (.error e, { g with gen := gen })
  | .ok r =>
    let ret := asLong (g.min + r)
    (.ok ret, { g with gen := gen, lastVal := some ret })

/-- A `NumberGenerator`, with the last value where it is set. -/
inductive NumberGenerator (D : Type) where
  | constant (i : ℤ)
  | counter (g : CounterGenerator)
  | exponential (gamma : D)
  | histogram (g : HistogramGenerator)
  | hotspot (g : HotspotIntegerGenerator) (lastVal : Option ℤ)
  | scrambledZipfian (g : ScrambledZipfianGenerator D)
  | sequential (g : SequentialGenerator)
  | skewedLatest (g : SkewedLatestGenerator D)
  | uniformLong (g : UniformLongGenerator) (lastVal : Option ℤ)
  | zipfian (g : ZipfianGenerator D)

namespace NumberGenerator

variable (A : Arithmetic D)

/-- A `long` that is returned, or what is thrown. -/
def ofLong : Except Thrown ℤ → Returned (Boxed D)
  | .ok n => .value (.long n)
  | .error _ => .thrown

/-- `setLastValue(ret)`, if it is reached. -/
def setLastValue (ret : Except Thrown ℤ) (lastVal : Option ℤ) : Option ℤ :=
  match ret with
  | .ok n => some n
  | .error _ => lastVal

/-- `nextValue()`. -/
def nextValue (g : NumberGenerator D) (d : GeneratorDraw A) : Returned (Boxed D) × NumberGenerator D :=
  match g with
  | constant i => (.value (.int i), g)
  | counter g => (.value (.long g.nextValue.1), counter g.nextValue.2)
  | exponential gamma => (.value (.double (A.div (A.neg (A.log d.double)) gamma)), g)
  | histogram g => (ofLong (g.nextValue d.bounded), histogram g)
  | hotspot g lastVal => (ofLong (g.nextValue d.operation d.number), hotspot g (setLastValue (g.nextValue d.operation d.number) lastVal))
  | scrambledZipfian g => (ofLong (g.nextValue A d.double).1, scrambledZipfian (g.nextValue A d.double).2)
  | sequential g => (ofLong g.nextValue.1, sequential g.nextValue.2)
  | skewedLatest g => (.value (.long (g.nextValue A d.latest d.double).1), skewedLatest (g.nextValue A d.latest d.double).2)
  | uniformLong g lastVal => (ofLong (g.nextValue d.number), uniformLong g (setLastValue (g.nextValue d.number) lastVal))
  | zipfian g => (.value (.long (g.nextValue A d.double).1), zipfian (g.nextValue A d.double).2)

/-- What has been set. -/
def ofLastVal : Option ℤ → Returned (Boxed D)
  | some n => .value (.long n)
  | none => .null

/-- What `lastValue()` returns. -/
def last : NumberGenerator D → Returned (Boxed D)
  | constant _ => .null
  | counter g => .value (.long g.lastValue)
  | exponential _ => .null
  | histogram _ => .null
  | hotspot _ lastVal => ofLastVal lastVal
  | scrambledZipfian g => ofLastVal g.lastVal
  | sequential g => .value (.long (asLong (g.counter + 1)))
  | skewedLatest g => ofLastVal g.lastVal
  | uniformLong _ lastVal => ofLastVal lastVal
  | zipfian g => ofLastVal g.lastVal

/-- The calls. -/
def calls : GeneratorCalls (NumberGenerator D) (Boxed D) (GeneratorDraw A) where
  nextValue := nextValue A
  lastValue g _ := (g.last, g)

/-- When the promise is kept: the last value is not set for the first two numbers of a Zipfian distribution, unless it is there already, and that of a
sequence is two more than its counter was. -/
def Keeps (g : NumberGenerator D) (d : GeneratorDraw A) : Prop :=
  match g with
  | constant _ | exponential _ => False
  | counter g => FitsLong g.counter
  | histogram g => asInt g.area ≤ 0
  | hotspot _ _ | scrambledZipfian _ | skewedLatest _ | uniformLong _ _ => True
  | sequential g => g.interval = 0 ∨ asLong (g.countstart + g.counter.tmod g.interval) = asLong (g.counter + 2)
  | zipfian g =>
    let uz := A.mul d.double (g.recompute A g.items).zetan
    if A.lt uz (A.ofRat 1) then g.lastVal = some g.base
    else if A.lt uz (A.add (A.ofRat 1) (A.pow (A.ofRat (1 / 2)) g.theta)) then g.lastVal = some (asLong (g.base + 1))
    else True

variable {A}

theorem ofLastVal_setLastValue {ret : Except Thrown ℤ} {v : Boxed D} (h : ofLong ret = .value v) (lastVal : Option ℤ) :
    ofLastVal (setLastValue ret lastVal) = .value v := by
  cases ret with
  | error e => exact absurd h (Returned.thrown_ne v)
  | ok n => exact h

theorem ofLastVal_eq_iff {lastVal : Option ℤ} {n : ℤ} : (ofLastVal lastVal : Returned (Boxed D)) = .value (.long n) ↔ lastVal = some n := by
  cases lastVal with
  | none => exact iff_of_false (Returned.null_ne _) (Option.some_ne_none n).symm
  | some m => simp [ofLastVal]

theorem long_eq_iff {m n : ℤ} : (Returned.value (.long m) : Returned (Boxed D)) = .value (.long n) ↔ m = n := by
  rw [Returned.value.injEq, Boxed.long.injEq]

/-- A counter that fits is one more than what it gave. -/
theorem keeps_counter (g : CounterGenerator) : g.nextValue.2.lastValue = g.nextValue.1 ↔ FitsLong g.counter := by
  simp only [CounterGenerator.nextValue, CounterGenerator.lastValue, FitsLong, asLong]
  omega

/-- A histogram gives a number unless `nextInt` throws. -/
theorem keeps_histogram (g : HistogramGenerator) (d : ℕ) : (∀ v : Boxed D, ofLong (g.nextValue d) = .value v → Returned.null = .value v) ↔ asInt g.area ≤ 0 := by
  rw [HistogramGenerator.nextValue, nextInt]
  by_cases h : asInt g.area ≤ 0
  · rw [if_pos h]
    exact iff_of_true (fun v hv => absurd hv (Returned.thrown_ne v)) h
  · rw [if_neg h]
    exact iff_of_false (fun hnone => Returned.null_ne _ (hnone _ rfl)) h

theorem keeps_scrambled (g : ScrambledZipfianGenerator D) (u : D) (v : Boxed D) (h : ofLong (g.nextValue A u).1 = .value v) :
    ofLastVal (g.nextValue A u).2.lastVal = .value v := by
  revert h
  rw [ScrambledZipfianGenerator.nextValue]
  dsimp only
  cases modulo (hash (g.gen.nextValue A u).1) g.itemcount with
  | error e => exact fun h => absurd h (Returned.thrown_ne v)
  | ok r => exact id

theorem keeps_sequential (g : SequentialGenerator) :
    (∀ v : Boxed D, ofLong g.nextValue.1 = .value v → Returned.value (.long (asLong (g.nextValue.2.counter + 1))) = .value v) ↔
      g.interval = 0 ∨ asLong (g.countstart + g.counter.tmod g.interval) = asLong (g.counter + 2) := by
  have hcounter : asLong (asLong (g.counter + 1) + 1) = asLong (g.counter + 2) := by
    rw [asLong_asLong_add, add_assoc]
    rfl
  have hnext : g.nextValue = ((modulo g.counter g.interval).bind (fun r => .ok (asLong (g.countstart + r))), { g with counter := asLong (g.counter + 1) }) := rfl
  rw [hnext, modulo, hcounter]
  by_cases h : g.interval = 0
  · rw [if_pos h]
    exact iff_of_true (fun v hv => absurd hv (Returned.thrown_ne v)) (.inl h)
  · rw [if_neg h, or_iff_right h]
    refine ⟨fun hall => ?_, fun heq v hv => ?_⟩
    · exact (long_eq_iff.mp (hall _ rfl)).symm
    · rw [← hv, ← heq]
      rfl

theorem keeps_zipfian (g : ZipfianGenerator D) (d : GeneratorDraw A) :
    (g.nextValue A d.double).2.lastVal = some (g.nextValue A d.double).1 ↔ (zipfian g).Keeps A d := by
  obtain ⟨zetan, eta, countforzeta, hrecompute⟩ := g.recompute_eq (A := A) g.items
  rw [ZipfianGenerator.nextValue, ZipfianGenerator.nextLong, Keeps, hrecompute]
  dsimp only
  split_ifs
  · exact Iff.rfl
  · exact Iff.rfl
  · exact iff_of_true rfl trivial

theorem promise_iff (g : NumberGenerator D) (d : GeneratorDraw A) : (calls A).Promise g d ↔ g.Keeps A d := by
  rw [GeneratorCalls.promise_iff_kept last fun g d => rfl]
  cases g with
  | constant i => exact iff_of_false (fun h => Returned.null_ne _ (h _ rfl)) not_false
  | counter g =>
    refine Iff.trans ⟨fun h => long_eq_iff.mp (h _ rfl), fun h v hv => ?_⟩ (keeps_counter g)
    rw [← hv]
    exact long_eq_iff.mpr h
  | exponential gamma => exact iff_of_false (fun h => Returned.null_ne _ (h _ rfl)) not_false
  | histogram g => exact keeps_histogram g d.bounded
  | hotspot g lastVal => exact iff_of_true (fun v hv => ofLastVal_setLastValue hv lastVal) trivial
  | scrambledZipfian g => exact iff_of_true (keeps_scrambled g d.double) trivial
  | sequential g => exact keeps_sequential g
  | skewedLatest g => exact iff_of_true (fun v hv => hv) trivial
  | uniformLong g lastVal => exact iff_of_true (fun v hv => ofLastVal_setLastValue hv lastVal) trivial
  | zipfian g =>
    refine Iff.trans ⟨fun h => ofLastVal_eq_iff.mp (h _ rfl), fun h v hv => ?_⟩ (keeps_zipfian g d)
    rw [← hv]
    exact ofLastVal_eq_iff.mpr h

end NumberGenerator

/-! ### Strings -/

namespace DiscreteGenerator

variable (A : Arithmetic D)

/-- A string that is returned, or an `AssertionError`. -/
def ofString : Option String → Returned String
  | some s => .value s
  | none => .thrown

/-- The calls. -/
def calls : GeneratorCalls (DiscreteGenerator D) String (GeneratorDraw A) where
  nextValue g d := (ofString (g.nextValue A.toFieldArithmetic d.double), g)
  lastValue g d := (ofString (g.lastValue A.toFieldArithmetic d.double).1, (g.lastValue A.toFieldArithmetic d.double).2)

/-- When the promise is kept: what is drawn has been kept, or nothing has and nothing else can be drawn. -/
def Keeps (g : DiscreteGenerator D) (d : GeneratorDraw A) : Prop :=
  ∀ place v, g.choose A.toFieldArithmetic d.double = some (place, v) →
    g.lastvalue = some v ∨ g.lastvalue = none ∧ ∀ e : GeneratorDraw A, ∃ place', g.choose A.toFieldArithmetic e.double = some (place', v)

variable {A}

/-- Nothing but what has been added is drawn from. -/
theorem nextValue_congr {g g' : DiscreteGenerator D} (h : g.values = g'.values) (u : D) :
    g.nextValue A.toFieldArithmetic u = g'.nextValue A.toFieldArithmetic u := by
  rw [nextValue, nextValue, choose, choose, h]

theorem run_nextValue_congr {g g' : DiscreteGenerator D} (h : g.values = g'.values) (later : List (GeneratorDraw A)) :
    (GeneratorCalls.run (calls A).nextValue g later).1 = (GeneratorCalls.run (calls A).nextValue g' later).1 := by
  induction later with
  | nil => rfl
  | cons d later ih => exact congrArg₂ List.cons (congrArg ofString (nextValue_congr h d.double)) ih

theorem values_lastValue (g : DiscreteGenerator D) (u : D) : (g.lastValue A.toFieldArithmetic u).2.values = g.values := by
  rw [lastValue]
  cases g.lastvalue <;> rfl

theorem nextValue_eq_some_iff {g : DiscreteGenerator D} {u : D} {v : String} :
    g.nextValue A.toFieldArithmetic u = some v ↔ ∃ place, g.choose A.toFieldArithmetic u = some (place, v) := by
  rw [nextValue, Option.map_eq_some_iff]
  constructor
  · rintro ⟨chosen, hchoose, rfl⟩
    exact ⟨chosen.1, hchoose⟩
  · rintro ⟨place, hchoose⟩
    exact ⟨_, hchoose, rfl⟩

theorem ofString_eq_value {s : Option String} {v : String} : ofString s = .value v ↔ s = some v := by
  cases s with
  | none => exact iff_of_false (Returned.thrown_ne v) (Option.some_ne_none v).symm
  | some s => rw [ofString, Returned.value.injEq, Option.some.injEq]

/-- `v` has been kept, or nothing has and nothing else can be drawn. -/
def Fixed (A : Arithmetic D) (g : DiscreteGenerator D) (v : String) : Prop :=
  g.lastvalue = some v ∨ g.lastvalue = none ∧ ∀ e : GeneratorDraw A, g.nextValue A.toFieldArithmetic e.double = some v

/-- Then `lastValue()` returns it, and it is fixed after. -/
theorem Fixed.lastValue {g : DiscreteGenerator D} {v : String} (h : g.Fixed A v) (d : GeneratorDraw A) :
    (g.lastValue A.toFieldArithmetic d.double).1 = some v ∧ (g.lastValue A.toFieldArithmetic d.double).2.Fixed A v := by
  rw [DiscreteGenerator.lastValue]
  obtain hkept | ⟨hnone, hdraws⟩ := h
  · rw [hkept]
    exact ⟨rfl, .inl hkept⟩
  · rw [hnone]
    exact ⟨hdraws d, .inl (hdraws d)⟩

/-- Any number of times. -/
theorem Fixed.run {g : DiscreteGenerator D} {v : String} (h : g.Fixed A v) (draws : List (GeneratorDraw A)) :
    (∀ answer ∈ (GeneratorCalls.run (calls A).lastValue g draws).1, answer = .value v) ∧
      (GeneratorCalls.run (calls A).lastValue g draws).2.values = g.values := by
  induction draws generalizing g with
  | nil => exact ⟨fun answer hanswer => absurd hanswer List.not_mem_nil, rfl⟩
  | cons d draws ih =>
    obtain ⟨hvalue, hfixed⟩ := h.lastValue d
    obtain ⟨hanswers, hvalues⟩ := ih hfixed
    exact ⟨List.forall_mem_cons.mpr ⟨ofString_eq_value.mpr hvalue, hanswers⟩, hvalues.trans (values_lastValue g d.double)⟩

/-- If `lastValue()` returns `v` whatever it draws, it is fixed. -/
theorem fixed_of_lastValue {g : DiscreteGenerator D} {v : String} (h : ∀ d : GeneratorDraw A, (g.lastValue A.toFieldArithmetic d.double).1 = some v)
    (d : GeneratorDraw A) : g.Fixed A v := by
  cases hlast : g.lastvalue with
  | none => exact .inr ⟨hlast, fun e => by simpa only [lastValue, hlast] using h e⟩
  | some s => exact .inl (hlast.trans (by simpa only [lastValue, hlast] using h d))

theorem promise_iff (g : DiscreteGenerator D) (d : GeneratorDraw A) : (calls A).Promise g d ↔ g.Keeps A d := by
  have hkeeps : g.Keeps A d ↔ ∀ v, g.nextValue A.toFieldArithmetic d.double = some v → g.Fixed A v := by
    simp only [Keeps, Fixed, nextValue_eq_some_iff, forall_exists_index]
    exact forall_comm
  rw [hkeeps]
  refine forall_congr' fun v => imp_congr ofString_eq_value ⟨fun hpromise => ?_, fun hfixed draws => ?_⟩
  · refine fixed_of_lastValue (fun e => ?_) d
    have hanswers := (hpromise [e]).1
    exact ofString_eq_value.mp (hanswers _ (List.mem_singleton_self _))
  · obtain ⟨hanswers, hvalues⟩ := hfixed.run draws
    exact ⟨hanswers, run_nextValue_congr hvalues⟩

end DiscreteGenerator

/-- **When the promise is kept.** -/
theorem keepsPromise_iff (A : Arithmetic D) :
    (∀ (g : NumberGenerator D) d, (NumberGenerator.calls A).Promise g d ↔ g.Keeps A d) ∧
      ∀ (g : DiscreteGenerator D) d, (DiscreteGenerator.calls A).Promise g d ↔ g.Keeps A d :=
  ⟨NumberGenerator.promise_iff, DiscreteGenerator.promise_iff⟩

/-- A constant, and a sequence from zero to nine. -/
theorem not_keepsPromise : ∃ d : GeneratorDraw reals, ¬(NumberGenerator.calls reals).Promise (.constant 5) d ∧
    ¬(NumberGenerator.calls reals).Promise (.sequential (.new 0 9)) d := by
  refine ⟨⟨some (1 / 2), ?_, ?_, 0, 0, 0, 0⟩, fun h => ?_, fun h => ?_⟩
  · simp [reals]
  · norm_num [reals]
  · exact (NumberGenerator.promise_iff ..).mp h
  · have hkeeps : (10 : ℤ) = 0 ∨ asLong (0 + (0 : ℤ).tmod 10) = asLong (0 + 2) := (NumberGenerator.promise_iff ..).mp h
    exact absurd hkeeps (by decide)

end YcsbIvs.Generator
