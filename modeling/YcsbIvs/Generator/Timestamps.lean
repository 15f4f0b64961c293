import YcsbIvs.Foundations.Words

/-!
# Numbers and timestamps

`UniformLongGenerator` draws a number of an interval. `UnixEpochTimestampGenerator` counts from a
start in steps of an interval of a time unit, and `RandomDiscreteTimestampGenerator` goes through a number
of such steps in a random order, and throws when it is through.

What is drawn is an argument: `nextLong()` any number of 64 bits, and `nextInt(bound)` any natural number,
of which the remainder by the bound is taken. What an operation throws is `Thrown`.
-/

namespace YcsbIvs.Generator

open YcsbIvs.Foundations

/-- What an operation throws. -/
inductive Thrown where
  /-- `ArithmeticException`: a division by zero. -/
  | arithmetic
  /-- `IllegalArgumentException` of `Random.nextInt(bound)`: the bound is not positive. -/
  | nextIntBound
  /-- `ArrayIndexOutOfBoundsException`. -/
  | arrayIndexOutOfBounds
  /-- `IllegalArgumentException`. -/
  | illegalArgument
  /-- `IllegalStateException`. -/
  | illegalState
  /-- `NegativeArraySizeException`. -/
  | negativeArraySize
  /-- `NullPointerException`. -/
  | nullPointer
  /-- `NumberFormatException`. -/
  | numberFormat
  /-- `ClassCastException`. -/
  | classCast
  deriving DecidableEq, Repr

/-! ### Arithmetic that may throw -/

/-- `x / y`. -/
def divide (x y : ℤ) : Except Thrown ℤ := if y = 0 then .error .arithmetic else .ok (x.tdiv y)

/-- `x % y`. -/
def modulo (x y : ℤ) : Except Thrown ℤ := if y = 0 then .error .arithmetic else .ok (x.tmod y)

/-- `random.nextInt(bound)`. -/
def nextInt (bound : ℤ) (draw : ℕ) : Except Thrown ℤ := if bound ≤ 0 then .error .nextIntBound else .ok (draw % bound)

/-- `array[i]`. -/
def elementAt {α : Type} (array : List α) (i : ℤ) : Except Thrown α :=
  if i < 0 then .error .arrayIndexOutOfBounds
  else match array[i.toNat]? with
    | some a => .ok a
    | none => .error .arrayIndexOutOfBounds

/-! ### Uniform numbers -/

/-- `UniformLongGenerator`. -/
structure UniformLongGenerator where
  /-- The least number. -/
  lb : ℤ
  /-- How many there are. -/
  interval : ℤ

namespace UniformLongGenerator

/-- `new UniformLongGenerator(lb, ub)`. -/
def new (lb ub : ℤ) : UniformLongGenerator := ⟨lb, asLong (ub - lb + 1)⟩

/-- `nextValue()`, if `nextLong()` gives `draw`. `Math.abs` of the least number is negative. -/
def nextValue (g : UniformLongGenerator) (draw : ℤ) : Except Thrown ℤ := do
  let r ← modulo (asLong draw.natAbs) g.interval
  .ok (asLong (r + g.lb))

end UniformLongGenerator

/-! ### Timestamps -/

/-- `TimeUnit`. -/
inductive TimeUnit where
  /-- `NANOSECONDS`. -/
  | nanoseconds
  /-- `MICROSECONDS`. -/
  | microseconds
  /-- `MILLISECONDS`. -/
  | milliseconds
  /-- `SECONDS`. -/
  | seconds
  /-- `MINUTES`. -/
  | minutes
  /-- `HOURS`. -/
  | hours
  /-- `DAYS`. -/
  | days
  deriving DecidableEq, Repr

/-- The system's clocks. -/
structure Clock where
  /-- `System.nanoTime()`. -/
  nanoTime : ℤ
  /-- `System.currentTimeMillis()`. -/
  currentTimeMillis : ℤ

/-- `UnixEpochTimestampGenerator` and `RandomDiscreteTimestampGenerator`. -/
structure TimestampGenerator where
  /-- `startTimestamp`: what random offsets are added to. -/
  startTimestamp : ℤ
  /-- `currentTimestamp`. -/
  currentTimestamp : ℤ
  /-- `lastTimestamp`. -/
  lastTimestamp : ℤ
  /-- `interval`. -/
  interval : ℤ
  /-- `timeUnits`. -/
  timeUnits : TimeUnit
  /-- The `offsets` of a `RandomDiscreteTimestampGenerator`, in their random order. -/
  offsets : Option (List ℤ)
  /-- `offsetIndex`. -/
  offsetIndex : ℕ

/-- How many of the generator's numbers a unit of time is. -/
def TimeUnit.scale : TimeUnit → ℤ
  | .minutes => 60
  | .hours => 60 * 60
  | .days => 60 * 60 * 24
  | _ => 1

/-- `getOffset(intervalOffset)`, for an interval and a unit. -/
def offsetOf (interval : ℤ) (timeUnits : TimeUnit) (intervalOffset : ℤ) : ℤ :=
  asLong (intervalOffset * interval * timeUnits.scale)

namespace TimestampGenerator

/-- `getOffset(intervalOffset)`. -/
def getOffset (g : TimestampGenerator) (intervalOffset : ℤ) : ℤ := offsetOf g.interval g.timeUnits intervalOffset

/-- The clock a generator of the unit reads. -/
def now (clock : Clock) : TimeUnit → ℤ
  | .nanoseconds => clock.nanoTime
  | .microseconds => clock.nanoTime.tdiv 1000
  | .milliseconds => clock.currentTimeMillis
  | _ => clock.currentTimeMillis.tdiv 1000

/-- `new UnixEpochTimestampGenerator(interval, timeUnits)`. -/
def ofClock (clock : Clock) (interval : ℤ) (timeUnits : TimeUnit) : TimestampGenerator :=
  let startTimestamp := asLong (now clock timeUnits + offsetOf interval timeUnits (-1))
  let currentTimestamp := asLong (startTimestamp - offsetOf interval timeUnits 1)
  ⟨startTimestamp, currentTimestamp, currentTimestamp, interval, timeUnits, none, 0⟩

/-- `new UnixEpochTimestampGenerator(interval, timeUnits, startTimestamp)`. -/
def ofStart (interval : ℤ) (timeUnits : TimeUnit) (startTimestamp : ℤ) : TimestampGenerator :=
  let currentTimestamp := asLong (startTimestamp - offsetOf interval timeUnits 1)
  ⟨currentTimestamp, currentTimestamp, asLong (currentTimestamp - offsetOf interval timeUnits 1), interval, timeUnits, none, 0⟩

/-- `MAX_INTERVALS`. -/
def maxIntervals : ℤ := 16777216

/-- The rest of `new RandomDiscreteTimestampGenerator(..., intervals)`: the array, and `setup()`. -/
def setup (g : TimestampGenerator) (intervals : ℤ) (shuffle : List ℤ → List ℤ) : Except Thrown TimestampGenerator :=
  if intervals < 0 then .error .negativeArraySize
  else if maxIntervals < intervals then .error .illegalArgument
  else .ok { g with offsets := some (shuffle ((List.range intervals.toNat).map Int.ofNat)), offsetIndex := 0 }

/-- `nextValue()`: the timestamp, and the generator after it. -/
def nextValue (g : TimestampGenerator) : Except Thrown (ℤ × TimestampGenerator) :=
  match g.offsets with
  | none =>
    let currentTimestamp := asLong (g.currentTimestamp + g.getOffset 1)
    .ok (currentTimestamp, { g with lastTimestamp := g.currentTimestamp, currentTimestamp := currentTimestamp })
  | some offsets =>
    match offsets[g.offsetIndex]? with
    | none => .error .illegalState
    | some offset =>
      let currentTimestamp := asLong (g.startTimestamp + offset * g.getOffset 1)
      .ok (currentTimestamp, { g with
        lastTimestamp := g.currentTimestamp
        currentTimestamp := currentTimestamp
        offsetIndex := g.offsetIndex + 1 })

end TimestampGenerator

end YcsbIvs.Generator
