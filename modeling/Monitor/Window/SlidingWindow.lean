import Monitor.Analysis.Aggregators
import Monitor.Lib.Methods

/-! # Sliding window

`SlidingWindow` of `sliding_window.go`, with exact arithmetic. Every method holds the lock; a
panic inside of one leaves the window as it is at that point. The times that a method reads
from the clock are its arguments. The conversion of a float to an `int` is the parameter
`toInt`, since its result is open for values that an `int` cannot hold, and `math.Sqrt` is
the parameter `sqrt`.
-/

namespace Monitor.Window

open GoText
open Analysis (timeSub seconds)

/-- `F` is the type of the numbers; times and durations are in nanoseconds. -/
structure SlidingWindow (F : Type) where
  size : Int
  values : List F
  timestamps : List Int
  sum : F
  sumSquared : F
  maxAge : Int
  adaptiveSize : Bool
  minSize : Int
  maxSize : Int
  growthFactor : F
  shrinkFactor : F
  totalOperations : Int
  lastResize : Int

inductive RuntimeError where
  | indexOutOfRange
  | sliceBoundsOutOfRange

abbrev Method (F A : Type) : Type := EStateM RuntimeError (SlidingWindow F) A

namespace SlidingWindow

variable {F : Type} [Field F]

def ratio (numerator denominator : Nat) : F := (numerator : F) / (denominator : F)

def newAdaptiveSlidingWindow (size maxAge : Int) (adaptive : Bool) (now : Int) : SlidingWindow F where
  size := size
  values := []
  timestamps := []
  sum := 0
  sumSquared := 0
  maxAge := maxAge
  adaptiveSize := adaptive
  minSize := 10
  maxSize := 1000
  growthFactor := ratio 3 2
  shrinkFactor := ratio 8 10
  totalOperations := 0
  lastResize := now

def newSlidingWindow (size maxAge now : Int) : SlidingWindow F :=
  newAdaptiveSlidingWindow size maxAge false now

/-- The two assignments `values = values[i:]` and `timestamps = timestamps[i:]`. -/
def cutFront (i : Nat) : Method F Unit := do
  if (← get).values.length < i then
    throw .sliceBoundsOutOfRange
  modify fun w => { w with values := w.values.drop i }
  if (← get).timestamps.length < i then
    throw .sliceBoundsOutOfRange
  modify fun w => { w with timestamps := w.timestamps.drop i }

/-- The sums without a value. -/
def subtract (value : F) (w : SlidingWindow F) : SlidingWindow F :=
  { w with sum := w.sum - value, sumSquared := w.sumSquared - value * value }

/-- The loop of `cleanExpired`, at the position `i` with the times and values from there on. -/
def expireLoop (cutoff : Int) : List Int → List F → Nat → Method F Nat
  | [], _, i => pure i
  | timestamp :: timestamps, values, i =>
    if timestamp < cutoff then
      match values with
      | [] => throw .indexOutOfRange
      | value :: values => do
          modify (subtract value)
          expireLoop cutoff timestamps values (i + 1)
    else
      pure i

def cleanExpired (now : Int) : Method F Unit := do
  let w ← get
  if w.maxAge ≤ 0 ∨ w.values.length = 0 then
    pure ()
  else
    let i ← expireLoop (now - w.maxAge) w.timestamps w.values 0
    if 0 < i then cutFront i else pure ()

def evict : Method F Unit := do
  match (← get).values with
  | [] => throw .indexOutOfRange
  | oldest :: _ =>
    modify (subtract oldest)
    cutFront 1

def append (now : Int) (value : F) (w : SlidingWindow F) : SlidingWindow F :=
  { w with
    values := w.values ++ [value]
    timestamps := w.timestamps ++ [now]
    sum := w.sum + value
    sumSquared := w.sumSquared + value * value }

/-- The body that `Add` and the loop of `AddBatch` share. -/
def push (now : Int) (value : F) : Method F Unit := do
  let w ← get
  if w.size ≤ (w.values.length : Int) then evict else pure ()
  modify (append now value)

section Resize

variable [LinearOrder F] (toInt : F → Int)

def fillRatio (w : SlidingWindow F) : F := (w.values.length : F) / (w.size : F)

def grownSize (w : SlidingWindow F) : Int :=
  let newSize := toInt ((w.size : F) * w.growthFactor)
  if w.maxSize < newSize then w.maxSize else newSize

def shrunkSize (w : SlidingWindow F) : Int :=
  let newSize := toInt ((w.size : F) * w.shrinkFactor)
  if newSize < w.minSize then w.minSize else newSize

def removeCount (w : SlidingWindow F) : Nat := (w.size - w.shrunkSize toInt).toNat

/-- `time.Minute`. -/
def minute : Int := 60 * 10 ^ 9

def adjustSize (now : Int) : Method F Unit := do
  let w ← get
  if timeSub now w.lastResize < minute then
    pure ()
  else if ratio 8 10 < w.fillRatio ∧ w.size < w.maxSize then
    if w.size < w.grownSize toInt then
      modify fun w => { w with size := w.grownSize toInt, lastResize := now }
    else
      pure ()
  else if w.fillRatio < ratio 3 10 ∧ w.minSize < w.size then
    if w.shrunkSize toInt < w.size then
      cutFront (w.removeCount toInt)
      modify fun w' => { w' with size := w.shrunkSize toInt, lastResize := now }
    else
      pure ()
  else
    pure ()

/-- What `Add` and `AddBatch` end with; the clock is read again. -/
def adapt (later : Int) : Method F Unit := do
  if (← get).adaptiveSize then adjustSize toInt later else pure ()

def countOperations (n : Nat) : Method F Unit :=
  modify fun w => { w with totalOperations := wrap64 (w.totalOperations + n) }

def add (value : F) (now later : Int) : Method F Unit := do
  countOperations 1
  cleanExpired now
  push now value
  adapt toInt later

def addBatch (values : List F) (now later : Int) : Method F Unit := do
  countOperations values.length
  cleanExpired now
  values.forM (push now)
  adapt toInt later

end Resize

def reset : Method F Unit :=
  modify fun w => { w with values := [], timestamps := [], sum := 0 }

def setAdaptive [LinearOrder F] (adaptive : Bool) (minSize maxSize : Int)
    (growthFactor shrinkFactor : F) : Method F Unit :=
  modify fun w =>
    { w with
      adaptiveSize := adaptive
      minSize := if 0 < minSize then minSize else w.minSize
      maxSize := if 0 < maxSize then maxSize else w.maxSize
      growthFactor := if 0 < growthFactor then growthFactor else w.growthFactor
      shrinkFactor := if 0 < shrinkFactor then shrinkFactor else w.shrinkFactor }

section Readings

/-- A reading removes what has expired and looks at the rest. -/
def reading {A : Type} (look : SlidingWindow F → A) (now : Int) : Method F A := do
  cleanExpired now
  return look (← get)

def average (now : Int) : Method F F :=
  reading (fun w => if w.values.length = 0 then 0 else w.sum / (w.values.length : F)) now

def count (now : Int) : Method F Nat := reading (·.values.length) now

def valuesAt (now : Int) : Method F (List F) := reading (·.values) now

def rate (now : Int) : Method F F :=
  reading (fun w =>
    if w.values.length < 2 then 0 else
      let duration := timeSub (w.timestamps.getLastD 0) (w.timestamps.headD 0)
      if duration ≤ 0 then 0 else (w.values.getLastD 0 - w.values.headD 0) / seconds duration) now

variable [LinearOrder F]

protected def min (now : Int) : Method F F :=
  reading (fun w => w.values.foldl (fun min v => if v < min then v else min) (w.values.headD 0)) now

protected def max (now : Int) : Method F F :=
  reading (fun w => w.values.foldl (fun max v => if max < v then v else max) (w.values.headD 0)) now

def standardDeviation (sqrt : F → F) (now : Int) : Method F F :=
  reading (fun w =>
    if w.values.length < 2 then 0 else
      let mean := w.sum / (w.values.length : F)
      let variance := w.sumSquared / (w.values.length : F) - mean * mean
      sqrt (if variance < 0 then 0 else variance)) now

def variance (sqrt : F → F) (now : Int) : Method F F := do
  let stdDev ← standardDeviation sqrt now
  return stdDev * stdDev

def percentile (toInt : F → Int) (p : F) (now : Int) : Method F F :=
  reading (fun w =>
    if w.values.length = 0 then 0 else
      let sorted := w.values.insertionSort (· ≤ ·)
      let index := toInt (((sorted.length : F) - 1) * p / ((100 : Nat) : F))
      let index := if index < 0 then 0 else index
      let index := if (sorted.length : Int) ≤ index then (sorted.length : Int) - 1 else index
      sorted.getD index.toNat 0) now

def lastValue : Method F F := do
  match (← get).values.getLast? with
  | none => throw .indexOutOfRange
  | some value => return value

/-- The figures of a window with contents; each reading reads the clock again. -/
def currentStats (sqrt : F → F) (toInt : F → Int) (clock : Nat → Int) (w : SlidingWindow F) :
    Method F (List (String × F)) := do
  let min ← SlidingWindow.min (clock 1)
  let max ← SlidingWindow.max (clock 2)
  let stdDev ← standardDeviation sqrt (clock 3)
  let variance ← variance sqrt (clock 4)
  let median ← percentile toInt ((50 : Nat) : F) (clock 5)
  let p90 ← percentile toInt ((90 : Nat) : F) (clock 6)
  let p95 ← percentile toInt ((95 : Nat) : F) (clock 7)
  let p99 ← percentile toInt ((99 : Nat) : F) (clock 8)
  let rate ← rate (clock 9)
  let last ← lastValue
  return [("count", (w.values.length : F)), ("sum", w.sum), ("avg", w.sum / (w.values.length : F)),
    ("min", min), ("max", max), ("std_dev", stdDev), ("variance", variance), ("median", median),
    ("p90", p90), ("p95", p95), ("p99", p99), ("rate", rate), ("last_value", last)]

def emptyStats : List (String × F) :=
  ["count", "sum", "avg", "min", "max", "std_dev", "variance", "median", "p90", "p95", "p99", "rate",
    "last_value"].map fun key => (key, 0)

def getStats (sqrt : F → F) (toInt : F → Int) (clock : Nat → Int) : Method F (List (String × F)) := do
  cleanExpired (clock 0)
  let w ← get
  let stats ← (if 0 < w.values.length then currentStats sqrt toInt clock w else pure emptyStats)
  let w ← get
  return stats ++ [("window_size", (w.size : F)), ("operations", (w.totalOperations : F))]

end Readings

end SlidingWindow

end Monitor.Window
