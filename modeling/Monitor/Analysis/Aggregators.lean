import Monitor.Lib.Json

/-! # Aggregating the records of a host

`Aggregate` of `analyzer.go` and the aggregators of `aggregators.go`, in exact
arithmetic over an ordered field. A time is its nanoseconds. `Aggregate` selects
the records of a time range that carry the metric, and the aggregators then go
through all metrics of these records.
-/

namespace Monitor.Analysis

open GoText Json

structure Metric (R : Type) where
  name : GoString
  value : R
  unit : GoString
  deriving DecidableEq

structure MetricsData (R : Type) where
  hostID : GoString
  timestamp : Int
  metrics : List (Metric R)
  deriving DecidableEq

structure TimeRange where
  start : Int
  stop : Int
  deriving DecidableEq

/-- A percentile. The analyzer registers one aggregator of this kind, for 95. -/
structure Percentile (R : Type) [Field R] [LinearOrder R] where
  value : R
  low : 0 ≤ value
  high : value ≤ 100

inductive Aggregator (R : Type) [Field R] [LinearOrder R] where
  | avg
  | sum
  | min
  | max
  | count
  | rate
  | percentile (p : Percentile R)
  | stdDev

/-- The dynamic type of an aggregate is `float64` or, for a count, `int`. -/
inductive AggregateValue (R : Type) where
  | float (x : R)
  | int (n : Int)
  deriving DecidableEq

/-- What `sort.Slice` does with a slice that it compares by times. It sees the times only, and
    equal ones can end up in any order. -/
structure SliceSort where
  order : List Int → List Nat
  perm : ∀ times, (order times).Perm (List.range times.length)
  sorted : ∀ times, ((order times).map fun i => times.getD i 0).Pairwise (· ≤ ·)

def SliceSort.apply {R : Type} (sort : SliceSort) (data : List (MetricsData R)) :
    List (MetricsData R) :=
  (sort.order (data.map (·.timestamp))).filterMap fun i => data[i]?

/-- `Time.Sub`, which saturates. -/
def timeSub (t u : Int) : Int := Max.max (-2 ^ 63) (Min.min (2 ^ 63 - 1) (t - u))

section Aggregate

variable {R : Type} [Field R] [LinearOrder R] [FloorRing R]

/-- `math.MaxFloat64`. -/
def maxFloat64 : R := (2 ^ 53 - 1) * 2 ^ 971

/-- `Duration.Seconds`. -/
def seconds (d : Int) : R := (d : R) / 10 ^ 9

/-- The two loops that most aggregators consist of: all metrics of all records. -/
def forMetrics {α : Type} (data : List (MetricsData R)) (start : α) (body : α → Metric R → α) : α :=
  data.foldl (fun acc d => d.metrics.foldl body acc) start

def aggregateAvg (data : List (MetricsData R)) : R :=
  if data.length = 0 then
    0
  else
    let (sum, count) := forMetrics data ((0 : R), (0 : Nat)) fun (sum, count) metric =>
      (sum + metric.value, count + 1)
    if count = 0 then 0 else sum / (count : R)

def aggregateSum (data : List (MetricsData R)) : R :=
  forMetrics data 0 fun sum metric => sum + metric.value

def aggregateMin (data : List (MetricsData R)) : R :=
  if data.length = 0 then
    0
  else
    let min := forMetrics data maxFloat64 fun min metric =>
      if metric.value < min then metric.value else min
    if min = maxFloat64 then 0 else min

def aggregateMax (data : List (MetricsData R)) : R :=
  if data.length = 0 then
    0
  else
    let max := forMetrics data (-maxFloat64) fun max metric =>
      if metric.value > max then metric.value else max
    if max = -maxFloat64 then 0 else max

def aggregateCount (data : List (MetricsData R)) : Nat :=
  data.foldl (fun count d => count + d.metrics.length) 0

/-- The values of a record by name; a later metric of the same name overwrites. -/
def currentValues (d : MetricsData R) : List (GoString × R) :=
  d.metrics.foldl (fun values metric => setKey metric.name metric.value values) []

/-- Adds the increases from one record to the next. Sums being exact, the order in which the map
    is gone through does not matter. -/
def addIncreases (prevValues currentValues : List (GoString × R)) (totalValue : R) : R :=
  currentValues.foldl (fun totalValue entry =>
    match getKey entry.1 prevValues with
    | some prev => if entry.2 > prev then totalValue + (entry.2 - prev) else totalValue
    | none => totalValue) totalValue

def rateLoop : List (GoString × R) → R → List (MetricsData R) → R
  | _, totalValue, [] => totalValue
  | prevValues, totalValue, d :: data =>
    rateLoop (currentValues d) (addIncreases prevValues (currentValues d) totalValue) data

def aggregateRate (sort : SliceSort) (data : List (MetricsData R)) : R :=
  if data.length < 2 then
    0
  else
    match sort.apply data with
    | [] => 0
    | first :: rest =>
      let last := (first :: rest).getLast (List.cons_ne_nil first rest)
      let timeDiff : R := seconds (timeSub last.timestamp first.timestamp)
      if timeDiff ≤ 0 then 0 else rateLoop (currentValues first) 0 rest / timeDiff

/-- The last part of the percentile aggregator: the value at the percentile of the sorted values, between
    two of them where it falls there. -/
def percentileOf (p : Percentile R) (values : List R) : R :=
  let values := values.insertionSort (· ≤ ·)
  let index : R := p.value / 100 * ((values.length - 1 : Nat) : R)
  let lower := ⌊index⌋.toNat
  let upper := ⌈index⌉.toNat
  if lower = upper then
    values.getD lower 0
  else
    let weight := index - (lower : R)
    values.getD lower 0 * (1 - weight) + values.getD upper 0 * weight

def aggregatePercentile (p : Percentile R) (data : List (MetricsData R)) : R :=
  if data.length = 0 then
    0
  else
    let values := forMetrics data [] fun values metric => values ++ [metric.value]
    if values.length = 0 then 0 else percentileOf p values

def aggregateStdDev (sqrt : R → R) (data : List (MetricsData R)) : R :=
  if data.length = 0 then
    0
  else
    let (sum, count) := forMetrics data ((0 : R), (0 : Nat)) fun (sum, count) metric =>
      (sum + metric.value, count + 1)
    if count = 0 then
      0
    else
      let mean := sum / (count : R)
      let variance := forMetrics data 0 fun variance metric =>
        let diff := metric.value - mean
        variance + diff * diff
      sqrt (variance / (count : R))

def Aggregator.aggregate (sort : SliceSort) (sqrt : R → R) (data : List (MetricsData R)) :
    Aggregator R → AggregateValue R
  | .avg => .float (aggregateAvg data)
  | .sum => .float (aggregateSum data)
  | .min => .float (aggregateMin data)
  | .max => .float (aggregateMax data)
  | .count => .int (aggregateCount data)
  | .rate => .float (aggregateRate sort data)
  | .percentile p => .float (aggregatePercentile p data)
  | .stdDev => .float (aggregateStdDev sqrt data)

/-- Rounding as in `%.0f`: to the nearest integer, halves to the even one. -/
def roundEven (x : R) : Int :=
  if x - (⌊x⌋ : R) < 1 / 2 then
    ⌊x⌋
  else if x - (⌊x⌋ : R) > 1 / 2 then
    ⌊x⌋ + 1
  else if ⌊x⌋ % 2 = 0 then
    ⌊x⌋
  else
    ⌊x⌋ + 1

def Aggregator.getType : Aggregator R → GoString
  | .avg => ascii "avg"
  | .sum => ascii "sum"
  | .min => ascii "min"
  | .max => ascii "max"
  | .count => ascii "count"
  | .rate => ascii "rate"
  | .percentile p => ascii "p" ++ itoa (roundEven p.value)
  | .stdDev => ascii "stddev"

end Aggregate

section Analyzer

variable (R : Type) [Field R] [LinearOrder R] [FloorRing R]

structure Analyzer where
  dataCache : GoString → List (MetricsData R)
  aggregators : List (GoString × Aggregator R)

inductive AggregateError where
  | noData (hostID : GoString)
  | noAggregator (aggType : GoString)
  | noMetric (metricName : GoString)
  deriving DecidableEq

structure AggregationResult where
  type : GoString
  timeRange : TimeRange
  hostID : GoString
  metric : GoString
  data : AggregateValue R
  timestamp : Int
  deriving DecidableEq

end Analyzer

namespace Analyzer

variable {R : Type} [Field R] [LinearOrder R] [FloorRing R]

def registerAggregator (a : Analyzer R) (aggregator : Aggregator R) : Analyzer R :=
  { a with aggregators := setKey aggregator.getType aggregator a.aggregators }

/-- The percentile that `NewAnalyzer` registers. -/
def p95 [IsStrictOrderedRing R] : Percentile R where
  value := 95
  low := by norm_num
  high := by norm_num

/-- `NewAnalyzer`, for the percentile 95. -/
def newAnalyzer (p95 : Percentile R) : Analyzer R :=
  [.avg, .sum, .min, .max, .count, .rate, .percentile p95, .stdDev].foldl registerAggregator
    ⟨fun _ => [], []⟩

def maxCacheSize : Nat := 1000

def addData (a : Analyzer R) (data : MetricsData R) : Analyzer R :=
  let cached := a.dataCache data.hostID ++ [data]
  let cached :=
    if cached.length > maxCacheSize then cached.drop (cached.length - maxCacheSize) else cached
  { a with dataCache := Function.update a.dataCache data.hostID cached }

/-- Whether a record lies strictly inside of a range. -/
def inRange (timeRange : TimeRange) (d : MetricsData R) : Bool :=
  decide (timeRange.start < d.timestamp ∧ d.timestamp < timeRange.stop)

def getDataInRange (a : Analyzer R) (hostID : GoString) (timeRange : TimeRange) :
    List (MetricsData R) :=
  (a.dataCache hostID).filter (inRange timeRange)

def carries (metricName : GoString) (d : MetricsData R) : Bool :=
  d.metrics.any fun metric => metric.name = metricName

def filterMetricData (data : List (MetricsData R)) (metricName : GoString) : List (MetricsData R) :=
  data.filter (carries metricName)

def aggregate (sort : SliceSort) (sqrt : R → R) (now : Int) (a : Analyzer R)
    (hostID metricName aggType : GoString) (timeRange : TimeRange) :
    Except AggregateError (AggregationResult R) :=
  let data := a.getDataInRange hostID timeRange
  if data.length = 0 then
    .error (.noData hostID)
  else
    match getKey aggType a.aggregators with
    | none => .error (.noAggregator aggType)
    | some aggregator =>
      let filteredData := filterMetricData data metricName
      if filteredData.length = 0 then
        .error (.noMetric metricName)
      else
        .ok {
          type := aggType
          timeRange := timeRange
          hostID := hostID
          metric := metricName
          data := aggregator.aggregate sort sqrt filteredData
          timestamp := now }

end Analyzer

end Monitor.Analysis
