import Monitor.Service.Endpoints

/-! # Statistics of metrics

`AggregateMetrics` of `redis_storage.go` and `GetMetricsStats` of `grpc_server.go`. The storage
counts the bare numbers of a range and passes the count on as an `int` inside of an empty
interface; the endpoint expects a `float64` there and panics. Numbers that are stored with a
unit are not counted.
-/

namespace Monitor.Service

open GoText Json Raft Storage List
open GoMap (LoopOrder)

/-- The operations of `float64` that the statistics use. -/
structure Arithmetic where
  zero : Float64
  add : Float64 → Float64 → Float64
  div : Float64 → Float64 → Float64
  less : Float64 → Float64 → Bool
  ofNat : Nat → Float64
  /-- The conversion to `uint64`. -/
  toUint64 : Float64 → UInt64

/-- What the storage puts into empty interfaces. -/
inductive Dynamic where
  | int (n : Int)
  | float (x : Float64)
  | map (members : List (GoString × Dynamic))

abbrev MetricValues := List (GoString × List Float64)

section Aggregation

def addValue (metricValues : MetricValues) (m : GoString × Value) : MetricValues :=
  match m.2 with
  | .float value => setKey m.1 ((getKey m.1 metricValues).getD [] ++ [value]) metricValues
  | _ => metricValues

/-- The loop over the records, from record `i` on. -/
def collectValues (order : Nat → LoopOrder) : Nat → MetricValues → List MetricsData → MetricValues
  | _, metricValues, [] => metricValues
  | i, metricValues, data :: rest =>
    collectValues order (i + 1) (((order i).entries data.metrics).foldl addValue metricValues) rest

variable (ar : Arithmetic)

/-- The local variables of the loop over the numbers of one metric. -/
structure Running where
  sum : Float64
  min : Float64
  max : Float64

def Running.next (r : Running) (v : Float64) : Running where
  sum := ar.add r.sum v
  min := if ar.less v r.min then v else r.min
  max := if ar.less r.max v then v else r.max

def aggregate : List Float64 → Option Dynamic
  | [] => none
  | first :: rest =>
    let values := first :: rest
    let r := values.foldl (Running.next ar) ⟨ar.zero, first, first⟩
    some (.map [(ascii "avg", .float (ar.div r.sum (ar.ofNat values.length))),
      (ascii "count", .int values.length), (ascii "max", .float r.max), (ascii "min", .float r.min),
      (ascii "sum", .float r.sum)])

/-- The interval of the request is not used. -/
def aggregateMetrics (fl : Floats) (s : RedisStorage) (order : Nat → LoopOrder) (hostID : GoString)
    (first last : Int) : Except GoString (List (GoString × Dynamic)) :=
  match s.getMetricsDataRange fl hostID first last with
  | .error err => .error err
  | .ok metrics =>
    if metrics.isEmpty then
      .ok []
    else
      .ok ((collectValues order 0 [] metrics).filterMap fun entry =>
        (aggregate ar entry.2).map fun stats => (entry.1, stats))

end Aggregation

structure MetricStats where
  count : UInt64
  sum : Float64
  avg : Float64
  min : Float64
  max : Float64

structure GetMetricsStatsResponse where
  success : Bool
  stats : List (GoString × MetricStats)
  message : GoString

/-- A failed type assertion. -/
inductive Panic where
  | interfaceConversion

section Endpoint

/-- The assertion to `float64`; a missing key gives a nil interface. -/
def assertFloat : Option Dynamic → Except Panic Float64
  | some (.float x) => .ok x
  | _ => .error .interfaceConversion

variable (ar : Arithmetic)

def convertStats (stat : List (GoString × Dynamic)) : Except Panic MetricStats := do
  let count ← assertFloat (getKey (ascii "count") stat)
  let sum ← assertFloat (getKey (ascii "sum") stat)
  let avg ← assertFloat (getKey (ascii "avg") stat)
  let min ← assertFloat (getKey (ascii "min") stat)
  let max ← assertFloat (getKey (ascii "max") stat)
  return ⟨ar.toUint64 count, sum, avg, min, max⟩

def convertAll (stats : List (GoString × MetricStats)) :
    List (GoString × Dynamic) → Except Panic (List (GoString × MetricStats))
  | [] => .ok stats
  | (metricName, .map stat) :: rest => do
      let converted ← convertStats ar stat
      convertAll (setKey metricName converted stats) rest
  | _ :: rest => convertAll stats rest

/-- The endpoint panics or returns, a response or an error. -/
def getMetricsStats (fl : Floats) (s : RedisStorage) (order : Nat → LoopOrder) (loop : LoopOrder)
    (hostId : GoString) (startTime endTime : Int) :
    Except Panic (Except GoString GetMetricsStatsResponse) :=
  match aggregateMetrics ar fl s order hostId startTime endTime with
  | .error err => .ok (.error (utf8 "获取指标统计信息失败: " ++ err))
  | .ok aggregated => do
      let stats ← convertAll ar [] (loop.entries aggregated)
      return .ok ⟨true, stats, utf8 "指标统计信息获取成功"⟩

end Endpoint

/-- The number that a stored value carries, bare or with a unit. -/
def number : Value → Option Float64
  | .float x => some x
  | .map members =>
    match getKey (ascii "value") members with
    | some (.float x) => some x
    | _ => none
  | _ => none

/-- The numbers that the records carry for a metric. -/
def numbers (records : List MetricsData) (name : GoString) : List Float64 :=
  records.filterMap fun data => (getKey name data.metrics).bind number

/-- The statistics of one metric; without numbers there are none. -/
def Describes (ar : Arithmetic) (values : List Float64) : Option MetricStats → Prop
  | none => values = []
  | some stats =>
    stats.count.toNat = values.length ∧
      (stats.min ∈ values ∧ ∀ v ∈ values, ar.less v stats.min = false) ∧
      (stats.max ∈ values ∧ ∀ v ∈ values, ar.less stats.max v = false)

/-- The endpoint returns, an error only for one of the storage, and describes each metric. -/
def CountsSamples (ar : Arithmetic) (range : Except GoString (List MetricsData))
    (outcome : Except Panic (Except GoString GetMetricsStatsResponse)) : Prop :=
  match range with
  | .error err => outcome = .ok (.error (utf8 "获取指标统计信息失败: " ++ err))
  | .ok records => ∃ response, outcome = .ok (.ok response) ∧
      ∀ name, Describes ar (numbers records name) (getKey name response.stats)

section Counting

/-- Every metric that was found has a number. -/
def Filled (metricValues : MetricValues) : Prop := ∀ entry ∈ metricValues, entry.2 ≠ []

def Bare (v : Value) : Prop := ∃ x, v = .float x

variable {metricValues : MetricValues}

theorem addValue_filled (filled : Filled metricValues)
    (m : GoString × Value) : Filled (addValue metricValues m) := by
  unfold addValue
  split
  · intro entry mem
    cases mem_setKey mem with
    | inl new => simp [new]
    | inr old => exact filled entry old
  · exact filled

theorem setKey_ne_nil {α : Type} (k : GoString) (v : α) (m : List (GoString × α)) : setKey k v m ≠ [] := by
  intro empty
  have found := getKey_setKey k k v m
  simp [empty, getKey] at found

theorem addValue_ne_nil {m : GoString × Value}
    (some_ : metricValues ≠ [] ∨ Bare m.2) : addValue metricValues m ≠ [] := by
  unfold addValue
  split
  · exact setKey_ne_nil _ _ _
  · rename_i other
    cases some_ with
    | inl before => exact before
    | inr bare =>
      obtain ⟨x, same⟩ := bare
      exact absurd same (other x)

variable {entries : List (GoString × Value)}

theorem foldl_addValue_ne_nil
    (some_ : metricValues ≠ [] ∨ ∃ m ∈ entries, Bare m.2) : entries.foldl addValue metricValues ≠ [] := by
  induction entries generalizing metricValues with
  | nil => simpa using some_
  | cons m entries ih =>
    refine ih ?_
    cases some_ with
    | inl before => exact .inl (addValue_ne_nil (.inl before))
    | inr later =>
      obtain ⟨m', mem, bare⟩ := later
      cases mem_cons.mp mem with
      | inl here =>
        subst here
        exact .inl (addValue_ne_nil (.inr bare))
      | inr rest => exact .inr ⟨m', rest, bare⟩

theorem foldl_addValue_filled (entries : List (GoString × Value))
    (filled : Filled metricValues) : Filled (entries.foldl addValue metricValues) := by
  induction entries generalizing metricValues with
  | nil => exact filled
  | cons m entries ih => exact ih (addValue_filled filled m)

theorem foldl_addValue_of_not_bare (none_ : ∀ m ∈ entries, ¬ Bare m.2)
    (metricValues : MetricValues) : entries.foldl addValue metricValues = metricValues := by
  induction entries generalizing metricValues with
  | nil => rfl
  | cons m entries ih =>
    obtain ⟨here, later⟩ := forall_mem_cons.mp none_
    have same : addValue metricValues m = metricValues := by
      unfold addValue
      split
      · rename_i value bare
        exact absurd ⟨value, bare⟩ here
      · rfl
    simp only [foldl_cons, same, ih later]

variable (order : Nat → LoopOrder)

/-- The metrics in the order the loops go through them. -/
def inLoopOrder : Nat → List MetricsData → List (GoString × Value)
  | _, [] => []
  | i, data :: rest => (order i).entries data.metrics ++ inLoopOrder (i + 1) rest

theorem mem_inLoopOrder {m : GoString × Value} (records : List MetricsData) (i : Nat) :
    m ∈ inLoopOrder order i records ↔ ∃ data ∈ records, m ∈ data.metrics := by
  induction records generalizing i with
  | nil => simp [inLoopOrder]
  | cons data rest ih => simp [inLoopOrder, (order i).mem_entries, ih]

theorem collectValues_eq (records : List MetricsData) (i : Nat) (metricValues : MetricValues) :
    collectValues order i metricValues records =
      (inLoopOrder order i records).foldl addValue metricValues := by
  induction records generalizing i metricValues with
  | nil => rfl
  | cons data rest ih => simp only [collectValues, inLoopOrder, foldl_append, ih]

variable (ar : Arithmetic)

theorem convertAll_panics (entries : List (GoString × Dynamic)) (some_ : entries ≠ [])
    (counted : ∀ entry ∈ entries, ∃ values, aggregate ar values = some entry.2) :
    convertAll ar [] entries = .error .interfaceConversion := by
  cases entries with
  | nil => exact absurd rfl some_
  | cons entry rest =>
    obtain ⟨name, stats⟩ := entry
    obtain ⟨values, shape⟩ := counted _ mem_cons_self
    cases values with
    | nil => cases shape
    | cons first more =>
      cases shape
      rfl

theorem aggregated_ne_nil (filled : Filled metricValues) (some_ : metricValues ≠ []) :
    (metricValues.filterMap fun entry => (aggregate ar entry.2).map fun stats => (entry.1, stats)) ≠ [] := by
  cases metricValues with
  | nil => exact absurd rfl some_
  | cons entry rest =>
    obtain ⟨name, values⟩ := entry
    cases values with
    | nil => exact absurd rfl (filled _ mem_cons_self)
    | cons first more => simp [aggregate]

variable {fl : Floats} {s : RedisStorage} {hostId : GoString} {startTime endTime : Int}
  {records : List MetricsData}

theorem getMetricsStats_panics (loop : LoopOrder)
    (read : s.getMetricsDataRange fl hostId startTime endTime = .ok records)
    (bare : ∃ data ∈ records, ∃ m ∈ data.metrics, Bare m.2) :
    getMetricsStats ar fl s order loop hostId startTime endTime = .error .interfaceConversion := by
  obtain ⟨data, mem, m, metric, bare⟩ := bare
  have ne : records.isEmpty = false := by
    cases records with
    | nil => cases mem
    | cons => rfl
  have start : Filled [] := nofun
  have filled := foldl_addValue_filled (inLoopOrder order 0 records) start
  have seen := (mem_inLoopOrder order records 0).mpr ⟨data, mem, metric⟩
  have found := aggregated_ne_nil ar filled (foldl_addValue_ne_nil (.inr ⟨m, seen, bare⟩))
  have panics := convertAll_panics ar (loop.entries _)
    (fun empty => found (List.Perm.eq_nil (empty ▸ loop.perm _).symm)) fun entry mem => by
      obtain ⟨values, _, shape⟩ := mem_filterMap.mp (loop.mem_entries.mp mem)
      obtain ⟨stats, aggregated, rfl⟩ := Option.map_eq_some_iff.mp shape
      exact ⟨values.2, aggregated⟩
  simp only [getMetricsStats, aggregateMetrics, read, ne, Bool.false_eq_true, if_false,
    collectValues_eq, panics]
  rfl

theorem getMetricsStats_nothing (loop : LoopOrder)
    (read : s.getMetricsDataRange fl hostId startTime endTime = .ok records)
    (none_ : ∀ data ∈ records, ∀ m ∈ data.metrics, ¬ Bare m.2) :
    getMetricsStats ar fl s order loop hostId startTime endTime =
      .ok (.ok ⟨true, [], utf8 "指标统计信息获取成功"⟩) := by
  have unseen : ∀ m ∈ inLoopOrder order 0 records, ¬ Bare m.2 := by
    intro m seen
    obtain ⟨data, mem, metric⟩ := (mem_inLoopOrder order records 0).mp seen
    exact none_ data mem m metric
  have nothing : loop.entries ([] : List (GoString × Dynamic)) = [] := (loop.perm _).eq_nil
  have empty : aggregateMetrics ar fl s order hostId startTime endTime = .ok [] := by
    simp only [aggregateMetrics, read, collectValues_eq, foldl_addValue_of_not_bare unseen,
      filterMap_nil, ite_self]
  simp only [getMetricsStats, empty, nothing]
  rfl

end Counting

theorem number_ne_none_of_bare {v : Value} (bare : Bare v) : number v ≠ none := by
  obtain ⟨x, rfl⟩ := bare
  exact Option.some_ne_none x

/-- For whatever got into the storage, and every host and range, the statistics count every sample
    exactly when there is none. -/
theorem countsSamples_iff (fl : Floats) (ar : Arithmetic) (keyPrefix : GoString) (ingested : List Ingest)
    (hostId : GoString) (startTime endTime : Int) (order : Nat → LoopOrder) (loop : LoopOrder) :
    CountsSamples ar ((ingestAll fl keyPrefix ingested).getMetricsDataRange fl hostId startTime endTime)
        (getMetricsStats ar fl (ingestAll fl keyPrefix ingested) order loop hostId startTime endTime) ↔
      ∀ records, (ingestAll fl keyPrefix ingested).getMetricsDataRange fl hostId startTime endTime =
          .ok records → ∀ data ∈ records, ∀ m ∈ data.metrics, number m.2 = none := by
  generalize ingestAll fl keyPrefix ingested = s
  cases read : s.getMetricsDataRange fl hostId startTime endTime with
  | error err =>
    refine iff_of_true ?_ (by simp)
    simp only [CountsSamples, getMetricsStats, aggregateMetrics, read]
  | ok records =>
    have ordered := RedisStorage.getMetricsDataRange_ordered fl read
    simp only [Except.ok.injEq, forall_eq']
    constructor
    · rintro ⟨response, returned, described⟩ data member m metric
      have none_ : ∀ data ∈ records, ∀ m ∈ data.metrics, ¬ Bare m.2 := by
        intro data member m metric bare
        have panics := getMetricsStats_panics order ar loop read ⟨data, member, m, metric, bare⟩
        cases panics.symm.trans returned
      have nothing := getMetricsStats_nothing order ar loop read none_
      cases returned.symm.trans nothing
      have empty : numbers records m.1 = [] := described m.1
      have lookup := (ordered data member).getKey_of_mem metric
      simpa [lookup] using filterMap_eq_nil_iff.mp empty data member
    · intro plain
      have none_ : ∀ data ∈ records, ∀ m ∈ data.metrics, ¬ Bare m.2 :=
        fun data member m metric bare => number_ne_none_of_bare bare (plain data member m metric)
      refine ⟨_, getMetricsStats_nothing order ar loop read none_, fun name => ?_⟩
      refine filterMap_eq_nil_iff.mpr fun data member => ?_
      cases lookup : getKey name data.metrics with
      | none => rfl
      | some v => exact plain data member (name, v) (mem_of_getKey lookup)

variable {outcome : Except Panic (Except GoString GetMetricsStatsResponse)}
  {range : Except GoString (List MetricsData)} {ar : Arithmetic}

theorem not_countsSamples_of_panic
    (panics : outcome.toOption.isNone = true) : ¬ CountsSamples ar range outcome := by
  intro counts
  cases range with
  | error err =>
    have failed : outcome = .ok (.error _) := counts
    subst failed
    cases panics
  | ok records =>
    obtain ⟨response, returned, _⟩ := counts
    subst returned
    cases panics

theorem not_countsSamples_of_missing {name : GoString}
    {values : List Float64} (some_ : values ≠ [])
    (carried : range.toOption.map (fun records => numbers records name) = some values)
    (nothing : outcome.toOption.map (fun reply => reply.toOption.map fun response => response.stats.length) =
      some (some 0)) : ¬ CountsSamples ar range outcome := by
  intro counts
  cases range with
  | error err => cases carried
  | ok records =>
    cases carried
    obtain ⟨response, returned, described⟩ := counts
    subst returned
    have none_ : response.stats = [] :=
      length_eq_zero_iff.mp (Option.some.inj (Option.some.inj nothing))
    have empty := described name
    rw [none_] at empty
    exact some_ empty

/-- The operations on integers, without the fractions of quotients. -/
def integerArithmetic : Arithmetic where
  zero := 0
  add := fun x y => floatOfInt (truncateFloat x + truncateFloat y)
  div := fun x y => floatOfInt ((truncateFloat x).tdiv (truncateFloat y))
  less := fun x y => truncateFloat x < truncateFloat y
  ofNat := fun n => floatOfInt n
  toUint64 := fun x => .ofInt (truncateFloat x)

def bareMessage : Ingest :=
  .kafka (ascii "\x7b\"host_id\":\"h\",\"timestamp\":5,\"metrics\":\x7b\"cpu\":1\x7d\x7d") ⟨none, none⟩

/-- An item of a batch with the number 1 and a unit. -/
def unitItem : Ingest :=
  .sendMetrics [(ascii "hostId", .string (ascii "h")),
    (ascii "metrics", .slice [.map [(ascii "name", .string (ascii "cpu")),
      (ascii "unit", .string (ascii "%")), (ascii "value", .float (floatOfInt 1))]])] ⟨none, none⟩

section Sample

variable (item : Ingest)

/-- The records of the seconds 0 to 9 in a storage with one ingest, and their statistics. -/
def rangeAfter : Except GoString (List MetricsData) :=
  (ingestAll integerFloats (ascii "p:") [item]).getMetricsDataRange integerFloats (ascii "h") 0 9

def statsAfter : Except Panic (Except GoString GetMetricsStatsResponse) :=
  getMetricsStats integerArithmetic integerFloats (ingestAll integerFloats (ascii "p:") [item])
    (fun _ => .same) .same (ascii "h") 0 9

end Sample

/-- After the message the endpoint panics; after the item it returns no statistics of the metric, for
    which the only record in the range carries a number. -/
theorem samples_not_counted :
    (statsAfter bareMessage).toOption.isNone = true ∧
      ¬ CountsSamples integerArithmetic (rangeAfter bareMessage) (statsAfter bareMessage) ∧
      (statsAfter unitItem).toOption.map (fun reply => reply.toOption.map fun response =>
        response.stats.length) = some (some 0) ∧
      (rangeAfter unitItem).toOption.map (fun records => numbers records (ascii "cpu")) =
        some [floatOfInt 1] ∧
      ¬ CountsSamples integerArithmetic (rangeAfter unitItem) (statsAfter unitItem) := by
  have panics : (statsAfter bareMessage).toOption.isNone = true := by decide +kernel
  have nothing : (statsAfter unitItem).toOption.map (fun reply => reply.toOption.map fun response =>
      response.stats.length) = some (some 0) := by decide +kernel
  have carried : (rangeAfter unitItem).toOption.map (fun records => numbers records (ascii "cpu")) =
      some [floatOfInt 1] := by decide +kernel
  exact ⟨panics, not_countsSamples_of_panic panics, nothing, carried,
    not_countsSamples_of_missing (cons_ne_nil (floatOfInt 1) []) carried nothing⟩

end Monitor.Service
