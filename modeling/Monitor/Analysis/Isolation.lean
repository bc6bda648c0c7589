import Monitor.Analysis.Sensitivity
import Monitor.Lib.Positions

/-! # When an aggregate depends on the requested metric only

`Aggregate` picks the records that carry the metric, but not the metric inside of
them. So a result depends on the other metrics of these records, except where
the aggregator does not come to look at any value: there is no record, there is
no aggregator, or the rate finds no time between the records (`isolated_iff`).
-/

namespace Monitor.Analysis

open GoText Json List Function

section Sorting

variable {R : Type}

section

variable (sort : SliceSort) (data : List (MetricsData R))

theorem SliceSort.apply_perm : (sort.apply data).Perm data := by
  have permuted := (sort.perm (data.map (·.timestamp))).filterMap fun i => data[i]?
  rwa [length_map, Positions.filterMap_range, take_length] at permuted

theorem SliceSort.apply_sorted : ((sort.apply data).map (·.timestamp)).Pairwise (· ≤ ·) := by
  rw [SliceSort.apply, Positions.map_filterMap_getElem? (fun d : MetricsData R => d.timestamp) 0]
  · exact sort.sorted _
  · intro i mem
    have lt := mem_range.mp ((sort.perm _).mem_iff.mp mem)
    rwa [length_map] at lt

theorem SliceSort.apply_map
    (f : MetricsData R → MetricsData R) (times : ∀ d, (f d).timestamp = d.timestamp) :
    sort.apply (data.map f) = (sort.apply data).map f := by
  have same : (data.map f).map (·.timestamp) = data.map (·.timestamp) := by
    rw [map_map]
    exact map_congr_left fun d _ => times d
  rw [SliceSort.apply, SliceSort.apply, same, map_filterMap]
  simp only [getElem?_map]

end

theorem between_ends {first : MetricsData R} {rest : List (MetricsData R)}
    (sorted : ((first :: rest).map (·.timestamp)).Pairwise (· ≤ ·)) {x : MetricsData R}
    (mem : x ∈ first :: rest) : first.timestamp ≤ x.timestamp ∧
      x.timestamp ≤ ((first :: rest).getLast (cons_ne_nil first rest)).timestamp := by
  rw [pairwise_map] at sorted
  exact ⟨sorted.rel_head_of_rel_head_head mem le_rfl,
    sorted.rel_getLast_of_rel_getLast_getLast mem le_rfl⟩

end Sorting

section Records

variable {R : Type}

def samples (metricName : GoString) (d : MetricsData R) : List (Metric R) :=
  d.metrics.filter fun metric => metric.name = metricName

/-- The same record up to metrics of other names. -/
structure SameSamples (metricName : GoString) (d d' : MetricsData R) : Prop where
  hostID : d'.hostID = d.hostID
  timestamp : d'.timestamp = d.timestamp
  samples : samples metricName d' = samples metricName d

instance (metricName : GoString) : Std.Refl (SameSamples metricName (R := R)) :=
  ⟨fun _ => ⟨rfl, rfl, rfl⟩⟩

theorem carries_iff (metricName : GoString) (d : MetricsData R) :
    Analyzer.carries metricName d = true ↔ samples metricName d ≠ [] := by
  rw [Analyzer.carries, any_eq_true, samples, ne_eq, filter_eq_nil_iff]
  push Not
  rfl

/-- A name that is not the given one and comes behind it. -/
def otherName (metricName : GoString) : GoString := metricName ++ [0]

theorem otherName_ne (metricName : GoString) : otherName metricName ≠ metricName := by
  intro same
  have length := congrArg List.length same
  rw [otherName, length_append] at length
  exact absurd length (Nat.succ_ne_self _)

theorem not_before_otherName (metricName : GoString) :
    before (otherName metricName) metricName = false := by
  induction metricName with
  | nil => rfl
  | cons c rest ih =>
    change (decide (c < c) || (c == c && before (otherName rest) rest)) = false
    rw [ih]
    simp

/-- A record with further metrics of the other name in front. -/
def withValues (metricName : GoString) (xs : List R) (d : MetricsData R) : MetricsData R :=
  { d with metrics := xs.map (fun x => ⟨otherName metricName, x, []⟩) ++ d.metrics }

theorem withValues_same (metricName : GoString) (xs : List R) (d : MetricsData R) :
    SameSamples metricName d (withValues metricName xs d) := by
  refine ⟨rfl, rfl, ?_⟩
  have none_ : (xs.map fun x => (⟨otherName metricName, x, []⟩ : Metric R)).filter
      (fun metric => metric.name = metricName) = [] := by
    rw [filter_eq_nil_iff]
    intro metric mem
    obtain ⟨x, _, rfl⟩ := mem_map.mp mem
    simpa using otherName_ne metricName
  rw [samples, withValues, filter_append, none_, nil_append, samples]

theorem values_withValues (metricName : GoString) (xs : List R) (d : MetricsData R)
    (data : List (MetricsData R)) :
    values (withValues metricName xs d :: data) = xs ++ values (d :: data) := by
  simp [values, withValues, comp_def]

/-- A record with the samples of a metric and one other metric, of a value that depends on the
    time. -/
def marked (metricName : GoString) (f : Int → R) (d : MetricsData R) : MetricsData R :=
  { d with metrics := samples metricName d ++ [⟨otherName metricName, f d.timestamp, []⟩] }

theorem marked_same (metricName : GoString) (f : Int → R) (d : MetricsData R) :
    SameSamples metricName d (marked metricName f d) := by
  refine ⟨rfl, rfl, ?_⟩
  rw [samples, marked, filter_append, samples, filter_filter]
  simp [otherName_ne]

end Records

section Rate

variable {R : Type}

def lastValue (start : R) (metrics : List (Metric R)) : R :=
  metrics.foldl (fun _ metric => metric.value) start

variable {metricName : GoString} {d : MetricsData R} {data : List (MetricsData R)}

theorem foldl_setKey {metrics : List (Metric R)}
    (named : ∀ metric ∈ metrics, metric.name = metricName) (start : R) :
    metrics.foldl (fun values metric => setKey metric.name metric.value values)
      [(metricName, start)] = [(metricName, lastValue start metrics)] := by
  induction metrics generalizing start with
  | nil => rfl
  | cons metric metrics ih =>
    have here : setKey metric.name metric.value [(metricName, start)] =
        [(metricName, metric.value)] := by
      rw [named metric mem_cons_self, setKey, if_pos rfl]
    rw [foldl_cons, here, ih fun other mem => named other (mem_cons_of_mem _ mem)]
    rfl

theorem currentValues_marked (metricName : GoString) (carried : Analyzer.carries metricName d = true) :
    ∃ v, ∀ f : Int → R, currentValues (marked metricName f d) =
      [(metricName, v), (otherName metricName, f d.timestamp)] := by
  have named : ∀ metric ∈ samples metricName d, metric.name = metricName := by
    intro metric mem
    exact of_decide_eq_true (mem_filter.mp mem).2
  have some_ := (carries_iff metricName d).mp carried
  cases shape : samples metricName d with
  | nil => exact absurd shape some_
  | cons metric metrics =>
    rw [shape] at named
    refine ⟨lastValue metric.value metrics, fun f => ?_⟩
    have first : setKey metric.name metric.value ([] : List (GoString × R)) =
        [(metricName, metric.value)] := by
      rw [named metric mem_cons_self, setKey]
    have last : (metric :: metrics).foldl
        (fun values metric => setKey metric.name metric.value values) [] =
          [(metricName, lastValue metric.value metrics)] := by
      rw [foldl_cons, first, foldl_setKey fun other mem => named other (mem_cons_of_mem _ mem)]
    rw [currentValues, marked, shape, foldl_append, last]
    simp only [foldl_cons, foldl_nil, setKey, otherName_ne, not_before_otherName,
      if_false, Bool.false_eq_true]

variable [Field R] [LinearOrder R]

/-- The increase of a value, zero when it falls. -/
def increase (prev current : R) : R := if current > prev then current - prev else 0

/-- From a marked record to the next, the total grows by something that does not depend on the marks
    and by the increase of the marks. -/
theorem addIncreases_marked {e : MetricsData R} (carried : Analyzer.carries metricName d = true)
    (carried' : Analyzer.carries metricName e = true) : ∃ own, ∀ (f : Int → R) (total : R),
      addIncreases (currentValues (marked metricName f d)) (currentValues (marked metricName f e))
        total = total + own + increase (f d.timestamp) (f e.timestamp) := by
  obtain ⟨v, seen⟩ := currentValues_marked metricName carried
  obtain ⟨w, seen'⟩ := currentValues_marked metricName carried'
  refine ⟨increase v w, fun f total => ?_⟩
  rw [seen, seen']
  generalize f d.timestamp = x
  have own : getKey metricName [(metricName, v), (otherName metricName, x)] = some v := by
    rw [getKey_cons, if_pos rfl]
  have other : getKey (otherName metricName) [(metricName, v), (otherName metricName, x)] =
      some x := by
    rw [getKey_cons, if_neg (otherName_ne metricName).symm, getKey_cons, if_pos rfl]
  simp only [addIncreases, foldl_cons, foldl_nil, own, other, increase]
  split <;> split <;> simp [add_assoc]

theorem increase_self (v : R) : increase v v = 0 := if_neg (lt_irrefl v)

theorem increase_of_le {v w : R} (up : v ≤ w) : increase v w = w - v := by
  rcases up.eq_or_lt with rfl | less
  · rw [increase_self, sub_self]
  · exact if_pos less

theorem aggregateRate_still (sort : SliceSort)
    (still : ∀ d ∈ data, ∀ e ∈ data, d.timestamp = e.timestamp) : aggregateRate sort data = 0 := by
  rw [aggregateRate]
  split_ifs
  · rfl
  · have lt : ∀ d ∈ sort.apply data, d ∈ data := fun d => (sort.apply_perm data).mem_iff.mp
    cases shape : sort.apply data with
    | nil => rfl
    | cons first rest =>
      rw [shape] at lt
      have same := still _ (lt _ (getLast_mem (cons_ne_nil first rest))) _
        (lt _ mem_cons_self)
      simp [same, timeSub, seconds]

variable [IsStrictOrderedRing R]

/-- With the times as marks, the total of the increases grows by the time between the first and the
    last record. -/
theorem rateLoop_marked (carried : ∀ e ∈ d :: data, Analyzer.carries metricName e = true)
    (sorted : ((d :: data).map (·.timestamp)).Pairwise (· ≤ ·)) (total c : R) :
    rateLoop (currentValues (marked metricName (fun t => (t : R)) d)) (total + c)
      (data.map (marked metricName fun t => (t : R))) =
      rateLoop (currentValues (marked metricName (fun _ => 0) d)) total
        (data.map (marked metricName fun _ => 0)) + c +
        ((((d :: data).getLast (cons_ne_nil d data)).timestamp : R) - (d.timestamp : R)) := by
  induction data generalizing d total c with
  | nil => simp [rateLoop]
  | cons e data ih =>
    obtain ⟨own, grows⟩ := addIncreases_marked (carried d mem_cons_self)
      (carried e (mem_cons_of_mem d mem_cons_self))
    obtain ⟨later, sorted'⟩ := pairwise_cons.mp sorted
    have step : (d.timestamp : R) ≤ (e.timestamp : R) :=
      Int.cast_le.mpr (later _ mem_cons_self)
    simp only [map_cons, rateLoop]
    rw [grows, grows, increase_self, increase_of_le step, getLast_cons (cons_ne_nil e data)]
    have regroup : total + c + own + ((e.timestamp : R) - (d.timestamp : R)) =
        total + own + 0 + (c + ((e.timestamp : R) - (d.timestamp : R))) := by ring
    rw [regroup, ih (fun x mem => carried x (mem_cons_of_mem d mem)) sorted']
    ring

theorem aggregateRate_marked_ne (sort : SliceSort)
    (carried : ∀ d ∈ data, Analyzer.carries metricName d = true)
    {e : MetricsData R} (here : d ∈ data) (there : e ∈ data) (apart : d.timestamp ≠ e.timestamp) :
    aggregateRate sort (data.map (marked metricName fun t => (t : R))) ≠
      aggregateRate sort (data.map (marked metricName fun _ => (0 : R))) := by
  have many : ¬ data.length < 2 := by
    intro few
    match data, few with
    | [x], _ =>
      rw [mem_singleton.mp here, mem_singleton.mp there] at apart
      exact apart rfl
  have lt : ∀ x, x ∈ sort.apply data ↔ x ∈ data := fun x => (sort.apply_perm data).mem_iff
  have sorted := sort.apply_sorted data
  simp only [aggregateRate, length_map, if_neg many,
    SliceSort.apply_map sort data (marked metricName _) fun _ => rfl]
  cases shape : sort.apply data with
  | nil =>
    rw [shape] at lt
    cases (lt d).mpr here
  | cons first rest =>
    rw [shape] at lt sorted
    have around := between_ends sorted ((lt d).mpr here)
    have around' := between_ends sorted ((lt e).mpr there)
    have carried' : ∀ x ∈ first :: rest, Analyzer.carries metricName x = true :=
      fun x mem => carried x ((lt x).mp mem)
    have loop := rateLoop_marked carried' sorted 0 0
    generalize ends : (first :: rest).getLast (cons_ne_nil first rest) = last at *
    have late : first.timestamp < last.timestamp := by omega
    have passed : 0 < timeSub last.timestamp first.timestamp := by
      rw [timeSub]
      omega
    have timeDiff : (0 : R) < seconds (timeSub last.timestamp first.timestamp) :=
      div_pos (Int.cast_pos.mpr passed) (by positivity)
    have lasts (f : Int → R) : (((first :: rest).map (marked metricName f)).getLast
        (by simp)).timestamp = last.timestamp := by
      rw [getLast_map, ends]
      rfl
    simp only [map_cons] at lasts
    simp only [map_cons, lasts]
    have firsts (f : Int → R) : (marked metricName f first).timestamp = first.timestamp := rfl
    rw [firsts, firsts, if_neg timeDiff.not_ge, if_neg timeDiff.not_ge]
    intro same
    rw [div_left_inj' timeDiff.ne'] at same
    rw [add_zero, same, add_zero, left_eq_add, sub_eq_zero, Int.cast_inj] at loop
    exact late.ne' loop

end Rate

namespace Analyzer

variable {hostID : GoString}

section Changes

variable {R : Type} [Field R] [LinearOrder R]

def selected (a : Analyzer R) (hostID metricName : GoString) (timeRange : TimeRange) :
    List (MetricsData R) :=
  filterMetricData (a.getDataInRange hostID timeRange) metricName

/-- The same state up to other metrics in the records of a host. -/
structure OthersChanged (hostID metricName : GoString) (a a' : Analyzer R) : Prop where
  aggregators : a'.aggregators = a.aggregators
  records : List.Forall₂ (SameSamples metricName) (a.dataCache hostID) (a'.dataCache hostID)
  hosts : ∀ host, host ≠ hostID → a'.dataCache host = a.dataCache host

def withRecords (a : Analyzer R) (hostID : GoString) (data : List (MetricsData R)) : Analyzer R :=
  { a with dataCache := update a.dataCache hostID data }

theorem withRecords_dataCache (a : Analyzer R) (hostID : GoString) (data : List (MetricsData R)) :
    (a.withRecords hostID data).dataCache hostID = data :=
  update_self ..

variable {a : Analyzer R} {metricName : GoString}

theorem withRecords_othersChanged {data : List (MetricsData R)}
    (same : List.Forall₂ (SameSamples metricName) (a.dataCache hostID) data) :
    OthersChanged hostID metricName a (a.withRecords hostID data) := by
  refine ⟨rfl, ?_, fun host other => update_of_ne other _ _⟩
  rwa [withRecords_dataCache]

theorem OthersChanged.getDataInRange {a' : Analyzer R}
    (changed : OthersChanged hostID metricName a a') (timeRange : TimeRange) :
    List.Forall₂ (SameSamples metricName) (a.getDataInRange hostID timeRange)
      (a'.getDataInRange hostID timeRange) := by
  refine rel_filter (fun d d' same => ?_) changed.records
  simp only [inRange, same.timestamp]

theorem OthersChanged.selected {a' : Analyzer R}
    (changed : OthersChanged hostID metricName a a') (timeRange : TimeRange) :
    List.Forall₂ (SameSamples metricName) (a.selected hostID metricName timeRange)
      (a'.selected hostID metricName timeRange) := by
  refine rel_filter (fun d d' same => ?_) (changed.getDataInRange timeRange)
  simp only [carries_iff, same.samples]

theorem selected_eq (a : Analyzer R) (hostID metricName : GoString) (timeRange : TimeRange) :
    a.selected hostID metricName timeRange =
      (a.dataCache hostID).filter fun d => carries metricName d && inRange timeRange d :=
  filter_filter ..

theorem exists_withValues {timeRange : TimeRange}
    {first : MetricsData R} {rest : List (MetricsData R)}
    (shape : a.selected hostID metricName timeRange = first :: rest) (xs : List R) :
    ∃ a', OthersChanged hostID metricName a a' ∧
      a'.selected hostID metricName timeRange = withValues metricName xs first :: rest := by
  rw [selected_eq, filter_eq_cons_iff] at shape
  obtain ⟨l₁, l₂, cached, skipped, picked, others⟩ := shape
  have same := withValues_same metricName xs first
  refine ⟨a.withRecords hostID (l₁ ++ withValues metricName xs first :: l₂),
    withRecords_othersChanged ?_, ?_⟩
  · rw [cached]
    exact rel_append (forall₂_refl l₁) (.cons same (forall₂_refl l₂))
  · have picked' : (carries metricName (withValues metricName xs first) &&
        inRange timeRange (withValues metricName xs first)) = true := by
      rw [Bool.and_eq_true, carries_iff, same.samples, ← carries_iff, ← Bool.and_eq_true]
      exact picked
    rw [selected_eq, withRecords_dataCache, filter_eq_cons_iff]
    exact ⟨l₁, l₂, rfl, skipped, picked', others⟩

theorem exists_marked (a : Analyzer R) (hostID metricName : GoString) (timeRange : TimeRange)
    (f : Int → R) : ∃ a', OthersChanged hostID metricName a a' ∧
      a'.selected hostID metricName timeRange =
        (a.selected hostID metricName timeRange).map (marked metricName f) := by
  refine ⟨a.withRecords hostID ((a.dataCache hostID).map (marked metricName f)),
    withRecords_othersChanged ?_, ?_⟩
  · rw [forall₂_map_right_iff]
    exact forall₂_same.mpr fun d _ => marked_same metricName f d
  · rw [selected_eq, selected_eq, withRecords_dataCache, filter_map]
    congr 2
    funext d
    rw [comp_apply, Bool.eq_iff_iff, Bool.and_eq_true, Bool.and_eq_true, carries_iff,
      (marked_same metricName f d).samples, ← carries_iff]
    rfl

end Changes

section Result

variable {R : Type} [Field R] [LinearOrder R] [FloorRing R]

/-- The aggregator does not come to look at a value: there is no record or no aggregator, or it is
    the rate of records of one time. -/
def Isolated (a : Analyzer R) (hostID metricName aggType : GoString) (timeRange : TimeRange) :
    Prop :=
  a.selected hostID metricName timeRange = [] ∨
  getKey aggType a.aggregators = none ∨
  (getKey aggType a.aggregators = some .rate ∧
    ∀ d ∈ a.selected hostID metricName timeRange, ∀ e ∈ a.selected hostID metricName timeRange,
      d.timestamp = e.timestamp)

variable {sqrt : R → R} {a : Analyzer R} {metricName aggType : GoString} {timeRange : TimeRange}
  {sort : SliceSort}

theorem aggregate_selected {now : Int} {aggregator : Aggregator R}
    (registered : getKey aggType a.aggregators = some aggregator)
    (ne : a.selected hostID metricName timeRange ≠ []) :
    a.aggregate sort sqrt now hostID metricName aggType timeRange =
      .ok ⟨aggType, timeRange, hostID, metricName,
        aggregator.aggregate sort sqrt (a.selected hostID metricName timeRange), now⟩ := by
  have some_ : (a.getDataInRange hostID timeRange).length ≠ 0 := by
    intro none_
    rw [selected, length_eq_zero_iff.mp none_] at ne
    exact ne rfl
  have some' : (filterMetricData (a.getDataInRange hostID timeRange) metricName).length ≠ 0 := by
    rwa [ne_eq, length_eq_zero_iff]
  simp only [aggregate, if_neg some_, registered, if_neg some', selected]

theorem Isolated.aggregate_eq {now : Int} {a' : Analyzer R}
    (isolated : a.Isolated hostID metricName aggType timeRange)
    (changed : OthersChanged hostID metricName a a') :
    a'.aggregate sort sqrt now hostID metricName aggType timeRange =
      a.aggregate sort sqrt now hostID metricName aggType timeRange := by
  have ranges := (changed.getDataInRange timeRange).length_eq
  have records := changed.selected timeRange
  have counts := records.length_eq
  rcases isolated with none_ | unregistered | ⟨rate, still⟩
  · rw [none_] at counts
    rw [selected] at none_
    have none' := length_eq_zero_iff.mp counts.symm
    rw [selected] at none'
    simp only [aggregate, changed.aggregators, ← ranges, none_, none', length_nil, if_true]
  · simp only [aggregate, changed.aggregators, ← ranges, unregistered]
  · have times : (a.selected hostID metricName timeRange).map (·.timestamp) =
        (a'.selected hostID metricName timeRange).map (·.timestamp) := by
      rw [← forall₂_eq_eq_eq, forall₂_map_left_iff, forall₂_map_right_iff]
      exact records.imp fun d d' same => same.timestamp.symm
    have still' : ∀ d ∈ a'.selected hostID metricName timeRange,
        ∀ e ∈ a'.selected hostID metricName timeRange, d.timestamp = e.timestamp := by
      have kept : ∀ d ∈ a'.selected hostID metricName timeRange,
          ∃ x ∈ a.selected hostID metricName timeRange, x.timestamp = d.timestamp := by
        intro d mem
        rw [← mem_map, times]
        exact mem_map_of_mem mem
      intro d mem e mem'
      obtain ⟨x, here, sameX⟩ := kept d mem
      obtain ⟨y, there, sameY⟩ := kept e mem'
      rw [← sameX, ← sameY, still x here y there]
    have zero := aggregateRate_still sort still
    have zero' := aggregateRate_still sort still'
    rw [selected] at counts zero
    rw [selected] at counts zero'
    simp only [aggregate, changed.aggregators, ← ranges, rate, ← counts, Aggregator.aggregate, zero,
      zero']

theorem exists_aggregate_ne [IsStrictOrderedRing R] (sort : SliceSort)
    (exact_ : ∀ x y, 0 ≤ x → 0 ≤ y → sqrt x = sqrt y → x = y)
    (open_ : ¬ a.Isolated hostID metricName aggType timeRange) (now : Int) :
    ∃ a₁ a₂, OthersChanged hostID metricName a a₁ ∧ OthersChanged hostID metricName a a₂ ∧
      a₁.aggregate sort sqrt now hostID metricName aggType timeRange ≠
        a₂.aggregate sort sqrt now hostID metricName aggType timeRange := by
  obtain ⟨ne, registered, moving⟩ := not_or.mp open_ |>.imp id not_or.mp
  obtain ⟨aggregator, registered⟩ := Option.ne_none_iff_exists'.mp registered
  -- Whatever the two changed states are, the results carry what the aggregator makes of their records.
  suffices ∃ a₁ a₂, OthersChanged hostID metricName a a₁ ∧ OthersChanged hostID metricName a a₂ ∧
      aggregator.aggregate sort sqrt (a₁.selected hostID metricName timeRange) ≠
        aggregator.aggregate sort sqrt (a₂.selected hostID metricName timeRange) by
    obtain ⟨a₁, a₂, changed₁, changed₂, apart⟩ := this
    refine ⟨a₁, a₂, changed₁, changed₂, fun same => apart ?_⟩
    have nonempty' {a' : Analyzer R} (changed : OthersChanged hostID metricName a a') :
        a'.selected hostID metricName timeRange ≠ [] := by
      intro none_
      have counts := (changed.selected timeRange).length_eq
      rw [none_] at counts
      exact ne (length_eq_zero_iff.mp counts)
    rw [aggregate_selected (changed₁.aggregators ▸ registered) (nonempty' changed₁),
      aggregate_selected (changed₂.aggregators ▸ registered) (nonempty' changed₂)] at same
    exact congrArg AggregationResult.data (Except.ok.inj same)
  by_cases rate : aggregator = .rate
  · subst rate
    have apart : ¬ ∀ d ∈ a.selected hostID metricName timeRange,
        ∀ e ∈ a.selected hostID metricName timeRange, d.timestamp = e.timestamp :=
      fun still => moving ⟨registered, still⟩
    push Not at apart
    obtain ⟨d, here, e, there, apart⟩ := apart
    obtain ⟨a₁, changed₁, selected₁⟩ := exists_marked a hostID metricName timeRange fun t => (t : R)
    obtain ⟨a₂, changed₂, selected₂⟩ := exists_marked a hostID metricName timeRange fun _ => 0
    refine ⟨a₁, a₂, changed₁, changed₂, ?_⟩
    rw [selected₁, selected₂]
    intro same
    have carried : ∀ d ∈ a.selected hostID metricName timeRange, carries metricName d = true :=
      fun d mem => (mem_filter.mp mem).2
    exact aggregateRate_marked_ne sort carried here there apart (AggregateValue.float.inj same)
  · obtain ⟨first, rest, shape⟩ := exists_cons_of_ne_nil ne
    have carried : carries metricName first = true := by
      have mem : first ∈ a.selected hostID metricName timeRange := by
        rw [shape]
        exact mem_cons_self
      exact (mem_filter.mp mem).2
    have some_ : values (first :: rest) ≠ [] := by
      intro none_
      rw [values, flatMap_cons, append_eq_nil_iff, map_eq_nil_iff] at none_
      rw [carries, none_.1] at carried
      cases carried
    obtain ⟨xs, ys, x, y, ofXs, ofYs, apart⟩ := exists_ofValues_ne exact_ some_ rate
    obtain ⟨a₁, changed₁, selected₁⟩ := exists_withValues shape xs
    obtain ⟨a₂, changed₂, selected₂⟩ := exists_withValues shape ys
    rw [← values_withValues metricName] at ofXs ofYs
    have some' (zs : List R) : values (withValues metricName zs first :: rest) ≠ [] := by
      rw [values_withValues]
      exact append_ne_nil_of_right_ne_nil zs some_
    refine ⟨a₁, a₂, changed₁, changed₂, ?_⟩
    rw [selected₁, selected₂, aggregate_ofValues sort sqrt (some' xs) ofXs,
      aggregate_ofValues sort sqrt (some' ys) ofYs]
    exact apart

end Result

/-- An aggregate is the same under every change of other metrics exactly when the aggregator does not
    come to look at a value. -/
theorem isolated_iff (sort : SliceSort) (now : Int) (a : Analyzer ℝ)
    (hostID metricName aggType : GoString) (timeRange : TimeRange) :
    (∀ a', OthersChanged hostID metricName a a' →
      a'.aggregate sort Real.sqrt now hostID metricName aggType timeRange =
        a.aggregate sort Real.sqrt now hostID metricName aggType timeRange) ↔
      a.Isolated hostID metricName aggType timeRange := by
  constructor
  · intro same
    by_contra open_
    have exact_ : ∀ x y : ℝ, 0 ≤ x → 0 ≤ y → √x = √y → x = y :=
      fun x y low low' => (Real.sqrt_inj low low').mp
    obtain ⟨a₁, a₂, changed₁, changed₂, apart⟩ := exists_aggregate_ne sort exact_ open_ now
    exact apart ((same a₁ changed₁).trans (same a₂ changed₂).symm)
  · exact fun isolated a' changed => isolated.aggregate_eq changed

noncomputable def usageRecord (memory : ℝ) : MetricsData ℝ where
  hostID := ascii "test-host"
  timestamp := 1
  metrics :=
    [⟨ascii "cpu_usage", 45.5, ascii "%"⟩, ⟨ascii "memory_usage", memory, ascii "MB"⟩,
      ⟨ascii "disk_usage", 85, ascii "%"⟩]

noncomputable def usageAnalyzer (memory : ℝ) : Analyzer ℝ :=
  (newAnalyzer p95).addData (usageRecord memory)

variable (memory : ℝ)

theorem usageAnalyzer_avg :
    getKey (ascii "avg") (usageAnalyzer memory).aggregators = some .avg := by
  change getKey (ascii "avg") ((newAnalyzer (p95 : Percentile ℝ)).aggregators) = some .avg
  simp only [newAnalyzer, foldl_cons, foldl_nil, registerAggregator, getKey_setKey]
  simp [Aggregator.getType, ascii]

theorem usageAnalyzer_selected :
    (usageAnalyzer memory).selected (ascii "test-host") (ascii "cpu_usage") ⟨0, 2⟩ =
      [usageRecord memory] := by
  rfl

/-- The average of the processor usage, which changes with the memory usage. -/
theorem average_mixes_metrics :
    OthersChanged (ascii "test-host") (ascii "cpu_usage") (usageAnalyzer 1024) (usageAnalyzer 2048) ∧
    ∀ (sort : SliceSort) (now : Int),
      (usageAnalyzer 1024).aggregate sort Real.sqrt now (ascii "test-host") (ascii "cpu_usage")
        (ascii "avg") ⟨0, 2⟩ = .ok ⟨ascii "avg", ⟨0, 2⟩, ascii "test-host", ascii "cpu_usage",
          .float (1154.5 / 3), now⟩ ∧
      (usageAnalyzer 2048).aggregate sort Real.sqrt now (ascii "test-host") (ascii "cpu_usage")
        (ascii "avg") ⟨0, 2⟩ = .ok ⟨ascii "avg", ⟨0, 2⟩, ascii "test-host", ascii "cpu_usage",
          .float (2178.5 / 3), now⟩ := by
  have result (memory : ℝ) (sort : SliceSort) (now : Int) :
      (usageAnalyzer memory).aggregate sort Real.sqrt now (ascii "test-host") (ascii "cpu_usage")
        (ascii "avg") ⟨0, 2⟩ = .ok ⟨ascii "avg", ⟨0, 2⟩, ascii "test-host", ascii "cpu_usage",
          .float ((45.5 + memory + 85) / 3), now⟩ := by
    rw [aggregate_selected (usageAnalyzer_avg memory) (by simp [usageAnalyzer_selected]),
      usageAnalyzer_selected]
    simp only [Aggregator.aggregate, aggregateAvg, forMetrics, usageRecord, foldl_cons,
      foldl_nil]
    norm_num
  refine ⟨⟨rfl, ?_, ?_⟩, fun sort now => ⟨?_, ?_⟩⟩
  · exact .cons ⟨rfl, rfl, by simp [samples, usageRecord, ascii]⟩ .nil
  · intro host other
    exact (update_of_ne other _ _).trans (update_of_ne other _ _).symm
  · rw [result]
    norm_num
  · rw [result]
    norm_num

end Analyzer

end Monitor.Analysis
