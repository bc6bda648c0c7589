import Monitor.Analysis.Isolation

/-! # The rate of several metrics

The rate aggregator sorts the records by time and adds up the increases from each record to the
next. With distinct times there is one sorted order, so the order of the records does not matter.
Where all records have the same metrics and these do not fall, the increases of a metric add up to
the difference of its last and its first value. The elapsed time is a `Duration`, which holds no
more than 2^63 - 1 nanoseconds.
-/

namespace Monitor.Analysis

open GoText Json List

section Sorted

variable {R : Type} {data data' : List (MetricsData R)}

theorem SliceSort.apply_eq (sort sort' : SliceSort) (same : data.Perm data')
    (distinct : (data.map (·.timestamp)).Nodup) : sort.apply data = sort'.apply data' := by
  have permuted : (sort.apply data).Perm (sort'.apply data') :=
    (sort.apply_perm data).trans (same.trans (sort'.apply_perm data').symm)
  have sorted : (sort.apply data).Pairwise fun d e => d.timestamp ≤ e.timestamp :=
    pairwise_map.mp (sort.apply_sorted data)
  refine List.Perm.eq_of_pairwise (fun d e mem mem' before after => ?_) sorted
    (pairwise_map.mp (sort'.apply_sorted data')) permuted
  have lt : d ∈ data := (sort.apply_perm data).mem_iff.mp mem
  have inside' : e ∈ data := same.mem_iff.mpr ((sort'.apply_perm data').mem_iff.mp mem')
  exact inj_on_of_nodup_map distinct lt inside' (le_antisymm before after)

end Sorted

section Values

variable {R : Type}

def metricNames (d : MetricsData R) : List GoString := d.metrics.map (·.name)

variable {d : MetricsData R}

theorem currentValues_perm (distinct : (metricNames d).Nodup) :
    (currentValues d).Perm (d.metrics.map fun metric => (metric.name, metric.value)) := by
  have filled : ∀ (metrics : List (Metric R)) (values : List (GoString × R)),
      (metrics.map (·.name)).Nodup → (∀ metric ∈ metrics, metric.name ∉ values.map (·.1)) →
      (metrics.foldl (fun values metric => setKey metric.name metric.value values) values).Perm
        (metrics.map (fun metric => (metric.name, metric.value)) ++ values) := by
    intro metrics
    induction metrics with
    | nil => exact fun values _ _ => .refl values
    | cons metric metrics ih =>
      intro values distinct absent
      obtain ⟨new, later⟩ := nodup_cons.mp distinct
      have added : (setKey metric.name metric.value values).Perm ((metric.name, metric.value) :: values) :=
        setKey_perm (absent metric mem_cons_self)
      have rest := ih (setKey metric.name metric.value values) later fun other mem => by
        rw [(added.map (·.1)).mem_iff, map_cons, mem_cons, not_or]
        refine ⟨fun same => new ?_, absent other (mem_cons_of_mem _ mem)⟩
        exact mem_map.mpr ⟨other, mem, same⟩
      exact rest.trans ((added.append_left _).trans perm_middle)
  have all := filled d.metrics [] distinct fun metric _ => by simp
  rwa [append_nil] at all

theorem currentValues_ordered (d : MetricsData R) : KeysOrdered (currentValues d) :=
  foldlRecOn d.metrics _ .nil fun _ ordered metric _ => ordered.setKey metric.name metric.value

theorem getKey_currentValues (distinct : (metricNames d).Nodup) {metric : Metric R}
    (mem : metric ∈ d.metrics) : getKey metric.name (currentValues d) = some metric.value := by
  have entry : (metric.name, metric.value) ∈ currentValues d :=
    (currentValues_perm distinct).mem_iff.mpr (mem_map.mpr ⟨metric, mem, rfl⟩)
  exact (currentValues_ordered d).getKey_of_mem entry

end Values

section Differences

variable {R : Type} [Field R]

def metricValue (d : MetricsData R) (name : GoString) : R :=
  ((d.metrics.find? (·.name = name)).map (·.value)).getD 0

theorem metricValue_of_mem {d : MetricsData R} (distinct : (metricNames d).Nodup) {metric : Metric R}
    (mem : metric ∈ d.metrics) : metricValue d metric.name = metric.value := by
  cases found : d.metrics.find? (·.name = metric.name) with
  | none => simpa using find?_eq_none.mp found metric mem
  | some metric' =>
    have name : metric'.name = metric.name := by simpa using find?_some found
    have same := inj_on_of_nodup_map distinct (mem_of_find?_eq_some found) mem name
    rw [metricValue, found, same]
    rfl

/-- By how much the metrics differ, added up. -/
def difference (names : List GoString) (d e : MetricsData R) : R :=
  (names.map fun name => metricValue e name - metricValue d name).sum

theorem difference_self (names : List GoString) (d : MetricsData R) : difference names d d = 0 := by
  simp [difference]

theorem difference_add (names : List GoString) (c d e : MetricsData R) :
    difference names c d + difference names d e = difference names c e := by
  rw [difference, difference, difference, ← sum_map_add]
  simp

end Differences

section Rate

variable {R : Type} [Field R] [LinearOrder R] {d e : MetricsData R}

theorem aggregateRate_perm (sort sort' : SliceSort) {data data' : List (MetricsData R)}
    (same : data.Perm data')
    (distinct : (data.map (·.timestamp)).Nodup) : aggregateRate sort data = aggregateRate sort' data' := by
  rw [aggregateRate, aggregateRate, same.length_eq, SliceSort.apply_eq sort sort' same distinct]

def entryIncrease (prevValues : List (GoString × R)) (entry : GoString × R) : R :=
  (getKey entry.1 prevValues).elim 0 fun prev => if entry.2 > prev then entry.2 - prev else 0

theorem addIncreases_eq (prevValues currentValues : List (GoString × R)) (totalValue : R) :
    addIncreases prevValues currentValues totalValue =
      totalValue + (currentValues.map (entryIncrease prevValues)).sum := by
  unfold addIncreases
  induction currentValues generalizing totalValue with
  | nil => simp
  | cons entry currentValues ih =>
    rw [foldl_cons, ih, map_cons, sum_cons, ← add_assoc]
    cases found : getKey entry.1 prevValues with
    | none => simp [entryIncrease, found]
    | some prev =>
      simp only [entryIncrease, found, Option.elim_some]
      split <;> simp

/-- The records have these metrics, each once. -/
def Uniform (names : List GoString) (d : MetricsData R) : Prop :=
  (metricNames d).Nodup ∧ (metricNames d).Perm names

/-- No metric is smaller in the second record than in the first. -/
def Rises (d e : MetricsData R) : Prop :=
  ∀ metric ∈ d.metrics, ∀ metric' ∈ e.metrics, metric.name = metric'.name → metric.value ≤ metric'.value

variable {names : List GoString}

theorem entryIncrease_of_rises (uniform : Uniform names d) (uniform' : Uniform names e) (rises : Rises d e)
    {metric : Metric R} (mem : metric ∈ e.metrics) :
    entryIncrease (currentValues d) (metric.name, metric.value) =
      metricValue e metric.name - metricValue d metric.name := by
  have known : metric.name ∈ metricNames d :=
    (uniform.2.trans uniform'.2.symm).mem_iff.mpr (mem_map_of_mem mem)
  obtain ⟨earlier, mem', name⟩ := mem_map.mp known
  have found := getKey_currentValues uniform.1 mem'
  have value := metricValue_of_mem uniform.1 mem'
  rw [name] at found value
  rw [entryIncrease, found, value, metricValue_of_mem uniform'.1 mem]
  simp only [Option.elim_some]
  split
  · rfl
  · rename_i notAbove
    have equal : earlier.value = metric.value :=
      le_antisymm (rises earlier mem' metric mem name) (not_lt.mp notAbove)
    rw [equal, sub_self]

theorem addIncreases_of_rises (uniform : Uniform names d) (uniform' : Uniform names e) (rises : Rises d e)
    (totalValue : R) :
    addIncreases (currentValues d) (currentValues e) totalValue = totalValue + difference names d e := by
  have byMetric : ((currentValues e).map (entryIncrease (currentValues d))).sum =
      (e.metrics.map fun metric => metricValue e metric.name - metricValue d metric.name).sum := by
    rw [((currentValues_perm uniform'.1).map _).sum_eq, map_map]
    refine congrArg List.sum (map_congr_left fun metric mem => ?_)
    exact entryIncrease_of_rises uniform uniform' rises mem
  have byName : (e.metrics.map fun metric => metricValue e metric.name - metricValue d metric.name).sum =
      difference names d e := by
    rw [difference, ← (uniform'.2.map _).sum_eq, metricNames, map_map]
    rfl
  rw [addIncreases_eq, byMetric, byName]

theorem rateLoop_of_rises {rest : List (MetricsData R)} (uniform : ∀ e ∈ d :: rest, Uniform names e)
    (rises : (d :: rest).Pairwise Rises) (totalValue : R) : rateLoop (currentValues d) totalValue rest =
      totalValue + difference names d ((d :: rest).getLast (cons_ne_nil d rest)) := by
  induction rest generalizing d totalValue with
  | nil =>
    rw [rateLoop, getLast_singleton, difference_self, add_zero]
  | cons e rest ih =>
    obtain ⟨first, later⟩ := pairwise_cons.mp rises
    have here := addIncreases_of_rises (uniform d mem_cons_self)
      (uniform e (mem_cons_of_mem _ mem_cons_self)) (first e mem_cons_self) totalValue
    rw [rateLoop, here, ih (fun other mem => uniform other (mem_cons_of_mem _ mem)) later,
      getLast_cons (cons_ne_nil e rest), add_assoc, difference_add]

variable [IsStrictOrderedRing R]

/-- The longest `Duration`. -/
def maxDuration : Int := 2 ^ 63 - 1

theorem seconds_elapsed {t u : Int} (later : u < t) :
    (seconds (timeSub t u) : R) = seconds (min (t - u) maxDuration) ∧ (0 : R) < seconds (timeSub t u) := by
  have capped : timeSub t u = min (t - u) maxDuration := by
    rw [timeSub, maxDuration]
    omega
  have passed : 0 < timeSub t u := by
    rw [timeSub]
    omega
  exact ⟨by rw [capped], div_pos (Int.cast_pos.mpr passed) (by positivity)⟩

theorem aggregateRate_of_rises (sort : SliceSort) {data : List (MetricsData R)} (two : 2 ≤ data.length)
    (distinct : (data.map (·.timestamp)).Nodup) {first last : MetricsData R} (firstIn : first ∈ data)
    (lastIn : last ∈ data)
    (ends : ∀ d ∈ data, first.timestamp ≤ d.timestamp ∧ d.timestamp ≤ last.timestamp)
    (uniform : ∀ d ∈ data, Uniform (metricNames first) d)
    (rises : ∀ d ∈ data, ∀ e ∈ data, d.timestamp < e.timestamp → Rises d e) :
    aggregateRate sort data = difference (metricNames first) first last /
      seconds (min (last.timestamp - first.timestamp) maxDuration) := by
  have permuted := sort.apply_perm data
  have sorted := sort.apply_sorted data
  have many : 2 ≤ (sort.apply data).length := permuted.length_eq ▸ two
  have distinct' : ((sort.apply data).map (·.timestamp)).Nodup :=
    (permuted.map (·.timestamp)).nodup_iff.mpr distinct
  rw [aggregateRate, if_neg (Nat.not_lt.mpr two)]
  cases shape : sort.apply data with
  | nil => simp [shape] at many
  | cons head rest =>
    rw [shape] at permuted sorted distinct' many
    have atHead : head = first := by
      have lt : head ∈ data := permuted.mem_iff.mp mem_cons_self
      have least := (between_ends sorted (permuted.mem_iff.mpr firstIn)).1
      exact inj_on_of_nodup_map distinct lt firstIn (le_antisymm least (ends head lt).1)
    have atLast : (head :: rest).getLast (cons_ne_nil head rest) = last := by
      have lt := permuted.mem_iff.mp (getLast_mem (cons_ne_nil head rest))
      have greatest := (between_ends sorted (permuted.mem_iff.mpr lastIn)).2
      exact inj_on_of_nodup_map distinct lt lastIn (le_antisymm (ends _ lt).2 greatest)
    have strictly : (head :: rest).Pairwise fun d e => d.timestamp < e.timestamp :=
      (pairwise_map.mp sorted).imp₂ (fun d e le ne => lt_of_le_of_ne le ne)
        (pairwise_map.mp distinct')
    have rising : (head :: rest).Pairwise Rises :=
      strictly.imp_of_mem fun lt inside' later =>
        rises _ (permuted.mem_iff.mp lt) _ (permuted.mem_iff.mp inside') later
    have loop := rateLoop_of_rises (fun e mem => uniform e (permuted.mem_iff.mp mem)) rising 0
    have later : first.timestamp < last.timestamp := by
      cases rest with
      | nil => simp at many
      | cons second rest =>
        have next := (pairwise_cons.mp strictly).1 second mem_cons_self
        have lt := permuted.mem_iff.mp (mem_cons_of_mem head mem_cons_self)
        rw [atHead] at next
        exact next.trans_le (ends second lt).2
    obtain ⟨elapsed, pos⟩ := seconds_elapsed (R := R) later
    simp only [atLast]
    rw [loop, atLast, atHead, if_neg pos.not_ge, elapsed, zero_add]

end Rate

/-- For every list of at least two records with distinct times the rate does not depend on their order. If
    they have the same metrics, each once, and no metric falls, it is the sum of the differences between
    the last and the first values divided by the elapsed time, or by the longest `Duration` if the elapsed
    time is longer. -/
theorem aggregateRate_telescopes {R : Type} [Field R] [LinearOrder R] [IsStrictOrderedRing R]
    (sort sort' : SliceSort) {data data' : List (MetricsData R)} (two : 2 ≤ data.length)
    (distinct : (data.map (·.timestamp)).Nodup) (same : data.Perm data') :
    aggregateRate sort data = aggregateRate sort' data' ∧
      ∀ first ∈ data, ∀ last ∈ data,
        (∀ d ∈ data, first.timestamp ≤ d.timestamp ∧ d.timestamp ≤ last.timestamp) →
        (∀ d ∈ data, Uniform (metricNames first) d) →
        (∀ d ∈ data, ∀ e ∈ data, d.timestamp < e.timestamp → Rises d e) →
        aggregateRate sort data = difference (metricNames first) first last /
          seconds (min (last.timestamp - first.timestamp) maxDuration) :=
  ⟨aggregateRate_perm sort sort' same distinct, fun _ firstIn _ lastIn ends uniform rises =>
    aggregateRate_of_rises sort two distinct firstIn lastIn ends uniform rises⟩

def stableSort : SliceSort where
  order times := (List.range times.length).insertionSort fun i j => times.getD i 0 ≤ times.getD j 0
  perm times := perm_insertionSort _ _
  sorted times := by
    rw [pairwise_map]
    exact pairwise_insertionSort _ _

def counted (timestamp : Int) (value : ℚ) : MetricsData ℚ where
  hostID := ascii "host-1"
  timestamp := timestamp
  metrics := [⟨ascii "requests", value, []⟩]

theorem counted_pair {t u : Int} (later : t < u) {v w : ℚ} (le : v ≤ w) {data : List (MetricsData ℚ)}
    (same : data.Perm [counted t v, counted u w]) : (∀ d ∈ data, t ≤ d.timestamp ∧ d.timestamp ≤ u) ∧
      (∀ d ∈ data, Uniform (metricNames (counted t v)) d) ∧
      ∀ d ∈ data, ∀ e ∈ data, d.timestamp < e.timestamp → Rises d e := by
  have members : ∀ d ∈ data, d = counted t v ∨ d = counted u w := fun d mem => by
    simpa using same.mem_iff.mp mem
  have rises : Rises (counted t v) (counted u w) := by
    intro metric mem metric' mem' _
    rw [mem_singleton.mp mem, mem_singleton.mp mem']
    exact le
  have uniform : ∀ t' v', Uniform (metricNames (counted t v)) (counted t' v') :=
    fun _ _ => ⟨nodup_singleton _, .refl _⟩
  refine ⟨fun d mem => ?_, fun d mem => ?_, fun d mem e mem' before => ?_⟩
  · cases members d mem with
    | inl here => exact here ▸ ⟨le_rfl, later.le⟩
    | inr here => exact here ▸ ⟨later.le, le_rfl⟩
  · cases members d mem with
    | inl here => exact here ▸ uniform t v
    | inr here => exact here ▸ uniform u w
  · cases members d mem with
    | inl here =>
      cases members e mem' with
      | inl there => exact absurd before (by simp [here, there])
      | inr there => exact here ▸ there ▸ rises
    | inr here =>
      subst here
      cases members e mem' with
      | inl there =>
        subst there
        exact absurd before later.not_gt
      | inr there => exact absurd before (by simp [there])

theorem aggregateRate_telescopes_counted :
    aggregateRate stableSort [counted 1000000000 7, counted 0 1] =
        aggregateRate stableSort [counted 0 1, counted 1000000000 7] ∧
      aggregateRate stableSort [counted 1000000000 7, counted 0 1] =
        difference (metricNames (counted 0 1)) (counted 0 1) (counted 1000000000 7) /
          seconds (min (1000000000 - 0) maxDuration) := by
  have same : [counted 1000000000 7, counted 0 1].Perm [counted 0 1, counted 1000000000 7] := .swap _ _ _
  obtain ⟨ends, uniform, rises⟩ := counted_pair (by decide) (by norm_num) same
  obtain ⟨order, closed⟩ := aggregateRate_telescopes stableSort stableSort (by decide) (by decide) same
  exact ⟨order, closed (counted 0 1) (by simp) (counted 1000000000 7) (by simp) ends uniform rises⟩

/-- Records whose times are one nanosecond further apart than a `Duration` can say. -/
def farApart : List (MetricsData ℚ) := [counted 0 0, counted (2 ^ 63) 1]

theorem farApart_capped :
    2 ≤ farApart.length ∧ (farApart.map (·.timestamp)).Nodup ∧
      (∀ d ∈ farApart, Uniform (metricNames (counted 0 0)) d) ∧
      (∀ d ∈ farApart, ∀ e ∈ farApart, d.timestamp < e.timestamp → Rises d e) ∧
      ∀ sort : SliceSort, aggregateRate sort farApart ≠
        difference (metricNames (counted 0 0)) (counted 0 0) (counted (2 ^ 63) 1) / seconds (2 ^ 63 - 0) := by
  have distinct : (farApart.map (·.timestamp)).Nodup := by decide
  have same : farApart.Perm [counted 0 0, counted (2 ^ 63) 1] := .refl _
  obtain ⟨ends, uniform, rises⟩ := counted_pair (by decide) (by norm_num) same
  refine ⟨by decide, distinct, uniform, rises, fun sort => ?_⟩
  have rate := aggregateRate_of_rises sort (by decide) distinct (by simp [farApart] : counted 0 0 ∈ farApart)
    (by simp [farApart] : counted (2 ^ 63) 1 ∈ farApart) ends uniform rises
  rw [rate]
  have change : difference (metricNames (counted 0 0)) (counted 0 0) (counted (2 ^ 63) 1) = 1 := by
    simp [difference, metricNames, metricValue, counted]
  rw [change]
  norm_num [seconds, maxDuration, counted]

end Monitor.Analysis
