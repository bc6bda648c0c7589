import Monitor.Analysis.Aggregators
import Monitor.Analysis.Spread

/-! # Aggregates as functions of the values

All aggregators but the rate see the metrics of their records as one list of
values, whatever the names. Each of them can tell apart two lists that end with
the same non-empty part (`exists_ofValues_ne`).
-/

namespace Monitor.Analysis

open GoText Json List

section Loops

variable {R : Type}

def values (data : List (MetricsData R)) : List R :=
  data.flatMap fun d => d.metrics.map fun metric => metric.value

variable (data : List (MetricsData R))

theorem forMetrics_values {α : Type} (start : α) (body : α → R → α) :
    forMetrics data start (fun acc metric => body acc metric.value) =
      (values data).foldl body start := by
  rw [values, foldl_flatMap, forMetrics]
  simp only [foldl_map]

theorem foldl_snoc (vs start : List R) :
    vs.foldl (fun values v => values ++ [v]) start = start ++ vs := by
  induction vs generalizing start with
  | nil => simp
  | cons v vs ih => rw [foldl_cons, ih, append_assoc, singleton_append]

theorem aggregateCount_eq :
    aggregateCount data = (values data).length := by
  have general (start : Nat) : data.foldl (fun count d => count + d.metrics.length) start =
      start + (values data).length := by
    induction data generalizing start with
    | nil => rfl
    | cons d data ih =>
      rw [foldl_cons, ih, values, values, flatMap_cons, length_append, length_map, Nat.add_assoc]
  rw [aggregateCount, general, Nat.zero_add]

variable [Field R]

theorem foldl_add_map (vs : List R) (f : R → R) (start : R) :
    vs.foldl (fun sum v => sum + f v) start = start + (vs.map f).sum := by
  induction vs generalizing start with
  | nil => simp
  | cons v vs ih => rw [foldl_cons, ih, map_cons, sum_cons, add_assoc]

theorem foldl_sum_count (vs : List R) (sum : R) (count : Nat) :
    vs.foldl (fun (acc : R × Nat) v => (acc.1 + v, acc.2 + 1)) (sum, count) =
      (sum + vs.sum, count + vs.length) := by
  induction vs generalizing sum count with
  | nil => simp
  | cons v vs ih =>
    rw [foldl_cons, ih, sum_cons, length_cons, add_assoc]
    congr 1
    omega

theorem forMetrics_sum_count :
    forMetrics data ((0 : R), (0 : Nat)) (fun (sum, count) metric => (sum + metric.value, count + 1)) =
      ((values data).sum, (values data).length) := by
  have folded := forMetrics_values data ((0 : R), (0 : Nat)) fun acc v => (acc.1 + v, acc.2 + 1)
  rw [foldl_sum_count, zero_add, Nat.zero_add] at folded
  exact folded

end Loops

section Order

variable {R : Type} [LinearOrder R]

def lowest (vs : List R) (start : R) : R := vs.foldl (fun min v => if v < min then v else min) start

def highest (vs : List R) (start : R) : R := vs.foldl (fun max v => if v > max then v else max) start

variable {vs : List R}

theorem lowest_cons {x start : R} (low : x < start) (lower : ∀ v ∈ vs, x < v) :
    lowest (x :: vs) start = x := by
  have kept : vs.foldl (fun min v => if v < min then v else min) x = x := by
    induction vs with
    | nil => rfl
    | cons v vs ih =>
      rw [foldl_cons, if_neg (lower v mem_cons_self).not_gt]
      exact ih fun w mem => lower w (mem_cons_of_mem v mem)
  rw [lowest, foldl_cons, if_pos low, kept]

theorem highest_cons {x start : R} (high : x > start) (higher : ∀ v ∈ vs, v < x) :
    highest (x :: vs) start = x := by
  have kept : vs.foldl (fun max v => if v > max then v else max) x = x := by
    induction vs with
    | nil => rfl
    | cons v vs ih =>
      rw [foldl_cons, if_neg (higher v mem_cons_self).not_gt]
      exact ih fun w mem => higher w (mem_cons_of_mem v mem)
  rw [highest, foldl_cons, if_pos high, kept]

theorem insertionSort_cons_low {x : R} (lower : ∀ v ∈ vs, x < v) :
    (x :: vs).insertionSort (· ≤ ·) = x :: vs.insertionSort (· ≤ ·) := by
  refine List.Perm.eq_of_pairwise (fun _ _ _ _ => le_antisymm) (pairwise_insertionSort _ _)
    (pairwise_cons.mpr ⟨?_, pairwise_insertionSort _ _⟩)
    ((perm_insertionSort _ _).trans ((perm_insertionSort _ _).symm.cons x))
  intro v mem
  exact (lower v ((mem_insertionSort _).mp mem)).le

theorem insertionSort_replicate_high {x : R} (n : Nat) (higher : ∀ v ∈ vs, v < x) :
    (replicate n x ++ vs).insertionSort (· ≤ ·) =
      vs.insertionSort (· ≤ ·) ++ replicate n x := by
  refine List.Perm.eq_of_pairwise (fun _ _ _ _ => le_antisymm) (pairwise_insertionSort _ _)
    (pairwise_append.mpr ⟨pairwise_insertionSort _ _, ?_, ?_⟩) ?_
  · exact pairwise_replicate.mpr (.inr le_rfl)
  · intro v mem w copy
    rw [eq_of_mem_replicate copy]
    exact (higher v ((mem_insertionSort _).mp mem)).le
  · exact (perm_insertionSort _ _).trans
      (perm_append_comm.trans ((perm_insertionSort _ _).symm.append_right _))

variable [Field R] [IsStrictOrderedRing R]

theorem exists_lt_all (vs : List R) (start : R) : ∃ x < start, ∀ v ∈ vs, x < v := by
  induction vs with
  | nil => exact ⟨start - 1, sub_one_lt start, fun v mem => by cases mem⟩
  | cons v vs ih =>
    obtain ⟨x, low, lower⟩ := ih
    refine ⟨min x (v - 1), (min_le_left _ _).trans_lt low, ?_⟩
    intro w mem
    rcases mem_cons.mp mem with rfl | later
    · exact (min_le_right _ _).trans_lt (sub_one_lt w)
    · exact (min_le_left _ _).trans_lt (lower w later)

theorem exists_gt_all (vs : List R) (start : R) : ∃ x > start, ∀ v ∈ vs, v < x := by
  obtain ⟨x, low, lower⟩ := exists_lt_all (vs.map fun v => -v) (-start)
  refine ⟨-x, lt_neg.mpr low, fun v mem => ?_⟩
  exact lt_neg.mpr (lower (-v) (mem_map.mpr ⟨v, mem, rfl⟩))

end Order

section Spread

variable {R : Type} [Field R] [LinearOrder R] [IsStrictOrderedRing R]

theorem variance_apart {vs : List R} (ne : vs ≠ []) : variance (vs.sum / (vs.length : R) :: vs) ≠
      variance ((vs.sum / (vs.length : R) + (vs.length + 1 : R)) :: vs) := by
  have count : (0 : R) < (vs.length : R) := by
    rw [Nat.cast_pos]
    exact length_pos_iff.mpr ne
  rw [variance_eq (cons_ne_nil _ _), variance_eq (cons_ne_nil _ _)]
  simp only [map_cons, sum_cons, length_cons, Nat.cast_succ]
  generalize (vs.map fun v => v * v).sum = q
  generalize vs.sum = total
  generalize (vs.length : R) = n at *
  intro same
  have apart : ((total / n + (n + 1)) * (total / n + (n + 1)) + q -
      (total / n + (n + 1) + total) * (total / n + (n + 1) + total) / (n + 1)) / (n + 1) -
      (total / n * (total / n) + q - (total / n + total) * (total / n + total) / (n + 1)) / (n + 1) =
      n := by
    field_simp
    ring
  rw [same, sub_self] at apart
  exact count.ne apart

end Spread

section Percentiles

variable {R : Type} [Field R] [LinearOrder R] [FloorRing R]

variable [IsStrictOrderedRing R] {p : Percentile R}

theorem percentileOf_low (zero : p.value = 0) {x : R} {vs : List R}
    (lower : ∀ v ∈ vs, x < v) : percentileOf p (x :: vs) = x := by
  simp only [percentileOf, insertionSort_cons_low lower, zero, zero_div, zero_mul, Int.floor_zero,
    Int.ceil_zero, Int.toNat_zero, if_true, getD_cons_zero]

theorem percentile_index_le (p : Percentile R) (n : Nat) : ⌈p.value / 100 * (n : R)⌉.toNat ≤ n := by
  have share : p.value / 100 ≤ 1 := (div_le_one (by norm_num)).mpr p.high
  have index : p.value / 100 * (n : R) ≤ (n : R) := mul_le_of_le_one_left (Nat.cast_nonneg n) share
  have whole : ⌈p.value / 100 * (n : R)⌉ ≤ (n : Int) := Int.ceil_le.mpr (by exact_mod_cast index)
  omega

theorem percentileOf_high (pos : 0 < p.value) (vs : List R) :
    ∃ n, ∀ x, (∀ v ∈ vs, v < x) → percentileOf p (replicate n x ++ vs) = x := by
  refine ⟨⌈(vs.length : R) * 100 / p.value⌉.toNat + 1, fun x higher => ?_⟩
  generalize copies : ⌈(vs.length : R) * 100 / p.value⌉.toNat = n
  have enough : (vs.length : R) * 100 / p.value ≤ (n : R) := by
    refine (Int.le_ceil _).trans ?_
    rw [← copies]
    exact_mod_cast Int.self_le_toNat _
  have far : (vs.length : R) ≤ p.value / 100 * ((n + vs.length : Nat) : R) := by
    rw [div_le_iff₀ pos] at enough
    have share : 0 ≤ p.value / 100 * (vs.length : R) :=
      mul_nonneg (div_nonneg p.low (by norm_num)) (Nat.cast_nonneg _)
    push_cast
    linarith
  have lower : vs.length ≤ ⌊p.value / 100 * ((n + vs.length : Nat) : R)⌋.toNat := by
    have whole : (vs.length : Int) ≤ ⌊p.value / 100 * ((n + vs.length : Nat) : R)⌋ :=
      Int.le_floor.mpr (by exact_mod_cast far)
    omega
  have upper := percentile_index_le p (n + vs.length)
  have between := Int.toNat_le_toNat (Int.floor_le_ceil (p.value / 100 * ((n + vs.length : Nat) : R)))
  have at_ (k : Nat) (low : vs.length ≤ k) (high : k ≤ n + vs.length) :
      (vs.insertionSort (· ≤ ·) ++ replicate (n + 1) x).getD k 0 = x := by
    rw [getD_append_right _ _ _ _ (by rwa [length_insertionSort])]
    rw [length_insertionSort, getD_replicate _ (by omega)]
  have count : (vs.insertionSort (· ≤ ·) ++ replicate (n + 1) x).length - 1 = n + vs.length := by
    rw [length_append, length_insertionSort, length_replicate]
    omega
  simp only [percentileOf, insertionSort_replicate_high _ higher, count]
  rw [at_ _ lower (between.trans upper), at_ _ (lower.trans between) upper]
  split
  · rfl
  · ring

end Percentiles

variable {R : Type} [Field R] [LinearOrder R] [FloorRing R]

/-- An aggregate of values that are not empty; the rate is not of this kind. -/
def Aggregator.ofValues (sqrt : R → R) (vs : List R) : Aggregator R → Option (AggregateValue R)
  | .avg => some (.float (vs.sum / (vs.length : R)))
  | .sum => some (.float vs.sum)
  | .min => some (.float (if lowest vs maxFloat64 = maxFloat64 then 0 else lowest vs maxFloat64))
  | .max =>
    some (.float (if highest vs (-maxFloat64) = -maxFloat64 then 0 else highest vs (-maxFloat64)))
  | .count => some (.int vs.length)
  | .rate => none
  | .percentile p => some (.float (percentileOf p vs))
  | .stdDev => some (.float (sqrt (variance vs)))

variable {aggregator : Aggregator R}

theorem aggregate_ofValues (sort : SliceSort) (sqrt : R → R) {data : List (MetricsData R)}
    (ne : values data ≠ []) {v : AggregateValue R}
    (of : aggregator.ofValues sqrt (values data) = some v) :
    aggregator.aggregate sort sqrt data = v := by
  have records : data.length ≠ 0 := by
    intro none_
    rw [length_eq_zero_iff.mp none_] at ne
    exact ne rfl
  have count : (values data).length ≠ 0 := by simpa using ne
  cases aggregator with
  | avg =>
    cases of
    simp only [Aggregator.aggregate, aggregateAvg, if_neg records, forMetrics_sum_count, if_neg count]
  | sum =>
    cases of
    simp only [Aggregator.aggregate, aggregateSum]
    rw [forMetrics_values data 0 fun sum v => sum + v, foldl_add_map _ fun v => v, zero_add, map_id']
  | min =>
    cases of
    simp only [Aggregator.aggregate, aggregateMin, if_neg records]
    rw [forMetrics_values data maxFloat64 fun min v => if v < min then v else min]
    rfl
  | max =>
    cases of
    simp only [Aggregator.aggregate, aggregateMax, if_neg records]
    rw [forMetrics_values data (-maxFloat64) fun max v => if v > max then v else max]
    rfl
  | count =>
    cases of
    simp only [Aggregator.aggregate, aggregateCount_eq]
  | rate => cases of
  | percentile p =>
    cases of
    simp only [Aggregator.aggregate, aggregatePercentile, if_neg records]
    rw [forMetrics_values data [] fun values v => values ++ [v], foldl_snoc, nil_append, if_neg count]
  | stdDev =>
    cases of
    simp only [Aggregator.aggregate, aggregateStdDev, if_neg records, forMetrics_sum_count,
      if_neg count]
    rw [forMetrics_values data 0 fun variance v => variance +
      (v - (values data).sum / ((values data).length : R)) *
        (v - (values data).sum / ((values data).length : R)), foldl_add_map, zero_add]
    rfl

theorem exists_ofValues_ne [IsStrictOrderedRing R] {sqrt : R → R}
    (exact_ : ∀ x y, 0 ≤ x → 0 ≤ y → sqrt x = sqrt y → x = y) {vs : List R} (ne : vs ≠ []) (other : aggregator ≠ .rate) :
    ∃ xs ys a b, aggregator.ofValues sqrt (xs ++ vs) = some a ∧
      aggregator.ofValues sqrt (ys ++ vs) = some b ∧ a ≠ b := by
  cases aggregator with
  | avg =>
    have more : ((vs.length + 1 : Nat) : R) ≠ 0 := Nat.cast_ne_zero.mpr (Nat.succ_ne_zero _)
    refine ⟨[0], [((vs.length + 1 : Nat) : R)], _, _, rfl, rfl, fun same => ?_⟩
    have equal := AggregateValue.float.inj same
    simp only [singleton_append, sum_cons, length_cons, zero_add, add_div, div_self more] at equal
    exact one_ne_zero (right_eq_add.mp equal)
  | sum =>
    refine ⟨[0], [1], _, _, rfl, rfl, fun same => ?_⟩
    have equal := AggregateValue.float.inj same
    simp only [singleton_append, sum_cons, zero_add] at equal
    exact one_ne_zero (right_eq_add.mp equal)
  | min =>
    obtain ⟨x, low, lower⟩ := exists_lt_all vs maxFloat64
    obtain ⟨y, lowY, _⟩ := exists_lt_all vs x
    refine ⟨[x], [y], _, _, rfl, rfl, fun same => ?_⟩
    have equal := AggregateValue.float.inj same
    have low' := lowY.trans low
    simp only [singleton_append, lowest_cons low lower,
      lowest_cons low' fun v mem => lowY.trans (lower v mem), if_neg low.ne, if_neg low'.ne] at equal
    exact lowY.ne' equal
  | max =>
    obtain ⟨x, high, higher⟩ := exists_gt_all vs (-maxFloat64)
    obtain ⟨y, highY, _⟩ := exists_gt_all vs x
    refine ⟨[x], [y], _, _, rfl, rfl, fun same => ?_⟩
    have equal := AggregateValue.float.inj same
    have high' : -maxFloat64 < y := high.trans highY
    simp only [singleton_append, highest_cons high higher,
      highest_cons high' fun v mem => (higher v mem).trans highY, if_neg high.ne',
      if_neg high'.ne'] at equal
    exact highY.ne equal
  | count =>
    refine ⟨[], [0], _, _, rfl, rfl, fun same => ?_⟩
    have equal := AggregateValue.int.inj same
    simp only [nil_append, singleton_append, length_cons, Nat.cast_succ] at equal
    omega
  | rate => exact absurd rfl other
  | percentile p =>
    rcases p.low.eq_or_lt with zero | pos
    · obtain ⟨x, _, lower⟩ := exists_lt_all vs 0
      obtain ⟨y, lowY, _⟩ := exists_lt_all vs x
      refine ⟨[x], [y], _, _, rfl, rfl, fun same => ?_⟩
      have equal := AggregateValue.float.inj same
      rw [singleton_append, singleton_append, percentileOf_low zero.symm lower,
        percentileOf_low zero.symm fun v mem => lowY.trans (lower v mem)] at equal
      exact lowY.ne' equal
    · obtain ⟨n, decided⟩ := percentileOf_high pos vs
      obtain ⟨x, _, higher⟩ := exists_gt_all vs 0
      obtain ⟨y, highY, _⟩ := exists_gt_all vs x
      refine ⟨replicate n x, replicate n y, _, _, rfl, rfl, fun same => ?_⟩
      have equal := AggregateValue.float.inj same
      rw [decided x higher, decided y fun v mem => (higher v mem).trans highY] at equal
      exact highY.ne equal
  | stdDev =>
    refine ⟨[vs.sum / (vs.length : R)], [vs.sum / (vs.length : R) + (vs.length + 1 : R)], _, _,
      rfl, rfl, fun same => ?_⟩
    have equal := exact_ _ _ (variance_nonneg _) (variance_nonneg _)
      (AggregateValue.float.inj same)
    exact variance_apart ne equal

end Monitor.Analysis
