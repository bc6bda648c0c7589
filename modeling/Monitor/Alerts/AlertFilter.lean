import Monitor.Lib.GoText

/-! # The filter for repeated alerts

`AlertFilter` of `bloom_filter.go`. An alert is remembered by a text made of its host, its
metric and its hour, in a Bloom filter and in a map. The map corrects what the filter only
suspects, so the answers are those of a set of such texts, and they are right as long as no
other host and metric have the same text.
-/

namespace Monitor.Alerts

open GoText List

/-- The Bloom filter, which always finds what was added to it. -/
structure Bloom where
  State : Type
  /-- `bloom.New` with the count of bits and of hash functions. -/
  new : Nat → Nat → State
  addString : State → GoString → State
  testString : State → GoString → Bool
  no_false_negatives : ∀ state key later,
    testString (List.foldl addString (addString state key) later) key = true

structure AlertFilter (b : Bloom) where
  filter : b.State
  alertKeys : GoString → Bool

/-- An alert as `AddAlert` gets it. -/
structure Alert where
  hostID : GoString
  metricName : GoString
  timestamp : Int
  nonneg : 0 ≤ timestamp

/-- `generateAlertKey`. The hash that it also computes is not used; the division truncates. -/
def generateAlertKey (hostID metricName : GoString) (timestamp : Int) : GoString :=
  hostID ++ ascii ":" ++ metricName ++ ascii ":" ++ itoa (timestamp.tdiv 3600)

namespace AlertFilter

variable {b : Bloom}

def newAlertFilter (b : Bloom) (size : Nat) : AlertFilter b := ⟨b.new size 3, fun _ => false⟩

def addAlert (af : AlertFilter b) (hostID metricName : GoString) (timestamp : Int) : AlertFilter b :=
  let key := generateAlertKey hostID metricName timestamp
  { af with
    filter := b.addString af.filter key
    alertKeys := Function.update af.alertKeys key true }

def hasAlert (af : AlertFilter b) (hostID metricName : GoString) (timestamp : Int) : Bool :=
  let key := generateAlertKey hostID metricName timestamp
  if !b.testString af.filter key then false else af.alertKeys key

def addAlerts (af : AlertFilter b) (alerts : List Alert) : AlertFilter b :=
  alerts.foldl (fun af a => af.addAlert a.hostID a.metricName a.timestamp) af

end AlertFilter

def Alert.key (a : Alert) : GoString := generateAlertKey a.hostID a.metricName a.timestamp

def Alert.Matches (a : Alert) (hostID metricName : GoString) (timestamp : Int) : Prop :=
  a.hostID = hostID ∧ a.metricName = metricName ∧ a.timestamp / 3600 = timestamp / 3600

theorem generateAlertKey_eq_iff {hostID hostID' metricName metricName' : GoString} {t t' : Int} :
    generateAlertKey hostID metricName t = generateAlertKey hostID' metricName' t' ↔
      hostID ++ ascii ":" ++ metricName = hostID' ++ ascii ":" ++ metricName' ∧
        t.tdiv 3600 = t'.tdiv 3600 := by
  constructor
  · intro same
    simp only [generateAlertKey, append_assoc (_ ++ _ ++ _)] at same
    exact append_colon_itoa_inj same
  · rintro ⟨text, hour⟩
    rw [generateAlertKey, generateAlertKey, text, hour]

theorem Alert.Matches.key {a : Alert} {hostID metricName : GoString} {t : Int}
    (same : a.Matches hostID metricName t) : a.key = generateAlertKey hostID metricName t := by
  obtain ⟨host, metric, hour⟩ := same
  have nonneg := a.nonneg
  have later : 0 ≤ t := by omega
  refine generateAlertKey_eq_iff.mpr ⟨by rw [host, metric], ?_⟩
  rw [Int.tdiv_eq_ediv_of_nonneg nonneg, Int.tdiv_eq_ediv_of_nonneg later, hour]

namespace AlertFilter

variable {b : Bloom}

theorem addAlerts_filter (af : AlertFilter b) (alerts : List Alert) :
    (af.addAlerts alerts).filter = (alerts.map Alert.key).foldl b.addString af.filter := by
  induction alerts generalizing af with
  | nil => rfl
  | cons a alerts ih => exact ih _

theorem addAlerts_alertKeys (af : AlertFilter b) (alerts : List Alert) (key : GoString) :
    (af.addAlerts alerts).alertKeys key = true ↔ af.alertKeys key = true ∨ ∃ a ∈ alerts, a.key = key := by
  induction alerts generalizing af with
  | nil => simp [addAlerts]
  | cons a alerts ih =>
    refine (ih _).trans ?_
    by_cases same : a.key = key
    · subst same
      simp [addAlert, Alert.key]
    · have other : key ≠ generateAlertKey a.hostID a.metricName a.timestamp := fun eq => same eq.symm
      simp [addAlert, Function.update_of_ne other, same]

theorem hasAlert_iff_key (b : Bloom) (size : Nat) (alerts : List Alert) (hostID metricName : GoString)
    (t : Int) : ((newAlertFilter b size).addAlerts alerts).hasAlert hostID metricName t = true ↔
      ∃ a ∈ alerts, a.key = generateAlertKey hostID metricName t := by
  have mem := addAlerts_alertKeys (newAlertFilter b size) alerts (generateAlertKey hostID metricName t)
  rw [hasAlert]
  constructor
  · intro found
    split at found
    · cases found
    · exact (mem.mp found).resolve_left Bool.false_ne_true
  · rintro ⟨a, added, same⟩
    have suspected : b.testString ((newAlertFilter b size).addAlerts alerts).filter
        (generateAlertKey hostID metricName t) = true := by
      obtain ⟨before, later, rfl⟩ := append_of_mem added
      rw [addAlerts_filter, map_append, map_cons, foldl_append, foldl_cons, same]
      exact b.no_false_negatives _ _ _
    simp only [suspected, Bool.not_true, Bool.false_eq_true, if_false]
    exact mem.mpr (.inr ⟨a, added, same⟩)

/-- The answer is right exactly when such an alert was added, or none was added in this hour for a
    host and a metric that make the same text. -/
theorem hasAlert_right_iff (b : Bloom) (size : Nat) (alerts : List Alert) (hostID metricName : GoString)
    (t : Int) :
    (((newAlertFilter b size).addAlerts alerts).hasAlert hostID metricName t = true ↔
      ∃ a ∈ alerts, a.Matches hostID metricName t) ↔
    (∃ a ∈ alerts, a.Matches hostID metricName t) ∨
      ∀ a ∈ alerts, a.hostID ++ ascii ":" ++ a.metricName = hostID ++ ascii ":" ++ metricName →
        a.timestamp / 3600 ≠ t.tdiv 3600 := by
  rw [hasAlert_iff_key]
  constructor
  · intro right
    refine or_iff_not_imp_left.mpr fun absent a added text hour => absent (right.mp ⟨a, added, ?_⟩)
    exact generateAlertKey_eq_iff.mpr ⟨text, by rw [Int.tdiv_eq_ediv_of_nonneg a.nonneg, hour]⟩
  · intro condition
    refine ⟨?_, ?_⟩
    · rintro ⟨a, added, same⟩
      rcases condition with found | apart
      · exact found
      · obtain ⟨text, hour⟩ := generateAlertKey_eq_iff.mp same
        rw [Int.tdiv_eq_ediv_of_nonneg a.nonneg] at hour
        exact absurd hour (apart a added text)
    · rintro ⟨a, added, same⟩
      exact ⟨a, added, same.key⟩

/-- A filter without false positives. -/
def exactBloom : Bloom where
  State := List GoString
  new := fun _ _ => []
  addString := fun keys key => key :: keys
  testString := fun keys key => keys.contains key
  no_false_negatives := by
    intro keys key later
    have kept : ∀ keys : List GoString, key ∈ keys →
        key ∈ List.foldl (fun keys key => key :: keys) keys later := by
      induction later with
      | nil => exact fun _ member => member
      | cons k later ih => exact fun keys member => ih _ (mem_cons_of_mem k member)
    exact contains_iff_mem.mpr (kept _ mem_cons_self)

/-- An alert for the metric `c` of the host `a:b` counts as one for the metric `b:c` of the host `a`. -/
theorem hasAlert_mistaken :
    ((newAlertFilter exactBloom 1000).addAlerts [⟨ascii "a:b", ascii "c", 7200, by decide⟩]).hasAlert
        (ascii "a") (ascii "b:c") 7205 = true ∧
      ¬ ∃ a ∈ [(⟨ascii "a:b", ascii "c", 7200, by decide⟩ : Alert)], a.Matches (ascii "a") (ascii "b:c") 7205 := by
  refine ⟨by decide +kernel, ?_⟩
  rintro ⟨a, added, host, _⟩
  obtain rfl := mem_singleton.mp added
  exact absurd host (by decide)

end AlertFilter

end Monitor.Alerts
