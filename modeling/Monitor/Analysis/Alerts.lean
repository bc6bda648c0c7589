import Monitor.Analysis.Aggregators

/-! # Alerts for the newest record

`CheckAlerts` of `analyzer.go`. It looks at the last record in the cache of a host and takes it for
the newest one, but the cache has the records in the order in which they were added. The rules and
the hosts are gone through in the order of a map: the rules are a list in any order, and the hosts
have an order for each rule.
-/

namespace Monitor.Analysis

open GoText List Function

/-- `AlertRule`, without the duration and the metadata, which are not looked at. -/
structure AlertRule (R : Type) where
  id : GoString
  name : GoString
  metric : GoString
  condition : GoString
  threshold : R
  severity : GoString
  enabled : Bool

structure Alert (R : Type) where
  id : GoString
  ruleID : GoString
  ruleName : GoString
  hostID : GoString
  metric : GoString
  value : R
  threshold : R
  severity : GoString
  message : GoString
  timestamp : Int
  status : GoString

section Rules

variable {R : Type} [LinearOrder R]

def evaluateCondition (value : R) (condition : GoString) (threshold : R) : Bool :=
  if condition = ascii ">" then decide (value > threshold)
  else if condition = ascii ">=" then decide (value ≥ threshold)
  else if condition = ascii "<" then decide (value < threshold)
  else if condition = ascii "<=" then decide (value ≤ threshold)
  else if condition = ascii "==" then decide (value = threshold)
  else if condition = ascii "!=" then decide (value ≠ threshold)
  else false

def AlertRule.meets (rule : AlertRule R) (metric : Metric R) : Bool :=
  metric.name = rule.metric && evaluateCondition metric.value rule.condition rule.threshold

def AlertRule.met (rule : AlertRule R) (d : MetricsData R) : List R :=
  (d.metrics.filter rule.meets).map (·.value)

/-- The alert of a rule; `format` prints a number with two digits after the point, and `now` is the
    time in seconds. -/
def AlertRule.alert (format : R → GoString) (now : Int) (rule : AlertRule R) (hostID : GoString)
    (metric : Metric R) : Alert R where
  id := rule.id ++ ascii "-" ++ hostID ++ ascii "-" ++ itoa now
  ruleID := rule.id
  ruleName := rule.name
  hostID := hostID
  metric := rule.metric
  value := metric.value
  threshold := rule.threshold
  severity := rule.severity
  message := rule.metric ++ ascii " " ++ rule.condition ++ ascii " " ++ format metric.value ++
    ascii " (threshold: " ++ format rule.threshold ++ ascii ")"
  timestamp := now
  status := ascii "active"

end Rules

section Checking

variable {R : Type}

/-- The orders in which the hosts are gone through: each host with records comes once. -/
structure HostOrder (dataCache : GoString → List (MetricsData R)) where
  hosts : AlertRule R → List GoString
  nodup : ∀ rule, (hosts rule).Nodup
  complete : ∀ rule host, dataCache host ≠ [] → host ∈ hosts rule

/-- The rule, the metric and the value of the alerts for a host. -/
def raised (host : GoString) (alerts : List (Alert R)) : List (GoString × GoString × R) :=
  (alerts.filter (·.hostID = host)).map fun alert => (alert.ruleID, alert.metric, alert.value)

variable [LinearOrder R]

def hostAlerts (format : R → GoString) (now : Int) (rule : AlertRule R) (hostID : GoString)
    (data : List (MetricsData R)) : List (Alert R) :=
  match data.getLast? with
  | none => []
  | some latestData => (latestData.metrics.filter rule.meets).map (rule.alert format now hostID)

def checkAlerts (format : R → GoString) (now : Int) (rules : List (AlertRule R))
    {dataCache : GoString → List (MetricsData R)} (order : HostOrder dataCache) : List (Alert R) :=
  rules.flatMap fun rule =>
    if !rule.enabled then
      []
    else
      (order.hosts rule).flatMap fun hostID => hostAlerts format now rule hostID (dataCache hostID)

def AlertRule.findings (rule : AlertRule R) (d : MetricsData R) : List (GoString × GoString × R) :=
  if rule.enabled then (rule.met d).map fun value => (rule.id, rule.metric, value) else []

def findings (rules : List (AlertRule R)) (d : MetricsData R) : List (GoString × GoString × R) :=
  rules.flatMap fun rule => rule.findings d

theorem flatMap_keyed {α β γ : Type} [DecidableEq β] (key : α → β) {l : List α} (distinct : (l.map key).Nodup)
    {a : α} (mem : a ∈ l) (f : α → List γ) : (l.flatMap fun x => if key x = key a then f x else []) =
    f a := by
  induction l with
  | nil => cases mem
  | cons x l ih =>
    obtain ⟨new, later⟩ := nodup_cons.mp distinct
    rw [flatMap_cons]
    cases mem_cons.mp mem with
    | inl here =>
      subst here
      have others : (l.flatMap fun x => if key x = key a then f x else []) = [] := by
        refine flatMap_eq_nil_iff.mpr fun y lt => if_neg fun same => new ?_
        exact mem_map.mpr ⟨y, lt, same⟩
      rw [if_pos rfl, others, append_nil]
    | inr lt =>
      have other : key x ≠ key a := fun same => new (mem_map.mpr ⟨a, lt, same.symm⟩)
      rw [if_neg other, nil_append, ih later lt]

theorem raised_hostAlerts (format : R → GoString) (now : Int) {rule : AlertRule R}
    (enabled : rule.enabled = true) (host hostID : GoString) (data : List (MetricsData R)) :
    raised host (hostAlerts format now rule hostID data) =
      if hostID = host then data.getLast?.elim [] rule.findings else [] := by
  cases last : data.getLast? with
  | none => simp [raised, hostAlerts, last]
  | some d =>
    by_cases own : hostID = host
    · simp [raised, hostAlerts, last, own, enabled, AlertRule.alert, AlertRule.met, AlertRule.findings,
        filter_map, comp_def]
    · simp [raised, hostAlerts, last, own, AlertRule.alert, filter_map, comp_def]

theorem raised_checkAlerts (format : R → GoString) (now : Int) (rules : List (AlertRule R))
    {dataCache : GoString → List (MetricsData R)} (order : HostOrder dataCache) {host : GoString}
    {last : MetricsData R} (cached : (dataCache host).getLast? = some last) :
    raised host (checkAlerts format now rules order) = findings rules last := by
  have byRule : raised host (checkAlerts format now rules order) = rules.flatMap fun rule =>
      raised host (if !rule.enabled then [] else
        (order.hosts rule).flatMap fun hostID => hostAlerts format now rule hostID (dataCache hostID)) := by
    simp only [raised, checkAlerts, filter_flatMap, map_flatMap]
  rw [byRule, findings]
  refine congrArg (List.flatMap · rules) (funext fun rule => ?_)
  cases enabled : rule.enabled with
  | false => simp [raised, AlertRule.findings, enabled]
  | true =>
    have known : host ∈ order.hosts rule := by
      refine order.complete rule host fun none => ?_
      simp [none] at cached
    have byHost : raised host ((order.hosts rule).flatMap fun hostID =>
        hostAlerts format now rule hostID (dataCache hostID)) =
        (order.hosts rule).flatMap fun hostID =>
          if hostID = host then (dataCache hostID).getLast?.elim [] rule.findings else [] := by
      simp only [← raised_hostAlerts format now enabled, raised, filter_flatMap, map_flatMap]
    have single := flatMap_keyed id (by simpa using order.nodup rule) known
      fun hostID => (dataCache hostID).getLast?.elim [] rule.findings
    simp only [Bool.not_true, Bool.false_eq_true, if_false]
    rw [byHost]
    simpa [cached] using single

theorem AlertRule.findings_id (rule : AlertRule R) {d : MetricsData R} {entry : GoString × GoString × R}
    (mem : entry ∈ rule.findings d) : entry.1 = rule.id := by
  rw [findings] at mem
  split at mem
  · obtain ⟨value, _, same⟩ := mem_map.mp mem
    rw [← same]
  · cases mem

theorem findings_perm_iff {rules : List (AlertRule R)} (distinct : (rules.map (·.id)).Nodup)
    (d e : MetricsData R) : (findings rules d).Perm (findings rules e) ↔
      ∀ rule ∈ rules, rule.enabled = true → (rule.met d).Perm (rule.met e) := by
  constructor
  · intro same rule mem enabled
    have own : ∀ d, (findings rules d).filter (·.1 = rule.id) = rule.findings d := by
      intro d
      have part : ∀ rule' : AlertRule R, (rule'.findings d).filter (·.1 = rule.id) =
          if rule'.id = rule.id then rule'.findings d else [] := by
        intro rule'
        by_cases here : rule'.id = rule.id
        · rw [if_pos here]
          exact filter_eq_self.mpr fun entry lt => by simp [rule'.findings_id lt, here]
        · rw [if_neg here]
          exact filter_eq_nil_iff.mpr fun entry lt => by simp [rule'.findings_id lt, here]
      rw [findings, filter_flatMap]
      simp only [part]
      exact flatMap_keyed (·.id) distinct mem fun rule => rule.findings d
    have values : ∀ d, ((findings rules d).filter (·.1 = rule.id)).map (·.2.2) = rule.met d := by
      intro d
      rw [own d]
      simp [AlertRule.findings, enabled, comp_def]
    rw [← values d, ← values e]
    exact (same.filter _).map _
  · intro each
    refine List.Perm.flatMap_left rules fun rule mem => ?_
    cases enabled : rule.enabled with
    | false => simp [AlertRule.findings, enabled]
    | true =>
      simp only [AlertRule.findings, enabled, if_true]
      exact (each rule mem enabled).map _

end Checking

section Receiving

variable {R : Type} [Field R] [LinearOrder R]

def recordsOf (host : GoString) (received : List (MetricsData R)) : List (MetricsData R) :=
  received.filter (·.hostID = host)

theorem dataCache_received {a : Analyzer R} {host : GoString} (empty : a.dataCache host = [])
    {received : List (MetricsData R)} (few : (recordsOf host received).length ≤ Analyzer.maxCacheSize) :
    (received.foldl Analyzer.addData a).dataCache host = recordsOf host received := by
  induction received using List.reverseRecOn with
  | nil => exact empty
  | append_singleton received d ih =>
    rw [foldl_append, foldl_cons, foldl_nil]
    by_cases own : d.hostID = host
    · have grown : recordsOf host (received ++ [d]) = recordsOf host received ++ [d] := by
        simp [recordsOf, own]
      rw [grown] at few ⊢
      have before := ih (by simp at few; omega)
      subst own
      simp only [Analyzer.addData, before, update_self]
      rw [if_neg (Nat.not_lt.mpr few)]
    · have same : recordsOf host (received ++ [d]) = recordsOf host received := by
        simp [recordsOf, own]
      rw [same] at few ⊢
      change update _ _ _ host = _
      rw [update_of_ne (Ne.symm own), ih few]

/-- A record with the greatest time; with distinct times there is only one. -/
def Newest (records : List (MetricsData R)) (newest : MetricsData R) : Prop :=
  newest ∈ records ∧ ∀ d ∈ records, d.timestamp ≤ newest.timestamp

/-- For all rules and all records that arrive, no more of a host than the cache holds: the alerts for the
    host are those of its newest record exactly when each enabled rule is met by the same values in the
    record that arrived last and in the newest one. -/
theorem raised_newest_iff (format : R → GoString) (now : Int) {rules : List (AlertRule R)}
    (ids : (rules.map (·.id)).Nodup) {a : Analyzer R} {host : GoString} (empty : a.dataCache host = [])
    {received : List (MetricsData R)} (few : (recordsOf host received).length ≤ Analyzer.maxCacheSize)
    {last : MetricsData R} (arrivedLast : (recordsOf host received).getLast? = some last)
    (order : HostOrder (received.foldl Analyzer.addData a).dataCache) :
    ∀ newest, Newest (recordsOf host received) newest →
      ((raised host (checkAlerts format now rules order)).Perm (findings rules newest) ↔
        ∀ rule ∈ rules, rule.enabled = true → (rule.met last).Perm (rule.met newest)) := by
  intro newest _
  have cached : ((received.foldl Analyzer.addData a).dataCache host).getLast? = some last := by
    rw [dataCache_received empty few, arrivedLast]
  rw [raised_checkAlerts format now rules order cached, findings_perm_iff ids]

end Receiving

def cpuHigh : AlertRule ℚ where
  id := ascii "cpu-high"
  name := ascii "CPU"
  metric := ascii "cpu_usage"
  condition := ascii ">"
  threshold := 80
  severity := ascii "warning"
  enabled := true

def usage (timestamp : Int) (value : ℚ) : MetricsData ℚ where
  hostID := ascii "host-1"
  timestamp := timestamp
  metrics := [⟨ascii "cpu_usage", value, ascii "%"⟩]

def emptyCache : Analyzer ℚ := ⟨fun _ => [], []⟩

/-- The hosts are gone through in the order in which they sent something. -/
def arrivalOrder (received : List (MetricsData ℚ)) :
    HostOrder (received.foldl Analyzer.addData emptyCache).dataCache where
  hosts _ := (received.map (·.hostID)).dedup
  nodup _ := nodup_dedup _
  complete _ host known := by
    by_contra absent
    have nothing : recordsOf host received = [] := by
      refine filter_eq_nil_iff.mpr fun d member own => absent ?_
      exact mem_dedup.mpr (mem_map.mpr ⟨d, member, by simpa using own⟩)
    have few : (recordsOf host received).length ≤ Analyzer.maxCacheSize := by simp [nothing]
    exact known ((dataCache_received (a := emptyCache) rfl few).trans nothing)

theorem raised_newest_iff_inOrder :
    Newest (recordsOf (ascii "host-1") [usage 1 95, usage 2 90]) (usage 2 90) ∧
      (raised (ascii "host-1") (checkAlerts (fun _ => []) 0 [cpuHigh]
        (arrivalOrder [usage 1 95, usage 2 90]))).Perm (findings [cpuHigh] (usage 2 90)) := by
  have newest : Newest (recordsOf (ascii "host-1") [usage 1 95, usage 2 90]) (usage 2 90) := by
    refine ⟨by simp [recordsOf, usage], fun d member => ?_⟩
    cases mem_cons.mp (mem_of_mem_filter member) with
    | inl first => simp [first, usage]
    | inr second => simp [mem_singleton.mp second]
  have ids : ([cpuHigh].map (·.id)).Nodup := nodup_singleton _
  exact ⟨newest, (raised_newest_iff _ 0 ids rfl (by decide) rfl (arrivalOrder [usage 1 95, usage 2 90])
    (usage 2 90) newest).mpr fun _ _ _ => .refl _⟩

/-- The newer record arrives before the older one, which is then taken for the newest. -/
theorem lateRecord_raises :
    Newest (recordsOf (ascii "host-1") [usage 2 10, usage 1 95]) (usage 2 10) ∧
    ∀ (format : ℚ → GoString) (now : Int),
      raised (ascii "host-1") (checkAlerts format now [cpuHigh] (arrivalOrder [usage 1 95, usage 2 10])) =
      [] ∧
      raised (ascii "host-1") (checkAlerts format now [cpuHigh] (arrivalOrder [usage 2 10, usage 1 95])) =
        [(ascii "cpu-high", ascii "cpu_usage", 95)] ∧
      findings [cpuHigh] (usage 2 10) = [] := by
  have silent : findings [cpuHigh] (usage 2 10) = [] := by decide +kernel
  have loud : findings [cpuHigh] (usage 1 95) = [(ascii "cpu-high", ascii "cpu_usage", 95)] :=
    by decide +kernel
  refine ⟨⟨by simp [recordsOf, usage], fun d member => ?_⟩, fun format now => ⟨?_, ?_, silent⟩⟩
  · cases mem_cons.mp (mem_of_mem_filter member) with
    | inl first => simp [first]
    | inr second => simp [mem_singleton.mp second, usage]
  · exact (raised_checkAlerts format now [cpuHigh] (arrivalOrder [usage 1 95, usage 2 10]) rfl).trans silent
  · exact (raised_checkAlerts format now [cpuHigh] (arrivalOrder [usage 2 10, usage 1 95]) rfl).trans loud

end Monitor.Analysis
