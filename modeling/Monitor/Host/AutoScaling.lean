import Monitor.Host.Scaling

/-! # Automatic scaling

One round of `checkScaling` of `manager.go`: the load score, the decision and its execution. A
decision by load keeps to the bounds of the configuration. A time rule has bounds of its own
instead, and the cost analysis has none, so at a bound both go one host beyond it. `F` is the
type of the figures, with whatever arithmetic it has.
-/

namespace Monitor.Host

open GoText List GoMap HostRegistry
open Analysis (timeSub)

/-- The actions of rules and decisions; a text that is none of them does nothing. -/
inductive Action where
  | none
  | scaleUp
  | scaleDown
  | other (text : GoString)
  deriving DecidableEq

structure TimeBasedRule where
  name : GoString
  startTime : GoString
  endTime : GoString
  daysOfWeek : List Int
  minHosts : Int
  maxHosts : Int
  action : Action

structure ResourceWeights (F : Type) where
  cpu : F
  memory : F
  disk : F
  network : F
  custom : F

structure ScalingConfig (F : Type) where
  scaleUpThreshold : F
  scaleDownThreshold : F
  cooldownPeriod : Int
  scaleStep : Int
  scaleStrategy : GoString
  resourceWeights : ResourceWeights F
  timeBasedRules : List TimeBasedRule
  minHosts : Int
  maxHosts : Int

structure CostConfig (F : Type) where
  enableCostOptimization : Bool
  costPerHostHour : F
  budgetLimit : F

structure ResourceMetrics (F : Type) where
  cpuUsage : F
  memoryUsage : F
  diskUsage : F
  networkUsage : F
  activeConnections : Int

structure ScalingDecision where
  action : Action
  reason : GoString
  targetCount : Int
  priority : Int

structure ScaleEvent where
  decision : ScalingDecision
  timestamp : Int
  err : Option GoString

inductive ScalingNotice where
  | hostRemoved (hostID : GoString)
  | scalingEvent (decision : ScalingDecision) (success : Bool)

/-- A reading of the clock: the time, its weekday, and its hour and minute in the form `15:04`. -/
structure Reading where
  now : Int
  weekday : Int
  currentTime : GoString

/-- The fields of `HostManager` that a round uses; `history` is that of the predictor. -/
structure AutoScaler (F : Type) where
  registry : HostRegistry F
  config : ScalingConfig F
  costAnalyzer : Option (CostConfig F)
  resourceMetrics : ResourceMetrics F
  history : List F
  lastScaleAction : Int
  scaleHistory : List ScaleEvent
  sent : List ScalingNotice

def ScalingDecision.idle : ScalingDecision := ⟨.none, [], 0, 0⟩

def TimeBasedRule.matches (rule : TimeBasedRule) (t : Reading) : Bool :=
  rule.daysOfWeek.contains t.weekday && !before t.currentTime rule.startTime &&
    !before rule.endTime t.currentTime

def getRuleTargetCount (rule : TimeBasedRule) (currentCount : Int) : Int :=
  match rule.action with
  | .scaleUp => if currentCount < rule.maxHosts then min (currentCount + 1) rule.maxHosts else currentCount
  | .scaleDown => if rule.minHosts < currentCount then max (currentCount - 1) rule.minHosts else currentCount
  | .none | .other _ => currentCount

section Figures

variable {F : Type} [Add F] [Mul F] [Div F] [LT F] [DecidableLT F] [IntCast F]

def hundred (F : Type) [IntCast F] : F := ((100 : Int) : F)

def calculateLoadScore (weights : ResourceWeights F) (metrics : ResourceMetrics F) (healthyCount : Int) : F :=
  if healthyCount = 0 then
    hundred F
  else
    let cpuScore := metrics.cpuUsage / hundred F * weights.cpu
    let memoryScore := metrics.memoryUsage / hundred F * weights.memory
    let diskScore := metrics.diskUsage / hundred F * weights.disk
    let networkScore := metrics.networkUsage / hundred F * weights.network
    let densityScore := (metrics.activeConnections : F) / ((healthyCount * 1000 : Int) : F)
    let totalScore := cpuScore + memoryScore + diskScore + networkScore + densityScore * weights.custom
    if hundred F < totalScore then hundred F else totalScore

def predictLoad (history : List F) : F :=
  if history.isEmpty then ((0 : Int) : F)
  else history.foldl (· + ·) ((0 : Int) : F) / ((history.length : Int) : F)

def CostConfig.optimizeCost (c : CostConfig F) (hostCount : Int) : ScalingDecision :=
  if c.enableCostOptimization then
    if c.budgetLimit < (hostCount : F) * c.costPerHostHour then
      ⟨.scaleDown, ascii "cost_optimization", hostCount - 1, 5⟩
    else
      .idle
  else
    .idle

end Figures

namespace AutoScaler

variable {F : Type} [Zero F] [Add F] [Mul F] [Div F] [Max F] [LT F] [DecidableLT F] [IntCast F]

/-- The rule that `checkTimeBasedRules` finds. -/
def activeRule (m : AutoScaler F) (t : Reading) : Option TimeBasedRule :=
  m.config.timeBasedRules.find? (·.matches t)

def checkTimeBasedRules (m : AutoScaler F) (t : Reading) : ScalingDecision :=
  match m.activeRule t with
  | none => .idle
  | some rule =>
    ⟨rule.action, ascii "time_based_rule:" ++ rule.name, getRuleTargetCount rule m.registry.getHostCount, 10⟩

/-- The decision by load; the second condition overrides the first. -/
def loadDecision (m : AutoScaler F) (currentLoad : F) (hostCount healthyCount : Int) : ScalingDecision :=
  let decision := ScalingDecision.idle
  let decision :=
    if m.config.scaleUpThreshold < currentLoad ∧ hostCount < m.config.maxHosts then
      { decision with
        action := .scaleUp
        reason := ascii "high_load"
        targetCount := min (wrap64 (hostCount + m.config.scaleStep)) m.config.maxHosts }
    else
      decision
  if currentLoad < m.config.scaleDownThreshold ∧ m.config.minHosts < hostCount ∧
      m.config.minHosts < healthyCount then
    { decision with
      action := .scaleDown
      reason := ascii "low_load"
      targetCount := max (wrap64 (hostCount - m.config.scaleStep)) m.config.minHosts }
  else
    decision

/-- What the cost analysis wants, if it is asked. -/
def costDecision (m : AutoScaler F) (hostCount : Int) : ScalingDecision :=
  match m.costAnalyzer with
  | some c => if m.config.scaleStrategy = ascii "cost_optimized" then c.optimizeCost hostCount else .idle
  | none => .idle

def makeScalingDecision (m : AutoScaler F) (t : Reading) (loadScore predictedLoad : F)
    (hostCount healthyCount : Int) : ScalingDecision :=
  if timeSub t.now m.lastScaleAction < m.config.cooldownPeriod then
    .idle
  else
    let timeBasedDecision := m.checkTimeBasedRules t
    if timeBasedDecision.action ≠ .none then
      timeBasedDecision
    else
      let decision := m.loadDecision (max loadScore predictedLoad) hostCount healthyCount
      let costDecision := m.costDecision hostCount
      if costDecision.action ≠ .none then costDecision else decision

def perform (m : AutoScaler F) (decision : ScalingDecision) (clock : Int → Int) : Scaled F :=
  match decision.action with
  | .scaleUp => m.registry.performScaleUp decision.targetCount clock
  | .scaleDown => m.registry.performScaleDown decision.targetCount
  | .none | .other _ => ⟨m.registry, [], .returned none⟩

/-- `executeScaling`; `none` is a panic. -/
def executeScaling (m : AutoScaler F) (t : Reading) (clock : Int → Int) (decision : ScalingDecision) :
    Option (AutoScaler F) :=
  if decision.action = .none then
    some m
  else
    let scaled := m.perform decision clock
    match scaled.outcome with
    | .panicked => none
    | .returned err =>
      some { m with
        registry := scaled.registry
        lastScaleAction := t.now
        scaleHistory := m.scaleHistory ++ [⟨decision, t.now, err⟩]
        sent := m.sent ++ scaled.removed.map .hostRemoved ++ [.scalingEvent decision err.isNone] }

def decision (m : AutoScaler F) (t : Reading) : ScalingDecision :=
  let hostCount := m.registry.getHostCount
  let healthyCount := m.registry.healthyHosts.length
  let loadScore := calculateLoadScore m.config.resourceWeights m.resourceMetrics healthyCount
  m.makeScalingDecision t loadScore (predictLoad m.history) hostCount healthyCount

def checkScaling (m : AutoScaler F) (t : Reading) (clock : Int → Int) : Option (AutoScaler F) :=
  let scalingDecision := m.decision t
  if scalingDecision.action ≠ .none then m.executeScaling t clock scalingDecision else some m

/-- The number of hosts is within the bounds, and if a healthy host was removed there are still
    enough healthy ones. -/
structure Bounded (m : AutoScaler F) (after : HostRegistry F) : Prop where
  low : m.config.minHosts ≤ after.getHostCount
  high : after.getHostCount ≤ m.config.maxHosts
  healthy : (∃ hostID ∈ m.registry.healthyHosts, hostID ∉ GoMap.keysOf after.hosts) →
    m.config.minHosts ≤ after.healthyHosts.length

def KeepsBounds (m : AutoScaler F) (t : Reading) (clock : Int → Int) : Prop :=
  ∃ m', m.checkScaling t clock = some m' ∧ m.Bounded m'.registry

def Cooling (m : AutoScaler F) (t : Reading) : Prop :=
  timeSub t.now m.lastScaleAction < m.config.cooldownPeriod

/-- The cost analysis is asked, and finds the hosts too expensive. -/
def OverBudget (m : AutoScaler F) : Prop :=
  m.config.scaleStrategy = ascii "cost_optimized" ∧ ∃ c, m.costAnalyzer = some c ∧
    c.enableCostOptimization = true ∧
      c.budgetLimit < ((m.registry.getHostCount : Int) : F) * c.costPerHostHour

def AllHealthy (m : AutoScaler F) : Prop := ∀ entry ∈ m.registry.hosts, entry.2.state = .healthy

/-- At a bound of the configuration, neither the rule in force nor the cost analysis leads beyond it. -/
structure Restrained (m : AutoScaler F) (t : Reading) (clock : Int → Int) : Prop where
  up : ∀ rule, m.activeRule t = some rule → rule.action = .scaleUp →
    m.registry.getHostCount = m.config.maxHosts → rule.maxHosts ≤ m.config.maxHosts ∨
      HostRegistry.newHostID (clock m.config.maxHosts) m.config.maxHosts ∈ GoMap.keysOf m.registry.hosts
  down : ∀ rule, m.activeRule t = some rule → rule.action = .scaleDown →
    m.registry.getHostCount = m.config.minHosts → m.config.minHosts ≤ rule.minHosts ∨ ¬ m.AllHealthy
  cost : (∀ rule, m.activeRule t = some rule → rule.action = .none) → m.OverBudget →
    m.registry.getHostCount = m.config.minHosts → ¬ m.AllHealthy

end AutoScaler

namespace HostRegistry

variable {F : Type} {r : HostRegistry F}

variable {k : GoString}

theorem mem_keysOf_without {hostIDs : List GoString} :
    k ∈ keysOf (r.without hostIDs).hosts ↔ k ∉ hostIDs ∧ k ∈ keysOf r.hosts := by
  unfold without eraseAll
  induction hostIDs generalizing r with
  | nil => simp
  | cons hostID hostIDs ih =>
    have step := ih (r := { r with hosts := erase hostID r.hosts })
    simp only [mem_keysOf_erase] at step
    simp only [foldl_cons, step, mem_cons, not_or]
    tauto

theorem mem_keysOf_scaleUpLoop [Zero F] (clock : Int → Int) (n : Nat) (i : Int)
    (present : k ∈ keysOf r.hosts) : k ∈ keysOf (scaleUpLoop clock n i r).hosts := by
  induction n generalizing i r with
  | zero => exact present
  | succ n ih => exact ih (i + 1) (mem_keysOf_registerHost.mpr (.inr present))

theorem mem_keysOf_performScaleUp [Zero F] (targetCount : Int) (clock : Int → Int)
    (present : k ∈ keysOf r.hosts) :
    k ∈ keysOf (r.performScaleUp targetCount clock).registry.hosts := by
  unfold performScaleUp
  dsimp only
  split
  · exact present
  · exact mem_keysOf_scaleUpLoop clock _ _ present

theorem performScaleUp_returned [Zero F] (r : HostRegistry F) (targetCount : Int) (clock : Int → Int) :
    ∃ err, (r.performScaleUp targetCount clock).outcome = .returned err := by
  unfold performScaleUp
  dsimp only
  split
  · exact ⟨_, rfl⟩
  · exact ⟨_, rfl⟩

theorem performScaleUp_low [Zero F] (r : HostRegistry F) (targetCount : Int) (clock : Int → Int) :
    r.getHostCount ≤ (r.performScaleUp targetCount clock).registry.getHostCount := by
  unfold performScaleUp
  dsimp only
  split
  · exact le_rfl
  · rw [scaleUpLoop_count clock _ (by omega)]
    exact Nat.le_add_right ..

theorem performScaleUp_high [Zero F] (r : HostRegistry F) (targetCount : Int) (clock : Int → Int) :
    ((r.performScaleUp targetCount clock).registry.getHostCount : Int) ≤
      max (r.getHostCount : Int) targetCount := by
  unfold performScaleUp
  dsimp only
  split
  · exact le_max_left ..
  · have most := length_filter_le
      (fun j => decide (newHostID (clock j) j ∉ keysOf r.hosts))
      (rounds r.getHostCount (targetCount - r.getHostCount).toNat)
    have length : (rounds r.getHostCount (targetCount - r.getHostCount).toNat).length =
        (targetCount - r.getHostCount).toNat := by
      simp [rounds]
    rw [scaleUpLoop_count clock _ (by omega)]
    omega

theorem performScaleUp_one [Zero F] (r : HostRegistry F) (clock : Int → Int) :
    ((r.performScaleUp (r.getHostCount + 1) clock).registry.getHostCount : Int) ≤ r.getHostCount ↔
      newHostID (clock r.getHostCount) r.getHostCount ∈ keysOf r.hosts := by
  unfold performScaleUp
  have one : ((r.getHostCount : Int) + 1 - r.getHostCount).toNat = 0 + 1 := by omega
  simp only [if_neg (show ¬ (r.getHostCount : Int) + 1 ≤ r.getHostCount by omega), one]
  rw [scaleUpLoop_count clock _ (by omega), rounds_succ]
  by_cases taken : newHostID (clock r.getHostCount) r.getHostCount ∈ keysOf r.hosts
  · simp [taken, rounds]
  · simp [taken]

end HostRegistry

namespace AutoScaler

section Execution

variable {F : Type} [Zero F] {m : AutoScaler F} {t : Reading} {clock : Int → Int} {decision : ScalingDecision}

/-- The execution of a decision returns and keeps to the bounds. -/
def Kept (m : AutoScaler F) (clock : Int → Int) (decision : ScalingDecision) : Prop :=
  (m.perform decision clock).outcome ≠ .panicked ∧ m.Bounded (m.perform decision clock).registry

theorem executeScaling_kept_iff :
    (∃ m', m.executeScaling t clock decision = some m' ∧ m.Bounded m'.registry) ↔ m.Kept clock decision := by
  unfold executeScaling Kept
  by_cases idle : decision.action = .none
  · simp [idle, perform]
  · rw [if_neg idle]
    cases ran : (m.perform decision clock).outcome with
    | panicked => simp [ran]
    | returned err => simp [ran]

/-- The configuration and the registry that a round starts from. -/
structure Configured (m : AutoScaler F) : Prop where
  isMap : m.registry.IsMap
  nonneg : 0 ≤ m.config.minHosts
  low : m.config.minHosts ≤ m.registry.getHostCount
  high : m.registry.getHostCount ≤ m.config.maxHosts

omit [Zero F] in
theorem Configured.bounded_iff (conf : m.Configured) {after : HostRegistry F}
    (low : m.registry.getHostCount ≤ after.getHostCount)
    (kept : ∀ k ∈ keysOf m.registry.hosts, k ∈ keysOf after.hosts) :
    m.Bounded after ↔ after.getHostCount ≤ m.config.maxHosts := by
  have least := conf.low
  refine ⟨Bounded.high, fun high => ⟨by omega, high, ?_⟩⟩
  rintro ⟨hostID, healthy, gone⟩
  have present := mem_keysOf_of_filter (mem_keysOf_of_healthy healthy)
  exact absurd (kept hostID present) gone

omit [Zero F] in
theorem Configured.bounded_same (conf : m.Configured) : m.Bounded m.registry :=
  (conf.bounded_iff le_rfl fun _ => id).mpr conf.high

theorem Configured.kept_still (conf : m.Configured) (notUp : decision.action ≠ .scaleUp)
    (notDown : decision.action ≠ .scaleDown) : m.Kept clock decision := by
  unfold Kept perform
  cases action : decision.action with
  | none => exact ⟨nofun, conf.bounded_same⟩
  | scaleUp => exact absurd action notUp
  | scaleDown => exact absurd action notDown
  | other text => exact ⟨nofun, conf.bounded_same⟩

theorem Configured.kept_up_iff (conf : m.Configured) (up : decision.action = .scaleUp) :
    m.Kept clock decision ↔
      (m.registry.performScaleUp decision.targetCount clock).registry.getHostCount ≤ m.config.maxHosts := by
  obtain ⟨err, returned⟩ := m.registry.performScaleUp_returned decision.targetCount clock
  unfold Kept perform
  simp only [up, returned, ne_eq, reduceCtorEq, not_false_eq_true, true_and]
  exact conf.bounded_iff (m.registry.performScaleUp_low decision.targetCount clock)
    fun k present => mem_keysOf_performScaleUp _ _ present

theorem Configured.kept_down_iff (conf : m.Configured) (down : decision.action = .scaleDown) :
    m.Kept clock decision ↔ m.registry.healthyHosts.length ≤ decision.targetCount ∨
      m.config.minHosts ≤ decision.targetCount := by
  have nonneg := conf.nonneg
  have high := conf.high
  unfold Kept perform
  simp only [down]
  by_cases few : m.registry.healthyHosts.length ≤ decision.targetCount
  · obtain ⟨err, refused⟩ := performScaleDown_refused few
    simp only [refused]
    exact iff_of_true ⟨nofun, conf.bounded_same⟩ (.inl few)
  · by_cases negative : decision.targetCount < 0
    · simp only [performScaleDown_negative negative]
      exact iff_of_false (fun both => both.1 rfl) (by omega)
    · have count := without_count conf.isMap decision.targetCount
      have healthy := without_healthy conf.isMap decision.targetCount
      have gone := m.registry.surplus_length decision.targetCount
      have small := m.registry.healthyHosts_le
      simp only [performScaleDown_removes conf.isMap (not_lt.mp negative)
        (not_le.mp few), few, false_or]
      constructor
      · intro kept
        -- the first host of the surplus is a healthy one that is gone
        have some_gone : 0 < (m.registry.surplus decision.targetCount).length := by omega
        have first := getElem_mem some_gone
        have left := kept.2.healthy ⟨_, mem_of_mem_drop first, fun still =>
          (mem_keysOf_without.mp still).1 first⟩
        omega
      · exact fun enough => ⟨nofun, by omega, by omega, fun _ => by omega⟩

end Execution

section Decision

variable {F : Type} {m : AutoScaler F} {t : Reading} {clock : Int → Int}

theorem Configured.kept_load [Zero F] [LT F] [DecidableLT F] (conf : m.Configured)
    (currentLoad : F) :
    m.Kept clock (m.loadDecision currentLoad m.registry.getHostCount m.registry.healthyHosts.length) := by
  have high := conf.high
  unfold loadDecision
  by_cases down : currentLoad < m.config.scaleDownThreshold ∧
      m.config.minHosts < m.registry.getHostCount ∧ m.config.minHosts < m.registry.healthyHosts.length
  · rw [if_pos down]
    refine (conf.kept_down_iff rfl).mpr (.inr ?_)
    exact le_max_right ..
  · split
    · refine (conf.kept_up_iff rfl).mpr ?_
      refine (m.registry.performScaleUp_high _ clock).trans (max_le high ?_)
      exact min_le_right ..
    · exact conf.kept_still nofun nofun

theorem costDecision_cases [Mul F] [LT F] [DecidableLT F] [IntCast F] (m : AutoScaler F) :
    m.OverBudget ∧ m.costDecision m.registry.getHostCount =
        ⟨.scaleDown, ascii "cost_optimization", m.registry.getHostCount - 1, 5⟩ ∨
      ¬ m.OverBudget ∧ m.costDecision m.registry.getHostCount = .idle := by
  unfold costDecision OverBudget CostConfig.optimizeCost
  cases m.costAnalyzer with
  | none => simp
  | some c =>
    by_cases strategy : m.config.scaleStrategy = ascii "cost_optimized"
    · by_cases enabled : c.enableCostOptimization = true
      · by_cases costly : c.budgetLimit < ((m.registry.getHostCount : Int) : F) * c.costPerHostHour
        · simp [strategy, enabled, costly]
        · simp [strategy, enabled, costly]
      · simp [strategy, enabled]
    · simp [strategy]

theorem Configured.kept_less_iff [Zero F] (conf : m.Configured) {decision : ScalingDecision}
    (down : decision.action = .scaleDown) (target : decision.targetCount = m.registry.getHostCount - 1) :
    m.Kept clock decision ↔ (m.registry.getHostCount = m.config.minHosts → ¬ m.AllHealthy) := by
  have low := conf.low
  have small := m.registry.healthyHosts_le
  have all := m.registry.healthyHosts_all_iff
  rw [conf.kept_down_iff down, target, AllHealthy, ← all]
  omega

theorem Configured.kept_more_iff [Zero F] (conf : m.Configured) {decision : ScalingDecision}
    (up : decision.action = .scaleUp) (target : decision.targetCount = m.registry.getHostCount + 1) :
    m.Kept clock decision ↔ (m.registry.getHostCount = m.config.maxHosts →
      newHostID (clock m.config.maxHosts) m.config.maxHosts ∈
        keysOf m.registry.hosts) := by
  have high := conf.high
  rw [conf.kept_up_iff up, target]
  by_cases full : (m.registry.getHostCount : Int) = m.config.maxHosts
  · rw [← full, m.registry.performScaleUp_one clock]
    simp
  · have most := m.registry.performScaleUp_high (m.registry.getHostCount + 1) clock
    omega

theorem Configured.kept_rule_iff [Zero F] [Mul F] [LT F] [IntCast F] (conf : m.Configured)
    {rule : TimeBasedRule} (active : m.activeRule t = some rule) (acts : rule.action ≠ .none) :
    m.Kept clock (m.checkTimeBasedRules t) ↔ m.Restrained t clock := by
  have high := conf.high
  have rules : ∀ other, m.activeRule t = some other ↔ other = rule := by
    intro other
    rw [active, Option.some.injEq, eq_comm]
  have restrained : m.Restrained t clock ↔
      (rule.action = .scaleUp → m.registry.getHostCount = m.config.maxHosts →
        rule.maxHosts ≤ m.config.maxHosts ∨ newHostID (clock m.config.maxHosts)
          m.config.maxHosts ∈ keysOf m.registry.hosts) ∧
      (rule.action = .scaleDown → m.registry.getHostCount = m.config.minHosts →
        m.config.minHosts ≤ rule.minHosts ∨ ¬ m.AllHealthy) := by
    constructor
    · exact fun held => ⟨held.up rule active, held.down rule active⟩
    · intro both
      refine ⟨fun other found => ?_, fun other found => ?_, fun idle => absurd (idle rule active) acts⟩
      · exact (rules other).mp found ▸ both.1
      · exact (rules other).mp found ▸ both.2
  rw [restrained]
  unfold checkTimeBasedRules
  simp only [active]
  cases action : rule.action with
  | none => exact absurd action acts
  | other text => simpa using conf.kept_still (by simp) (by simp)
  | scaleUp =>
    by_cases above : (m.registry.getHostCount : Int) < rule.maxHosts
    · have target : getRuleTargetCount rule m.registry.getHostCount = m.registry.getHostCount + 1 := by
        simp only [getRuleTargetCount, action, if_pos above]
        omega
      rw [conf.kept_more_iff rfl target]
      simp only [forall_const, reduceCtorEq, false_imp_iff, and_true]
      refine forall_congr' fun full => (or_iff_right ?_).symm
      omega
    · have target : getRuleTargetCount rule m.registry.getHostCount = m.registry.getHostCount := by
        simp only [getRuleTargetCount, action, if_neg above]
      have most := m.registry.performScaleUp_high m.registry.getHostCount clock
      rw [conf.kept_up_iff rfl]
      simp only [target, forall_const, reduceCtorEq, false_imp_iff, and_true]
      exact iff_of_true (by omega) fun full => .inl (by omega)
  | scaleDown =>
    by_cases below : rule.minHosts < (m.registry.getHostCount : Int)
    · have target : getRuleTargetCount rule m.registry.getHostCount = m.registry.getHostCount - 1 := by
        simp only [getRuleTargetCount, action, if_pos below]
        omega
      rw [conf.kept_less_iff rfl target]
      simp only [forall_const, reduceCtorEq, false_imp_iff, true_and]
      refine forall_congr' fun least => (or_iff_right ?_).symm
      omega
    · have target : getRuleTargetCount rule m.registry.getHostCount = m.registry.getHostCount := by
        simp only [getRuleTargetCount, action, if_neg below]
      have small := m.registry.healthyHosts_le
      rw [conf.kept_down_iff rfl]
      simp only [target, forall_const, reduceCtorEq, false_imp_iff, true_and]
      exact iff_of_true (.inl (by omega)) fun least => .inl (by omega)

theorem Configured.kept_no_rule_iff [Zero F] [Mul F] [LT F] [DecidableLT F] [IntCast F]
    (conf : m.Configured)
    (idle : ∀ rule, m.activeRule t = some rule → rule.action = .none) (currentLoad : F) :
    m.Kept clock (if (m.costDecision m.registry.getHostCount).action ≠ .none then
        m.costDecision m.registry.getHostCount
      else m.loadDecision currentLoad m.registry.getHostCount m.registry.healthyHosts.length) ↔
      m.Restrained t clock := by
  have restrained : m.Restrained t clock ↔
      (m.OverBudget → m.registry.getHostCount = m.config.minHosts → ¬ m.AllHealthy) := by
    refine ⟨fun held => held.cost idle, fun cost => ⟨?_, ?_, fun _ => cost⟩⟩
    · intro rule active up
      simp [idle rule active] at up
    · intro rule active down
      simp [idle rule active] at down
  rw [restrained]
  obtain ⟨costly, decided⟩ | ⟨cheap, decided⟩ := m.costDecision_cases
  · rw [decided]
    simp only [ne_eq, reduceCtorEq, not_false_eq_true, if_true, costly, forall_const]
    exact conf.kept_less_iff rfl rfl
  · rw [decided]
    simp only [ScalingDecision.idle, ne_eq, not_true_eq_false, if_false, cheap, false_imp_iff, iff_true]
    exact conf.kept_load currentLoad

variable [Zero F] [Add F] [Mul F] [Div F] [Max F] [LT F] [DecidableLT F] [IntCast F]

theorem keepsBounds_iff : m.KeepsBounds t clock ↔ m.Kept clock (m.decision t) := by
  rw [← executeScaling_kept_iff (t := t)]
  unfold KeepsBounds checkScaling
  by_cases idle : (m.decision t).action = .none
  · simp [executeScaling, idle]
  · simp only [ne_eq, idle, not_false_eq_true, if_true]

/-- For every configuration and every registry within its bounds, a round keeps to the bounds exactly
    when it is in the cooldown, or at a bound neither the rule in force nor the cost analysis leads
    beyond it. -/
theorem keepsBounds_iff_restrained (configured : m.Configured) (t : Reading) (clock : Int → Int) :
    m.KeepsBounds t clock ↔ m.Cooling t ∨ m.Restrained t clock := by
  rw [keepsBounds_iff]
  unfold decision makeScalingDecision
  by_cases cooling : m.Cooling t
  · have waits : timeSub t.now m.lastScaleAction < m.config.cooldownPeriod := cooling
    simp only [waits, if_true]
    exact iff_of_true (configured.kept_still nofun nofun) (.inl cooling)
  · have ready : ¬ timeSub t.now m.lastScaleAction < m.config.cooldownPeriod := cooling
    simp only [ready, if_false, cooling, false_or]
    by_cases acts : (m.checkTimeBasedRules t).action = .none
    · simp only [acts, ne_eq, not_true_eq_false, if_false]
      refine configured.kept_no_rule_iff (fun rule active => ?_) _
      simpa [checkTimeBasedRules, active] using acts
    · simp only [ne_eq, acts, not_false_eq_true, if_true]
      cases active : m.activeRule t with
      | none => simp [checkTimeBasedRules, active, ScalingDecision.idle] at acts
      | some rule =>
        refine configured.kept_rule_iff active ?_
        simpa [checkTimeBasedRules, active] using acts

end Decision

section Example

/-- Between one and two hosts, with one rule, and with a budget for none. -/
def narrow (rule : TimeBasedRule) (hosts : List (GoString × HostInfo Int)) : AutoScaler Int where
  registry := ⟨hosts, 60⟩
  config :=
    { scaleUpThreshold := 80
      scaleDownThreshold := 20
      cooldownPeriod := 0
      scaleStep := 1
      scaleStrategy := ascii "cost_optimized"
      resourceWeights := ⟨1, 1, 1, 1, 1⟩
      timeBasedRules := [rule]
      minHosts := 1
      maxHosts := 2 }
  costAnalyzer := some ⟨true, 6, 5⟩
  resourceMetrics := ⟨50, 50, 50, 50, 10⟩
  history := []
  lastScaleAction := 0
  scaleHistory := []
  sent := []

def onMondays (action : Action) : TimeBasedRule :=
  ⟨ascii "mondays", ascii "08:00", ascii "18:00", [1], 0, 5, action⟩

def monday : Reading := ⟨1, 1, ascii "09:30"⟩

def tuesday : Reading := ⟨1, 2, ascii "09:30"⟩

def idleHost (state : HostState) : HostInfo Int := ⟨state, 0, 0, ⟨0, 0, 0⟩⟩

def oneHost : List (GoString × HostInfo Int) := [(ascii "a", idleHost .healthy)]

def twoHosts : List (GoString × HostInfo Int) :=
  [(ascii "a", idleHost .healthy), (ascii "b", idleHost .offline)]

theorem not_keepsBounds {m : AutoScaler Int} {t : Reading} {clock : Int → Int} {n : Nat}
    (count : (m.checkScaling t clock).map (·.registry.getHostCount) = some n)
    (beyond : n < m.config.minHosts ∨ m.config.maxHosts < n) : ¬ m.KeepsBounds t clock := by
  rintro ⟨m', ran, bounded⟩
  rw [ran, Option.map_some, Option.some.injEq] at count
  have low := bounded.low
  have high := bounded.high
  omega

/-- A rule with room for five hosts adds a third one; a rule that allows no host removes the last one;
    so does the budget when no rule is in force. -/
theorem bounds_exceeded :
    ((narrow (onMondays .scaleUp) twoHosts).checkScaling monday fun _ => 0).map
      (·.registry.getHostCount) = some 3 ∧
    ((narrow (onMondays .scaleDown) oneHost).checkScaling monday fun _ => 0).map
      (·.registry.getHostCount) = some 0 ∧
    ((narrow (onMondays .scaleDown) oneHost).checkScaling tuesday fun _ => 0).map
      (·.registry.getHostCount) = some 0 ∧
    ¬ (narrow (onMondays .scaleUp) twoHosts).KeepsBounds monday (fun _ => 0) ∧
    ¬ (narrow (onMondays .scaleDown) oneHost).KeepsBounds monday (fun _ => 0) ∧
    ¬ (narrow (onMondays .scaleDown) oneHost).KeepsBounds tuesday fun _ => 0 := by
  have ruleUp : ((narrow (onMondays .scaleUp) twoHosts).checkScaling monday fun _ => 0).map
      (·.registry.getHostCount) = some 3 := by decide +kernel
  have ruleDown : ((narrow (onMondays .scaleDown) oneHost).checkScaling monday fun _ => 0).map
      (·.registry.getHostCount) = some 0 := by decide +kernel
  have cost : ((narrow (onMondays .scaleDown) oneHost).checkScaling tuesday fun _ => 0).map
      (·.registry.getHostCount) = some 0 := by decide +kernel
  exact ⟨ruleUp, ruleDown, cost, not_keepsBounds ruleUp (by decide), not_keepsBounds ruleDown (by decide),
    not_keepsBounds cost (by decide)⟩

/-- The rule removes one of the two hosts. -/
theorem keepsBounds_iff_restrained_twoHosts :
    (narrow (onMondays .scaleDown) twoHosts).Configured ∧
      (narrow (onMondays .scaleDown) twoHosts).KeepsBounds monday fun _ => 0 := by
  have isMap : (narrow (onMondays .scaleDown) twoHosts).registry.IsMap := by
    unfold HostRegistry.IsMap
    decide +kernel
  have configured : (narrow (onMondays .scaleDown) twoHosts).Configured :=
    ⟨isMap, by decide, by decide, by decide⟩
  have acts : ((narrow (onMondays .scaleDown) twoHosts).activeRule monday).map (·.action) =
      some .scaleDown := by decide +kernel
  refine ⟨configured, (keepsBounds_iff_restrained configured monday fun _ => 0).mpr (.inr ⟨?_, ?_, ?_⟩)⟩
  · intro rule active up
    rw [active, Option.map_some, up] at acts
    cases acts
  · exact fun _ _ _ low => absurd low (by decide)
  · exact fun _ _ low => absurd low (by decide)

end Example

end AutoScaler

end Monitor.Host
