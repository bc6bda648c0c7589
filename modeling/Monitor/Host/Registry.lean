import Monitor.Analysis.Aggregators
import Monitor.Lib.GoMap
import Monitor.Lib.Utf8

/-! # Host registry and health checks

The functions of `registry.go`, `health.go` and `manager.go` that read or write the state of
a host. Times are in nanoseconds and given by the caller.
-/

namespace Monitor.Host

open GoText
open Analysis (timeSub)

def text (s : String) : GoString := Utf8.encode (s.toList.map (·.toNat))

inductive HostState where
  | unknown
  | healthy
  | unhealthy
  | offline
  | maintenance
  deriving DecidableEq, Repr

/-- `F` is the type of the usage figures. -/
structure HostLoad (F : Type) where
  cpuUsage : F
  memoryUsage : F
  diskUsage : F

structure HostInfo (F : Type) where
  state : HostState
  lastHeartbeat : Int
  lastCheck : Int
  load : HostLoad F

structure HostRegistry (F : Type) where
  hosts : List (GoString × HostInfo F)
  offlineTimeout : Int

variable {hostID : GoString} {other : GoString}

namespace HostRegistry

variable {F : Type}

def getHost (r : HostRegistry F) (hostID : GoString) : Option (HostInfo F) := GoMap.get hostID r.hosts

def stateOf (r : HostRegistry F) (hostID : GoString) : Option HostState :=
  (r.getHost hostID).map (·.state)

def registerHost (r : HostRegistry F) (hostID : GoString) (host : HostInfo F) (now : Int) :
    HostRegistry F :=
  let registered := (r.getHost hostID).getD host
  { r with hosts := GoMap.set hostID { registered with lastHeartbeat := now, state := .healthy } r.hosts }

/-- What the `Update` functions share: an unknown host is an error. -/
def update (r : HostRegistry F) (hostID : GoString) (change : HostInfo F → HostInfo F) :
    Except GoString (HostRegistry F) :=
  match r.getHost hostID with
  | none => .error (text "主机 " ++ hostID ++ text " 不存在")
  | some host => .ok { r with hosts := GoMap.set hostID (change host) r.hosts }

def updateHeartbeat (r : HostRegistry F) (hostID : GoString) (now : Int) :
    Except GoString (HostRegistry F) :=
  r.update hostID fun host =>
    { host with
      lastHeartbeat := now
      state := if host.state = .offline then .healthy else host.state }

def updateHostState (r : HostRegistry F) (hostID : GoString) (state : HostState) (now : Int) :
    Except GoString (HostRegistry F) :=
  r.update hostID fun host => { host with state := state, lastCheck := now }

def updateHostLoad (r : HostRegistry F) (hostID : GoString) (load : HostLoad F) (now : Int) :
    Except GoString (HostRegistry F) :=
  r.update hostID fun host => { host with load := load, lastCheck := now }

def timedOut (r : HostRegistry F) (now : Int) (host : HostInfo F) : Bool :=
  r.offlineTimeout < timeSub now host.lastHeartbeat

def checkHostsHealth (r : HostRegistry F) (now : Int) : HostRegistry F :=
  { r with hosts := r.hosts.map fun entry =>
      (entry.1, if r.timedOut now entry.2 then { entry.2 with state := .offline } else entry.2) }

/-- `SetHostMaintenance` of the manager. -/
def setHostMaintenance (r : HostRegistry F) (hostID : GoString) (maintenance : Bool) (now : Int) :
    Except GoString (HostRegistry F) :=
  r.updateHostState hostID (if maintenance then .maintenance else .healthy) now

variable {r r' : HostRegistry F} {change : HostInfo F → HostInfo F}

theorem update_ok
    (ok : r.update hostID change = .ok r') : ∃ host, r.getHost hostID = some host ∧
      r' = { r with hosts := GoMap.set hostID (change host) r.hosts } := by
  unfold update at ok
  split at ok
  · cases ok
  · rename_i host found
    cases ok
    exact ⟨host, found, rfl⟩

theorem stateOf_set (r : HostRegistry F) (hostID other : GoString) (host : HostInfo F) :
    stateOf { r with hosts := GoMap.set hostID host r.hosts } other =
      if hostID = other then some host.state else r.stateOf other := by
  unfold stateOf getHost
  simp only [GoMap.get_set]
  split <;> rfl

theorem stateOf_update
    (ok : r.update hostID change = .ok r') (other : GoString) : r'.stateOf other =
      if hostID = other then (r.getHost other).map (fun host => (change host).state)
      else r.stateOf other := by
  obtain ⟨host, found, rfl⟩ := update_ok ok
  simp only [stateOf_set]
  split
  · rename_i same
    subst same
    simp [found]
  · rfl

theorem stateOf_update_maintenance (ok : r.update hostID change = .ok r')
    (keeps : ∀ host, host.state = .maintenance → (change host).state = .maintenance) (held : r.stateOf other = some .maintenance) :
    r'.stateOf other = some .maintenance := by
  simp only [stateOf_update ok]
  split
  · obtain ⟨host, found, state⟩ := Option.map_eq_some_iff.mp held
    simp only [found, Option.map_some, keeps host state]
  · exact held

theorem getHost_checkHostsHealth (r : HostRegistry F) (now : Int) (hostID : GoString) :
    (r.checkHostsHealth now).getHost hostID = (r.getHost hostID).map fun host =>
      if r.timedOut now host then { host with state := .offline } else host := by
  unfold getHost checkHostsHealth
  induction r.hosts with
  | nil => rfl
  | cons entry hosts ih =>
    simp only [List.map_cons, GoMap.get_cons]
    split
    · rfl
    · exact ih

end HostRegistry

/-- What one check of a host comes to; a check knows no other states. -/
structure Verdict where
  newState : HostState
  message : GoString
  binary : newState = .healthy ∨ newState = .unhealthy

structure HealthEvent where
  hostID : GoString
  oldState : HostState
  newState : HostState
  message : GoString

/-- The thresholds of the configuration; without the map nothing is checked. -/
structure HealthMonitor (F : Type) where
  alertThresholds : Option (List (GoString × F))

namespace HealthMonitor

variable {F : Type} [LT F] [DecidableLT F]

def exceeds (thresholds : List (GoString × F)) (key : String) (usage : F) : Bool :=
  match GoMap.get (ascii key) thresholds with
  | none => false
  | some threshold => threshold < usage

def isOverThreshold (m : HealthMonitor F) (host : HostInfo F) : Bool :=
  match m.alertThresholds with
  | none => false
  | some thresholds =>
    exceeds thresholds "cpu" host.load.cpuUsage || exceeds thresholds "memory" host.load.memoryUsage ||
      exceeds thresholds "disk" host.load.diskUsage

/-- The first part of `checkHost`: `probes` has the checkers in the order of the loop, with what
    each would say; the loop ends at the first that fails. -/
def judge (m : HealthMonitor F) (host : HostInfo F) (probes : List (GoString × Bool)) : Verdict :=
  if m.isOverThreshold host then
    ⟨.unhealthy, text "负载超过阈值", .inr rfl⟩
  else
    match probes.find? (!·.2) with
    | some (name, _) => ⟨.unhealthy, text "健康检查失败: " ++ name, .inr rfl⟩
    | none => ⟨.healthy, [], .inl rfl⟩

end HealthMonitor

/-- The end of `checkHost`. -/
def Verdict.report {F : Type} (v : Verdict) (r : HostRegistry F) (hostID : GoString)
    (oldState : HostState) (now : Int) : HostRegistry F × Option HealthEvent :=
  if v.newState ≠ oldState then
    match r.updateHostState hostID v.newState now with
    | .error _ => (r, none)
    | .ok r' => (r', some ⟨hostID, oldState, v.newState, v.message⟩)
  else
    (r, none)

theorem Verdict.report_maintenance {F : Type} (v : Verdict) {r : HostRegistry F}
    (oldState : HostState) (now : Int) (held : r.stateOf other = some .maintenance) :
    (v.report r hostID oldState now).1.stateOf other = some .maintenance ↔
      (hostID = other → v.newState = oldState) := by
  unfold Verdict.report
  by_cases same : v.newState = oldState
  · simp [same, held]
  · simp only [if_pos same, same, imp_false]
    have neither : v.newState ≠ .maintenance := by
      cases v.binary with
      | inl healthy => simp [healthy]
      | inr unhealthy => simp [unhealthy]
    cases written : r.updateHostState hostID v.newState now with
    | error message =>
      have missing : hostID ≠ other := by
        intro equal
        subst equal
        obtain ⟨host, found, _⟩ := Option.map_eq_some_iff.mp held
        simp [HostRegistry.updateHostState, HostRegistry.update, found] at written
      simp [held, missing]
    | ok r' =>
      obtain ⟨host, _, rfl⟩ := HostRegistry.update_ok written
      simp only [HostRegistry.stateOf_set]
      by_cases mine : hostID = other
      · simp [mine, neither]
      · simp [mine, held]

end Monitor.Host
