import Monitor.Host.Registry
import Monitor.Lib.Runs

/-! # Maintenance of a host

The loops that write the state of a host, in any order: health checks, heartbeats, the
offline sweep, registrations and the commands of the operator. A health check is three steps,
since it holds no lock between reading the state of the host, running the checkers and
writing its verdict.
-/

namespace Monitor.Host

open GoText Runs Option HostRegistry

/-- A running `checkHost`, with its verdict once the checkers have run. -/
structure Check where
  hostID : GoString
  oldState : HostState
  verdict : Option Verdict

/-- The registry and the running checks, and the hosts that the operator put into maintenance. -/
structure Operated (F : Type) where
  registry : HostRegistry F
  checks : List Check
  held : GoString → Bool

inductive OperatedEvent (F : Type) where
  | register (hostID : GoString) (host : HostInfo F) (now : Int)
  | heartbeat (hostID : GoString) (now : Int)
  | updateLoad (hostID : GoString) (load : HostLoad F) (now : Int)
  | sweep (now : Int)
  | setMaintenance (hostID : GoString) (maintenance : Bool) (now : Int)
  | checkStart (hostID : GoString)
  | checkJudge (k : Nat) (probes : List (GoString × Bool))
  | checkWrite (k : Nat) (now : Int)

namespace Operated

variable {F : Type} [LT F] [DecidableLT F]

omit [LT F] [DecidableLT F] in
/-- The registry after a call; one that returns an error has changed nothing. -/
def called (s : Operated F) : Except GoString (HostRegistry F) → Operated F
  | .error _ => s
  | .ok registry => { s with registry := registry }

def step (m : HealthMonitor F) (s : Operated F) : OperatedEvent F → Option (Operated F)
  | .register hostID host now =>
    some { s with
      registry := s.registry.registerHost hostID host now
      held := Function.update s.held hostID false }
  | .heartbeat hostID now => some (s.called (s.registry.updateHeartbeat hostID now))
  | .updateLoad hostID load now => some (s.called (s.registry.updateHostLoad hostID load now))
  | .sweep now => some { s with registry := s.registry.checkHostsHealth now }
  | .setMaintenance hostID maintenance now =>
    match s.registry.setHostMaintenance hostID maintenance now with
    | .error _ => some s
    | .ok registry =>
      some { s with registry := registry, held := Function.update s.held hostID maintenance }
  | .checkStart hostID =>
    (s.registry.getHost hostID).map fun host =>
      { s with checks := s.checks ++ [⟨hostID, host.state, none⟩] }
  | .checkJudge k probes =>
    match s.checks[k]? with
    | some ⟨hostID, oldState, none⟩ =>
      (s.registry.getHost hostID).map fun host =>
        { s with checks := s.checks.set k ⟨hostID, oldState, some (m.judge host probes)⟩ }
    | _ => none
  | .checkWrite k now =>
    match s.checks[k]? with
    | some ⟨hostID, oldState, some verdict⟩ =>
      some { s with
        registry := (verdict.report s.registry hostID oldState now).1
        checks := s.checks.eraseIdx k }
    | _ => none

def Sticky (s : Operated F) : Prop :=
  ∀ hostID, s.held hostID = true → s.registry.stateOf hostID = some .maintenance

/-- No check writes a verdict for a held host that differs from the state it had read, and no sweep
    finds a held host timed out. -/
def Respected (s : Operated F) : OperatedEvent F → Prop
  | .checkWrite k _ =>
    ∀ hostID oldState verdict, s.checks[k]? = some ⟨hostID, oldState, some verdict⟩ →
      s.held hostID = true → verdict.newState = oldState
  | .sweep now =>
    ∀ hostID host, s.held hostID = true → s.registry.getHost hostID = some host →
      s.registry.timedOut now host = false
  | _ => True

section Step

variable {m : HealthMonitor F} {s s' : Operated F}

omit [LT F] [DecidableLT F] in
theorem Sticky.called (sticky : s.Sticky) {hostID : GoString} {change : HostInfo F → HostInfo F}
    (keeps : ∀ host, host.state = .maintenance → (change host).state = .maintenance) :
    (s.called (s.registry.update hostID change)).Sticky := by
  cases written : s.registry.update hostID change with
  | error message => exact sticky
  | ok registry =>
    exact fun other held =>
      stateOf_update_maintenance written keeps (sticky other held)

omit [LT F] [DecidableLT F] in
theorem Sticky.register (sticky : s.Sticky) (hostID : GoString) (host : HostInfo F) (now : Int) :
    Sticky { s with
      registry := s.registry.registerHost hostID host now
      held := Function.update s.held hostID false } := by
  intro other held
  unfold registerHost
  simp only [stateOf_set]
  by_cases mine : other = hostID
  · simp [mine] at held
  · simp only [Function.update_of_ne mine] at held
    simpa only [if_neg (Ne.symm mine)] using sticky other held

omit [LT F] [DecidableLT F] in
theorem Sticky.setMaintenance (sticky : s.Sticky) {hostID : GoString} {maintenance : Bool} {now : Int}
    {registry : HostRegistry F}
    (written : s.registry.setHostMaintenance hostID maintenance now = .ok registry) :
    Sticky { s with registry := registry, held := Function.update s.held hostID maintenance } := by
  intro other held
  obtain ⟨host, _, rfl⟩ := update_ok written
  simp only [stateOf_set]
  by_cases mine : other = hostID
  · subst mine
    have on : maintenance = true := by simpa using held
    simp [on]
  · simp only [Function.update_of_ne mine] at held
    simpa only [if_neg (Ne.symm mine)] using sticky other held

omit [LT F] [DecidableLT F] in
theorem sticky_sweep (sticky : s.Sticky) (now : Int) :
    Sticky { s with registry := s.registry.checkHostsHealth now } ↔ s.Respected (.sweep now) := by
  constructor
  · intro after hostID host held found
    have state := after hostID held
    simp only [stateOf, getHost_checkHostsHealth, found, map_some] at state
    cases late : s.registry.timedOut now host with
    | false => rfl
    | true => simp [late] at state
  · intro inTime hostID held
    obtain ⟨host, found, state⟩ := map_eq_some_iff.mp (sticky hostID held)
    simp [stateOf, getHost_checkHostsHealth, found,
      inTime hostID host held found, state]

theorem sticky_step (sticky : s.Sticky) {e : OperatedEvent F} (taken : s.step m e = some s') :
    s'.Sticky ↔ s.Respected e := by
  cases e with
  | register hostID host now =>
    cases taken
    exact iff_of_true (sticky.register hostID host now) trivial
  | heartbeat hostID now =>
    cases taken
    exact iff_of_true (sticky.called fun host state => by simp [state]) trivial
  | updateLoad hostID load now =>
    cases taken
    exact iff_of_true (sticky.called fun host state => state) trivial
  | sweep now =>
    cases taken
    exact sticky_sweep sticky now
  | setMaintenance hostID maintenance now =>
    simp only [step] at taken
    split at taken
    · cases taken
      exact iff_of_true sticky trivial
    · rename_i registry written
      cases taken
      exact iff_of_true (sticky.setMaintenance written) trivial
  | checkStart hostID =>
    obtain ⟨host, _, rfl⟩ := map_eq_some_iff.mp taken
    exact iff_of_true sticky trivial
  | checkJudge k probes =>
    simp only [step] at taken
    split at taken
    · obtain ⟨host, _, rfl⟩ := map_eq_some_iff.mp taken
      exact iff_of_true sticky trivial
    · cases taken
  | checkWrite k now =>
    simp only [step] at taken
    split at taken
    · rename_i hostID oldState verdict running
      cases taken
      simp only [Respected, running, some.injEq, Check.mk.injEq]
      constructor
      · intro after hostID' oldState' verdict' same held
        obtain ⟨rfl, rfl, rfl⟩ := same
        exact (verdict.report_maintenance oldState now (sticky hostID held)).mp (after hostID held) rfl
      · intro respected other held
        refine (verdict.report_maintenance oldState now (sticky other held)).mpr fun mine => ?_
        subst mine
        exact respected _ _ _ ⟨rfl, rfl, rfl⟩ held
    · cases taken

end Step

/-- From any registry and any running checks on, with nobody held yet, maintenance is sticky exactly
    when every step respects it. -/
theorem run_sticky_iff (m : HealthMonitor F) (registry : HostRegistry F) (checks : List Check)
    (events : List (OperatedEvent F)) :
    Throughout (step m) Sticky ⟨registry, checks, fun _ => false⟩ events ↔
      EachStep (step m) Respected ⟨registry, checks, fun _ => false⟩ events :=
  throughout_iff (fun _ => True) (fun _ _ _ _ _ _ _ => trivial)
    (fun _ _ _ _ sticky taken => sticky_step sticky taken) events trivial nofun

/-- One registered host that was heard of at time 0. -/
def oneHost : HostRegistry Nat := ⟨[(ascii "web", ⟨.healthy, 0, 0, ⟨5, 5, 5⟩⟩)], 30⟩

/-- A check in which every checker succeeds ends the maintenance, and so does a missing heartbeat. -/
theorem maintenance_overwritten :
    (∃ s, [OperatedEvent.setMaintenance (ascii "web") true 1, .checkStart (ascii "web"),
          .checkJudge 0 [(ascii "tcp", true)], .checkWrite 0 2].foldlM (step ⟨none⟩)
          ⟨oneHost, [], fun _ => false⟩ = some s ∧
      s.held (ascii "web") = true ∧ s.registry.stateOf (ascii "web") = some .healthy) ∧
    (∃ s, [OperatedEvent.setMaintenance (ascii "web") true 1, .sweep 31].foldlM (step ⟨none⟩)
          ⟨oneHost, [], fun _ => false⟩ = some s ∧
      s.held (ascii "web") = true ∧ s.registry.stateOf (ascii "web") = some .offline) ∧
    ¬ Throughout (step ⟨none⟩) Sticky ⟨oneHost, [], fun _ => false⟩
      [.setMaintenance (ascii "web") true 1, .sweep 31] := by
  refine ⟨⟨_, rfl, by decide +kernel, by decide +kernel⟩, ⟨_, rfl, by decide +kernel, by decide +kernel⟩,
    not_throughout rfl fun sticky => ?_⟩
  exact absurd (sticky (ascii "web") (by decide +kernel)) (by decide +kernel)

end Operated

end Monitor.Host
