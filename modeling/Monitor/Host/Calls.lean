import Monitor.Host.Events
import Monitor.Host.Scaling

/-! # Concurrent calls of the host manager

Any number of calls of `AddHost`, `UpdateHost` and `SetHostMaintenance`, and the event
dispatcher, one locked section, send or receive at a time. `AddHost` looks at the number of
hosts and registers its host in two sections of the registry. `UpdateHost` sends its event
while it holds the mutex of the manager, and the dispatcher needs that mutex behind every event
that it has received.
-/

namespace Monitor.Host

open GoText Option

inductive ManagerEvent where
  | hostAdded (hostID : GoString)
  | hostUpdated (hostID : GoString)
  | maintenanceChanged (hostID : GoString) (maintenance : Bool)
  deriving DecidableEq

/-- A value of the map that `UpdateHost` is given. -/
inductive UpdateValue where
  | string (s : GoString)
  | int (n : Int)
  | state (state : HostState)
  | strings (tags : List GoString)
  | map
  | other

inductive UpdateKind where
  | string
  | int
  | strings
  | map

def UpdateKind.accepts : UpdateKind → UpdateValue → Bool
  | .string, .string _ | .int, .int _ | .strings, .strings _ | .map, .map => true
  | _, _ => false

/-- Whether the type assertion on a field holds, if the field is there. -/
def asserts (updates : List (GoString × UpdateValue)) (field : String) (kind : UpdateKind) : Bool :=
  (GoMap.get (ascii field) updates).all kind.accepts

/-- The assignments of `UpdateHost`, and whether none of them panics. -/
def applyUpdates {F : Type} (updates : List (GoString × UpdateValue)) (host : HostInfo F) :
    HostInfo F × Bool :=
  if asserts updates "hostname" .string && asserts updates "ip_address" .string &&
      asserts updates "port" .int then
    let rest := asserts updates "tags" .strings && asserts updates "metadata" .map
    match GoMap.get (ascii "state") updates with
    | none => (host, rest)
    | some (.state state) => ({ host with state := state }, rest)
    | some _ => (host, false)
  else
    (host, false)

inductive Call (F : Type) where
  | addHost (hostID : GoString) (host : HostInfo F)
  | updateHost (hostID : GoString) (updates : List (GoString × UpdateValue))
  | setHostMaintenance (hostID : GoString) (maintenance : Bool)

/-- Where a call is; `checked` is behind the limit check of `AddHost`, `locked` behind `m.mu.Lock()`,
    and `sending` at the send of the event. -/
inductive CallPhase where
  | begun
  | checked
  | locked
  | sending
  | returned (err : Option GoString)
  | panicked
  deriving DecidableEq

structure Caller (F : Type) where
  call : Call F
  phase : CallPhase

def Call.event {F : Type} : Call F → ManagerEvent
  | .addHost hostID _ => .hostAdded hostID
  | .updateHost hostID _ => .hostUpdated hostID
  | .setHostMaintenance hostID maintenance => .maintenanceChanged hostID maintenance

/-- `waiting` is at `m.mu.RLock()`, `reading` behind it. -/
inductive Dispatcher where
  | select
  | waiting (event : ManagerEvent)
  | reading (event : ManagerEvent)
  deriving DecidableEq

/-- The capacity of `eventChan`. -/
def eventChanSize : Nat := 100

structure Managed (F : Type) where
  registry : HostRegistry F
  callers : List (Caller F)
  eventChan : List ManagerEvent
  dispatcher : Dispatcher
  subscriptions : HostManager ManagerEvent

inductive CallEvent (F : Type) where
  | call (call : Call F)
  | advance (k : Nat) (now : Int)
  | receive
  | rlock
  | dispatch
  | subscribe (id : GoString)
  | unsubscribe (id : GoString)
  | cleanup

/-- Whether the call holds `m.mu`. -/
def Caller.holds {F : Type} : Caller F → Bool
  | ⟨.updateHost _ _, .locked⟩ | ⟨.updateHost _ _, .sending⟩ => true
  | _ => false

def Dispatcher.isReading : Dispatcher → Bool
  | .reading _ => true
  | .select | .waiting _ => false

def limitError (maxHosts : Int) : GoString := text "主机数量已达到上限: " ++ itoa maxHosts

def unknownHost (hostID : GoString) : GoString := text "主机 " ++ hostID ++ text " 不存在"

namespace Managed

variable {F : Type}

def start (offlineTimeout : Int) : Managed F := ⟨⟨[], offlineTimeout⟩, [], [], .select, .newHostManager⟩

def goto (s : Managed F) (k : Nat) (phase : CallPhase) : Managed F :=
  { s with callers := s.callers.modify k fun caller => { caller with phase := phase } }

/-- `m.mu` can be locked for writing. -/
def isFree (s : Managed F) : Bool := !s.callers.any Caller.holds && !s.dispatcher.isReading

def advance (maxHosts : Int) (s : Managed F) (k : Nat) (now : Int) : Option (Managed F) :=
  match s.callers[k]? with
  | none => none
  | some caller =>
    match caller.phase, caller.call with
    | .begun, .addHost _ _ =>
      if 0 < maxHosts ∧ maxHosts ≤ s.registry.getHostCount then
        some (s.goto k (.returned (some (limitError maxHosts))))
      else
        some (s.goto k .checked)
    | .checked, .addHost hostID host =>
      some ({ s with registry := s.registry.registerHost hostID host now }.goto k .sending)
    | .begun, .updateHost _ _ => if s.isFree then some (s.goto k .locked) else none
    | .locked, .updateHost hostID updates =>
      match s.registry.getHost hostID with
      | none => some (s.goto k (.returned (some (unknownHost hostID))))
      | some host =>
        let (host, ok) := applyUpdates updates host
        some ({ s with registry.hosts := GoMap.set hostID host s.registry.hosts }.goto k
          (if ok then .sending else .panicked))
    | .begun, .setHostMaintenance hostID maintenance =>
      match s.registry.setHostMaintenance hostID maintenance now with
      | .error err => some (s.goto k (.returned (some err)))
      | .ok registry => some ({ s with registry := registry }.goto k .sending)
    | .sending, call =>
      if s.eventChan.length < eventChanSize then
        some ({ s with eventChan := s.eventChan ++ [call.event] }.goto k (.returned none))
      else
        none
    | _, _ => none

def step (maxHosts : Int) (s : Managed F) : CallEvent F → Option (Managed F)
  | .call call => some { s with callers := s.callers ++ [⟨call, .begun⟩] }
  | .advance k now => s.advance maxHosts k now
  | .receive =>
    match s.dispatcher, s.eventChan with
    | .select, event :: rest => some { s with dispatcher := .waiting event, eventChan := rest }
    | _, _ => none
  | .rlock =>
    match s.dispatcher with
    | .waiting event =>
      if s.callers.any Caller.holds then none else some { s with dispatcher := .reading event }
    | _ => none
  | .dispatch =>
    match s.dispatcher with
    | .reading event =>
      (s.subscriptions.dispatchEvent event).map fun subscriptions =>
        { s with subscriptions := subscriptions, dispatcher := .select }
    | _ => none
  | .subscribe id => if s.isFree then some { s with subscriptions := s.subscriptions.subscribe id } else none
  | .unsubscribe id =>
    if s.isFree then some { s with subscriptions := s.subscriptions.unsubscribe id } else none
  | .cleanup => if s.isFree then some { s with subscriptions := s.subscriptions.cleanupResources } else none

section Goto

variable {s : Managed F} {k : Nat}

variable {caller : Caller F}

theorem callers_goto_self (here : s.callers[k]? = some caller) (phase : CallPhase) :
    (s.goto k phase).callers[k]? = some { caller with phase := phase } := by
  simp [goto, here]

theorem callers_goto_other (s : Managed F) {j : Nat} (apart : j ≠ k) (phase : CallPhase) :
    (s.goto k phase).callers[j]? = s.callers[j]? := by
  simp [goto, Ne.symm apart]

/-- Some call is as `P` says. -/
def Has (s : Managed F) (P : Caller F → Prop) : Prop :=
  ∃ (k : Nat) (caller : Caller F), s.callers[k]? = some caller ∧ P caller

/-- Some call other than `k` is as `P` says. -/
def Beside (s : Managed F) (k : Nat) (P : Caller F → Prop) : Prop :=
  ∃ (j : Nat) (other : Caller F), j ≠ k ∧ s.callers[j]? = some other ∧ P other

variable {P : Caller F → Prop}

theorem has_iff (here : s.callers[k]? = some caller) :
    s.Has P ↔ P caller ∨ s.Beside k P := by
  constructor
  · rintro ⟨j, other, found, holds⟩
    by_cases same : j = k
    · subst same
      cases here.symm.trans found
      exact .inl holds
    · exact .inr ⟨j, other, same, found, holds⟩
  · rintro (holds | ⟨j, other, _, found, holds⟩)
    · exact ⟨k, caller, here, holds⟩
    · exact ⟨j, other, found, holds⟩

theorem has_goto (here : s.callers[k]? = some caller)
    (phase : CallPhase) : (s.goto k phase).Has P ↔ P { caller with phase := phase } ∨ s.Beside k P := by
  rw [has_iff (callers_goto_self here phase)]
  refine or_congr_right (exists₂_congr fun j other => and_congr_right fun apart => ?_)
  rw [callers_goto_other s apart]

theorem has_iff_mem : s.Has P ↔ ∃ caller ∈ s.callers, P caller := by
  constructor
  · rintro ⟨k, caller, found, holds⟩
    exact ⟨caller, List.mem_of_getElem? found, holds⟩
  · rintro ⟨caller, mem, holds⟩
    obtain ⟨k, found⟩ := List.mem_iff_getElem?.mp mem
    exact ⟨k, caller, found, holds⟩

theorem has_call {call : Call F} (begun : ¬ P ⟨call, .begun⟩) :
    Has { s with callers := s.callers ++ [⟨call, .begun⟩] } P ↔ s.Has P := by
  simp [has_iff_mem, List.mem_append, or_and_right, exists_or, begun]

end Goto

inductive Advanced (maxHosts : Int) (s : Managed F) (k : Nat) (now : Int) : Managed F → Prop where
  | refused {hostID : GoString} {host : HostInfo F}
      (here : s.callers[k]? = some ⟨.addHost hostID host, .begun⟩)
      (full : 0 < maxHosts ∧ maxHosts ≤ s.registry.getHostCount) :
      Advanced maxHosts s k now (s.goto k (.returned (some (limitError maxHosts))))
  | admitted {hostID : GoString} {host : HostInfo F}
      (here : s.callers[k]? = some ⟨.addHost hostID host, .begun⟩)
      (room : ¬ (0 < maxHosts ∧ maxHosts ≤ s.registry.getHostCount)) :
      Advanced maxHosts s k now (s.goto k .checked)
  | registered {hostID : GoString} {host : HostInfo F}
      (here : s.callers[k]? = some ⟨.addHost hostID host, .checked⟩) :
      Advanced maxHosts s k now
        ({ s with registry := s.registry.registerHost hostID host now }.goto k .sending)
  | locked {hostID : GoString} {updates : List (GoString × UpdateValue)}
      (here : s.callers[k]? = some ⟨.updateHost hostID updates, .begun⟩) (free : s.isFree = true) :
      Advanced maxHosts s k now (s.goto k .locked)
  | missing {hostID : GoString} {updates : List (GoString × UpdateValue)}
      (here : s.callers[k]? = some ⟨.updateHost hostID updates, .locked⟩)
      (absent : s.registry.getHost hostID = none) :
      Advanced maxHosts s k now (s.goto k (.returned (some (unknownHost hostID))))
  | updated {hostID : GoString} {updates : List (GoString × UpdateValue)} {host : HostInfo F}
      (here : s.callers[k]? = some ⟨.updateHost hostID updates, .locked⟩)
      (found : s.registry.getHost hostID = some host) :
      Advanced maxHosts s k now
        ({ s with registry.hosts := GoMap.set hostID (applyUpdates updates host).1 s.registry.hosts }.goto k
          (if (applyUpdates updates host).2 then .sending else .panicked))
  | failed {hostID : GoString} {maintenance : Bool} {err : GoString}
      (here : s.callers[k]? = some ⟨.setHostMaintenance hostID maintenance, .begun⟩) :
      Advanced maxHosts s k now (s.goto k (.returned (some err)))
  | maintained {hostID : GoString} {maintenance : Bool} {registry : HostRegistry F}
      (here : s.callers[k]? = some ⟨.setHostMaintenance hostID maintenance, .begun⟩)
      (ok : s.registry.setHostMaintenance hostID maintenance now = .ok registry) :
      Advanced maxHosts s k now ({ s with registry := registry }.goto k .sending)
  | sent {call : Call F} (here : s.callers[k]? = some ⟨call, .sending⟩)
      (room : s.eventChan.length < eventChanSize) :
      Advanced maxHosts s k now
        ({ s with eventChan := s.eventChan ++ [call.event] }.goto k (.returned none))

variable {s s' : Managed F} {maxHosts : Int}

theorem advance_cases {k : Nat} {now : Int}
    (taken : s.advance maxHosts k now = some s') : Advanced maxHosts s k now s' := by
  unfold advance at taken
  cases here : s.callers[k]? with
  | none => simp [here] at taken
  | some caller =>
    obtain ⟨call, phase⟩ := caller
    simp only [here] at taken
    split at taken
    · split at taken
      · rename_i full
        cases taken
        exact .refused here full
      · rename_i room
        cases taken
        exact .admitted here room
    · cases taken
      exact .registered here
    · split at taken
      · rename_i free
        cases taken
        exact .locked here free
      · cases taken
    · split at taken
      · rename_i absent
        cases taken
        exact .missing here absent
      · rename_i found
        cases taken
        exact .updated here found
    · split at taken
      · cases taken
        exact .failed here
      · rename_i ok
        cases taken
        exact .maintained here ok
    · split at taken
      · rename_i room
        cases taken
        exact .sent here room
      · cases taken
    · cases taken

inductive Stepped (maxHosts : Int) (s : Managed F) : CallEvent F → Managed F → Prop where
  | called (call : Call F) :
      Stepped maxHosts s (.call call) { s with callers := s.callers ++ [⟨call, .begun⟩] }
  | advanced {k : Nat} {now : Int} {s' : Managed F} (moved : Advanced maxHosts s k now s') :
      Stepped maxHosts s (.advance k now) s'
  | received {event : ManagerEvent} {rest : List ManagerEvent} (idle : s.dispatcher = .select)
      (front : s.eventChan = event :: rest) :
      Stepped maxHosts s .receive { s with dispatcher := .waiting event, eventChan := rest }
  | rlocked {event : ManagerEvent} (waits : s.dispatcher = .waiting event)
      (unheld : s.callers.any Caller.holds = false) :
      Stepped maxHosts s .rlock { s with dispatcher := .reading event }
  | dispatched {event : ManagerEvent} (reads : s.dispatcher = .reading event)
      (subscriptions : HostManager ManagerEvent) :
      Stepped maxHosts s .dispatch { s with subscriptions := subscriptions, dispatcher := .select }
  | subscribed (id : GoString) (subscriptions : HostManager ManagerEvent) :
      Stepped maxHosts s (.subscribe id) { s with subscriptions := subscriptions }
  | unsubscribed (id : GoString) (subscriptions : HostManager ManagerEvent) :
      Stepped maxHosts s (.unsubscribe id) { s with subscriptions := subscriptions }
  | cleaned (subscriptions : HostManager ManagerEvent) :
      Stepped maxHosts s .cleanup { s with subscriptions := subscriptions }

theorem step_cases {e : CallEvent F}
    (taken : s.step maxHosts e = some s') : Stepped maxHosts s e s' := by
  cases e with
  | call call =>
    cases taken
    exact .called call
  | advance k now => exact .advanced (advance_cases taken)
  | receive =>
    simp only [step] at taken
    split at taken
    · rename_i idle front
      cases taken
      exact .received idle front
    · cases taken
  | rlock =>
    simp only [step] at taken
    split at taken
    · rename_i waits
      split at taken
      · cases taken
      · rename_i unheld
        cases taken
        exact .rlocked waits (Bool.eq_false_iff.mpr unheld)
    · cases taken
  | dispatch =>
    simp only [step] at taken
    split at taken
    · rename_i reads
      obtain ⟨subscriptions, _, rfl⟩ := map_eq_some_iff.mp taken
      exact .dispatched reads subscriptions
    · cases taken
  | subscribe id =>
    simp only [step, ite_none_right_eq_some, some.injEq] at taken
    obtain ⟨_, rfl⟩ := taken
    exact .subscribed id _
  | unsubscribe id =>
    simp only [step, ite_none_right_eq_some, some.injEq] at taken
    obtain ⟨_, rfl⟩ := taken
    exact .unsubscribed id _
  | cleanup =>
    simp only [step, ite_none_right_eq_some, some.injEq] at taken
    obtain ⟨_, rfl⟩ := taken
    exact .cleaned _

end Managed

end Monitor.Host
