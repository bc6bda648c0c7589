import Monitor.Lib.GoMap
import Monitor.Lib.NetIP

/-! # The registry of hosts of the agent

`HostRegistry` of `host_registry.go`. The table has pointers to hosts, and `RegisterHost` gets one, so
hosts are objects at places: the host that a call names and the host that the table has under its
identifier may be two objects or one. Every call holds the lock from its beginning to its end. A call
that has an event to send waits while the channel is full; it is then not enabled.
-/

namespace Monitor.Agent

open GoText GoMap NetIP

/-- The fields of `HostInfo` that the modelled functions read or write; an absent map is nil. -/
structure HostInfo where
  id : GoString
  hostname : GoString
  ip : GoString
  port : Int
  status : GoString
  lastSeen : Int
  metrics : Option (List (GoString × GoString))
  tags : Option (List (GoString × GoString))
  cpuCount : Int
  memoryMB : Int
  diskGB : Int
  os : GoString
  arch : GoString
  version : GoString
  location : GoString
  group : GoString
  priority : Int

def online : GoString := ascii "online"

def offline : GoString := ascii "offline"

inductive RegistryError where
  | nilHost
  | tooMany (limit : Int)
  | emptyID
  | emptyIP
  | invalidIP (ip : GoString)
  | unknownHost (hostID : GoString)
  deriving DecidableEq

def validateHostInfo (host : HostInfo) : Except RegistryError Unit :=
  if host.id = [] then .error .emptyID
  else if host.ip = [] then .error .emptyIP
  else if parseIP host.ip = none then .error (.invalidIP host.ip)
  else .ok ()

def newText (existing new : GoString) : GoString := if new ≠ [] then new else existing

def newNumber (existing new : Int) : Int := if new > 0 then new else existing

/-- The entries of the new map are written into the existing one. -/
def mergeMap (existing new : Option (List (GoString × GoString))) : Option (List (GoString × GoString)) :=
  match new with
  | none => existing
  | some entries => some (entries.foldl (fun m e => set e.1 e.2 m) (existing.getD []))

/-- The identifier, the status and the time of the existing host stay as they are. -/
def updateHostInfo (existing new : HostInfo) : HostInfo :=
  { existing with
    hostname := newText existing.hostname new.hostname
    ip := newText existing.ip new.ip
    port := newNumber existing.port new.port
    cpuCount := newNumber existing.cpuCount new.cpuCount
    memoryMB := newNumber existing.memoryMB new.memoryMB
    diskGB := newNumber existing.diskGB new.diskGB
    os := newText existing.os new.os
    arch := newText existing.arch new.arch
    version := newText existing.version new.version
    location := newText existing.location new.location
    group := newText existing.group new.group
    priority := newNumber existing.priority new.priority
    tags := mergeMap existing.tags new.tags
    metrics := mergeMap existing.metrics new.metrics }

/-- The host with a new status and, if there is one, the text of an error. -/
def HostInfo.withStatus (host : HostInfo) (status errorMsg : GoString) (now : Int) : HostInfo :=
  { host with
    status := status
    lastSeen := now
    metrics := if errorMsg = [] then host.metrics else some (set (ascii "error") errorMsg
      (host.metrics.getD [])) }

inductive EventType where
  | add
  | update
  | remove
  | statusChange
  deriving DecidableEq

structure HostEvent where
  type : EventType
  host : Nat
  timestamp : Int

/-- The objects, the table from identifiers to places, and the events that wait to be handled. -/
structure HostRegistry where
  heap : Nat → HostInfo
  hosts : List (GoString × Nat)
  eventChan : List HostEvent

namespace HostRegistry

def eventRoom : Nat := 1000

def send (r : HostRegistry) (event : HostEvent) : Option HostRegistry :=
  if r.eventChan.length < eventRoom then some { r with eventChan := r.eventChan ++ [event] } else none

def write (r : HostRegistry) (place : Nat) (host : HostInfo) : HostRegistry :=
  { r with heap := Function.update r.heap place host }

def setOnline (r : HostRegistry) (place : Nat) (now : Int) : HostRegistry :=
  r.write place { r.heap place with status := online, lastSeen := now }

/-- What `RegisterHost` does with a valid host before the event is sent. -/
def store (r : HostRegistry) (place : Nat) (now : Int) : HostRegistry :=
  match get (r.heap place).id r.hosts with
  | some existing => (r.write existing (updateHostInfo (r.heap existing) (r.heap place))).setOnline place now
  | none => { r.setOnline place now with hosts := set (r.heap place).id place r.hosts }

/-- `RegisterHost`, with the limit of the configuration. -/
def registerHost (maxHosts : Int) (r : HostRegistry) (host : Option Nat) (now : Int) :
    Option (Except RegistryError Unit × HostRegistry) :=
  match host with
  | none => some (.error .nilHost, r)
  | some place =>
    if (r.hosts.length : Int) ≥ maxHosts then some (.error (.tooMany maxHosts), r)
    else
      match validateHostInfo (r.heap place) with
      | .error err => some (.error err, r)
      | .ok _ => ((r.store place now).send ⟨.add, place, now⟩).map fun r' => (.ok (), r')

def unregisterHost (r : HostRegistry) (hostID : GoString) (now : Int) :
    Option (Except RegistryError Unit × HostRegistry) :=
  match get hostID r.hosts with
  | none => some (.error (.unknownHost hostID), r)
  | some place =>
    ({ r with hosts := erase hostID r.hosts }.send ⟨.remove, place, now⟩).map fun r' => (.ok (), r')

def updateHostStatus (r : HostRegistry) (hostID status errorMsg : GoString) (now : Int) :
    Option (Except RegistryError Unit × HostRegistry) :=
  match get hostID r.hosts with
  | none => some (.error (.unknownHost hostID), r)
  | some place =>
    let type := if (r.heap place).status ≠ status then .statusChange else .update
    ((r.write place ((r.heap place).withStatus status errorMsg now)).send ⟨type, place, now⟩).map
      fun r' => (.ok (), r')

/-- `NewHostRegistry`: the local host is registered, if it can be. -/
def newHostRegistry (maxHosts : Int) (heap : Nat → HostInfo) (localHost : Nat) (now : Int) : HostRegistry :=
  match registerHost maxHosts ⟨heap, [], []⟩ (some localHost) now with
  | none => ⟨heap, [], []⟩
  | some (_, r) => r

/-- What callers do. They may also write into the hosts that they have passed on, and the handler takes
    an event from the channel. -/
inductive Call where
  | assign (place : Nat) (host : HostInfo)
  | registerHost (host : Option Nat) (now : Int)
  | unregisterHost (hostID : GoString) (now : Int)
  | updateHostStatus (hostID status errorMsg : GoString) (now : Int)
  | handleEvent

def call (maxHosts : Int) (r : HostRegistry) : Call → Option HostRegistry
  | .assign place host => some (r.write place host)
  | .registerHost host now => (r.registerHost maxHosts host now).map (·.2)
  | .unregisterHost hostID now => (r.unregisterHost hostID now).map (·.2)
  | .updateHostStatus hostID status errorMsg now => (r.updateHostStatus hostID status errorMsg now).map (·.2)
  | .handleEvent =>
    match r.eventChan with
    | [] => none
    | _ :: rest => some { r with eventChan := rest }

variable {r r' : HostRegistry} {outcome : Except RegistryError Unit}

theorem send_spec {event : HostEvent} (sent : r.send event = some r') :
    r'.heap = r.heap ∧ r'.hosts = r.hosts := by
  unfold send at sent
  split at sent
  · cases sent
    exact ⟨rfl, rfl⟩
  · cases sent

theorem registerHost_spec {maxHosts : Int} {host : Option Nat} {now : Int}
    (returned : r.registerHost maxHosts host now = some (outcome, r')) :
    (∃ err, outcome = .error err ∧ r' = r ∧ ∀ place, host = some place →
      maxHosts ≤ r.hosts.length ∨ validateHostInfo (r.heap place) = .error err) ∨
      ∃ place, host = some place ∧ (r.hosts.length : Int) < maxHosts ∧
        validateHostInfo (r.heap place) = .ok () ∧ outcome = .ok () ∧
        r'.heap = (r.store place now).heap ∧ r'.hosts = (r.store place now).hosts := by
  unfold registerHost at returned
  split at returned
  · cases returned
    exact .inl ⟨_, rfl, rfl, fun _ given => by cases given⟩
  · rename_i place
    split at returned
    · rename_i full
      cases returned
      exact .inl ⟨_, rfl, rfl, fun _ _ => .inl full⟩
    · rename_i room
      split at returned
      · rename_i err invalid
        cases returned
        refine .inl ⟨err, rfl, rfl, fun given same => .inr ?_⟩
        cases same
        exact invalid
      · rename_i valid
        obtain ⟨r'', sent, same⟩ := Option.map_eq_some_iff.mp returned
        cases same
        obtain ⟨heap, hosts⟩ := send_spec sent
        exact .inr ⟨place, rfl, Int.not_le.mp room, valid, rfl, heap, hosts⟩

theorem unregisterHost_spec {hostID : GoString} {now : Int}
    (returned : r.unregisterHost hostID now = some (outcome, r')) :
    r'.heap = r.heap ∧ (r'.hosts = r.hosts ∨ r'.hosts = erase hostID r.hosts) := by
  unfold unregisterHost at returned
  split at returned
  · cases returned
    exact ⟨rfl, .inl rfl⟩
  · obtain ⟨r'', sent, same⟩ := Option.map_eq_some_iff.mp returned
    cases same
    obtain ⟨heap, hosts⟩ := send_spec sent
    exact ⟨heap, .inr hosts⟩

theorem updateHostStatus_hosts {hostID status errorMsg : GoString} {now : Int}
    (returned : r.updateHostStatus hostID status errorMsg now = some (outcome, r')) : r'.hosts = r.hosts := by
  unfold updateHostStatus at returned
  split at returned
  · cases returned
    rfl
  · obtain ⟨r'', sent, same⟩ := Option.map_eq_some_iff.mp returned
    cases same
    exact (send_spec sent).2

theorem store_hosts (r : HostRegistry) (place : Nat) (now : Int) : (r.store place now).hosts =
    if (get (r.heap place).id r.hosts).isSome then r.hosts else set (r.heap place).id place r.hosts := by
  unfold store
  split
  · rename_i existing found
    rw [found]
    rfl
  · rename_i absent
    rw [absent]
    rfl

/-- A host with nothing but an identifier and an address. -/
def plainHost (id : GoString) : HostInfo where
  id := id
  hostname := []
  ip := ascii "10.0.0.1"
  port := 22
  status := []
  lastSeen := 0
  metrics := none
  tags := none
  cpuCount := 0
  memoryMB := 0
  diskGB := 0
  os := []
  arch := []
  version := []
  location := []
  group := []
  priority := 0

/-- The local host at the first place and copies of one other host behind it. -/
def twoHosts (place : Nat) : HostInfo := plainHost (if place = 0 then ascii "local" else ascii "host-1")

end HostRegistry

end Monitor.Agent
