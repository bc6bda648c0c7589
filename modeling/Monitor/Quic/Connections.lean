import Monitor.Lib.GoMap
import Monitor.Lib.GoText
import Monitor.Lib.Runs

/-! # The connection table of the server

`acceptConnections` and `handleConnection` of `server.go`, and the methods that go through the
table of connections, `BroadcastMetrics` and `Stop`. The key of a connection is the text of its
remote address: a second connection from the same address takes the entry of the first, and
the end of either deletes it.
-/

namespace Monitor.Quic

open GoText Runs List Function GoMap

/-- A `*quic.Conn`; connections are numbered in the order in which they were accepted. -/
abbrev ConnId := Nat

/-- `handlers` has the connections whose `handleConnection` has not ended. A connection is taken to keep
    its `RemoteAddr`: the peer does not migrate. -/
structure Listening where
  connections : List (GoString × ConnId)
  connectionsTotal : Int64
  connectionsActive : Int64
  remoteAddr : ConnId → GoString
  handlers : List ConnId
  next : ConnId

inductive ConnectionEvent where
  | accept (addr : GoString)
  | finish (conn : ConnId)

/-- What becomes of a broadcast on one connection. -/
inductive SendOutcome where
  | ok
  | openFails
  | writeFails
  deriving DecidableEq

inductive BroadcastError where
  | openStream (conn : ConnId)
  | write (conn : ConnId)
  deriving DecidableEq

/-- The loop of `BroadcastMetrics`, with the connections that got a stream and `broadcastErr`; a
    stream that cannot be opened ends it. -/
def broadcastLoop (outcome : ConnId → SendOutcome) :
    List ConnId → Option BroadcastError → List ConnId × Option BroadcastError
  | [], broadcastErr => ([], broadcastErr)
  | conn :: rest, broadcastErr =>
    match outcome conn with
    | .openFails => ([], some (.openStream conn))
    | .writeFails => (broadcastLoop outcome rest (some (.write conn))).map (conn :: ·) id
    | .ok => (broadcastLoop outcome rest broadcastErr).map (conn :: ·) id

namespace Listening

def start : Listening := ⟨[], 0, 0, fun _ => [], [], 0⟩

/-- The end of one round of `acceptConnections`. -/
def accept (s : Listening) (addr : GoString) : Listening where
  connections := GoMap.set addr s.next s.connections
  connectionsTotal := s.connectionsTotal + 1
  connectionsActive := s.connectionsActive + 1
  remoteAddr := update s.remoteAddr s.next addr
  handlers := s.handlers ++ [s.next]
  next := s.next + 1

/-- The deferred function of `handleConnection`. -/
def finish (s : Listening) (conn : ConnId) : Listening :=
  { s with
    connections := GoMap.erase (s.remoteAddr conn) s.connections
    connectionsActive := s.connectionsActive - 1
    handlers := s.handlers.erase conn }

def step (s : Listening) : ConnectionEvent → Option Listening
  | .accept addr => some (s.accept addr)
  | .finish conn => if conn ∈ s.handlers then some (s.finish conn) else none

/-- The connections in the order in which `Range` visits them. -/
def range (s : Listening) (order : GoMap.LoopOrder) : List ConnId :=
  (order.entries s.connections).map (·.2)

/-- The connections that `Stop` closes. -/
def stop (s : Listening) (order : GoMap.LoopOrder) : List ConnId := s.range order

def broadcastMetrics (s : Listening) (order : GoMap.LoopOrder) (outcome : ConnId → SendOutcome) :
    List ConnId × Option BroadcastError :=
  broadcastLoop outcome (s.range order) none

def Present (s : Listening) (conn : ConnId) : Prop :=
  ∃ key, GoMap.get key s.connections = some conn

/-- `Stop` closes the connection, and a broadcast gets to it unless a stream cannot be opened. -/
def Reaches (s : Listening) (conn : ConnId) : Prop :=
  ∀ order, conn ∈ s.stop order ∧
    ∀ outcome : ConnId → SendOutcome, (∀ other, outcome other ≠ .openFails) →
      conn ∈ (s.broadcastMetrics order outcome).1

def AllReached (s : Listening) : Prop :=
  ∀ conn ∈ s.handlers, s.Present conn ∧ s.Reaches conn

/-- No connection with a running handler has the address of a new one. -/
def Unshared (s : Listening) : ConnectionEvent → Prop
  | .accept addr => ∀ conn ∈ s.handlers, s.remoteAddr conn ≠ addr
  | .finish _ => True

end Listening

theorem broadcastLoop_visits {outcome : ConnId → SendOutcome} (opens : ∀ conn, outcome conn ≠ .openFails)
    (conns : List ConnId) (broadcastErr : Option BroadcastError) :
    (broadcastLoop outcome conns broadcastErr).1 = conns := by
  induction conns generalizing broadcastErr with
  | nil => rfl
  | cons conn rest ih =>
    unfold broadcastLoop
    cases sent : outcome conn with
    | ok => exact congrArg (conn :: ·) (ih broadcastErr)
    | openFails => exact absurd sent (opens conn)
    | writeFails => exact congrArg (conn :: ·) (ih (some (.write conn)))

namespace Listening

variable {s s' : Listening}

variable {conn : ConnId}

theorem Present.reaches (present : s.Present conn) : s.Reaches conn := by
  obtain ⟨key, found⟩ := present
  intro order
  have visited : conn ∈ s.range order := by
    have entry : (key, conn) ∈ order.entries s.connections :=
      order.mem_entries.mpr (mem_of_get found)
    exact mem_map.mpr ⟨(key, conn), entry, rfl⟩
  refine ⟨visited, fun outcome opens => ?_⟩
  unfold broadcastMetrics
  rw [broadcastLoop_visits opens]
  exact visited

theorem allReached_iff : s.AllReached ↔ ∀ conn ∈ s.handlers, s.Present conn :=
  forall₂_congr fun _ _ => ⟨And.left, fun present => ⟨present, present.reaches⟩⟩

/-- Every connection is in the table under its own address, and the numbers are those given out. -/
structure Sound (s : Listening) : Prop where
  keyed : ∀ key conn, GoMap.get key s.connections = some conn → s.remoteAddr conn = key
  old : ∀ key conn, GoMap.get key s.connections = some conn → conn < s.next
  running : ∀ conn ∈ s.handlers, conn < s.next
  nodup : s.handlers.Nodup

theorem sound_start : start.Sound where
  keyed := nofun
  old := nofun
  running := nofun
  nodup := nodup_nil

theorem Sound.present_iff (sound : s.Sound) (conn : ConnId) :
    s.Present conn ↔ get (s.remoteAddr conn) s.connections = some conn := by
  constructor
  · rintro ⟨key, found⟩
    rwa [sound.keyed key conn found]
  · exact fun found => ⟨_, found⟩

theorem remoteAddr_accept_old (old : conn < s.next) (addr : GoString) :
    (s.accept addr).remoteAddr conn = s.remoteAddr conn :=
  update_of_ne old.ne ..

theorem remoteAddr_accept_new (s : Listening) (addr : GoString) :
    (s.accept addr).remoteAddr s.next = addr :=
  update_self ..

theorem Sound.accept (sound : s.Sound) (addr : GoString) : (s.accept addr).Sound := by
  have entries : ∀ key conn, get key (s.accept addr).connections = some conn →
      (key = addr ∧ conn = s.next) ∨ get key s.connections = some conn := by
    intro key conn found
    unfold Listening.accept at found
    simp only [get_set] at found
    split at found
    · rename_i same
      cases found
      exact .inl ⟨same.symm, rfl⟩
    · exact .inr found
  constructor
  case keyed =>
    intro key conn found
    cases entries key conn found with
    | inl new =>
      obtain ⟨rfl, rfl⟩ := new
      exact remoteAddr_accept_new s key
    | inr found =>
      rw [remoteAddr_accept_old (sound.old key conn found)]
      exact sound.keyed key conn found
  case old =>
    intro key conn found
    cases entries key conn found with
    | inl new => exact new.2 ▸ Nat.lt_succ_self _
    | inr found => exact (sound.old key conn found).trans (Nat.lt_succ_self _)
  case running =>
    intro conn mem
    cases mem_append.mp mem with
    | inl running => exact (sound.running conn running).trans (Nat.lt_succ_self _)
    | inr new => exact mem_singleton.mp new ▸ Nat.lt_succ_self _
  case nodup =>
    have fresh : s.next ∉ s.handlers := fun mem => (sound.running _ mem).false
    exact nodup_append.mpr ⟨sound.nodup, nodup_singleton _, by grind⟩

theorem Sound.finish (sound : s.Sound) (conn : ConnId) : (s.finish conn).Sound := by
  have entries : ∀ key other, get key (s.finish conn).connections = some other →
      get key s.connections = some other := by
    intro key other found
    unfold Listening.finish at found
    simp only [get_erase] at found
    split at found
    · cases found
    · exact found
  constructor
  case keyed => exact fun key other found => sound.keyed key other (entries key other found)
  case old => exact fun key other found => sound.old key other (entries key other found)
  case running => exact fun other mem => sound.running other (mem_of_mem_erase mem)
  case nodup => exact sound.nodup.erase conn

theorem finish_taken (taken : s.step (.finish conn) = some s') :
    conn ∈ s.handlers ∧ s.finish conn = s' := by
  simpa only [step, Option.ite_none_right_eq_some, Option.some.injEq] using taken

theorem Sound.step (sound : s.Sound) {e : ConnectionEvent} (taken : s.step e = some s') : s'.Sound := by
  cases e with
  | accept addr =>
    cases taken
    exact sound.accept addr
  | finish conn =>
    obtain ⟨_, rfl⟩ := finish_taken taken
    exact sound.finish conn

theorem accept_reached_iff (sound : s.Sound) (reached : s.AllReached) (addr : GoString) :
    (s.accept addr).AllReached ↔ s.Unshared (.accept addr) := by
  have after := sound.accept addr
  rw [allReached_iff] at reached ⊢
  constructor
  · intro all conn running same
    have old := sound.running conn running
    have found := (after.present_iff conn).mp (all conn (mem_append_left _ running))
    rw [remoteAddr_accept_old old, same] at found
    unfold accept at found
    simp only [get_set, if_true, Option.some.injEq] at found
    exact old.ne' found
  · intro unshared conn mem
    refine (after.present_iff conn).mpr ?_
    cases mem_append.mp mem with
    | inl running =>
      rw [remoteAddr_accept_old (sound.running conn running)]
      unfold accept
      simp only [get_set, if_neg (unshared conn running).symm]
      exact (sound.present_iff conn).mp (reached conn running)
    | inr new =>
      rw [mem_singleton.mp new, remoteAddr_accept_new]
      unfold accept
      simp only [get_set, if_true]

theorem finish_reached (sound : s.Sound) (reached : s.AllReached)
    (running : conn ∈ s.handlers) : (s.finish conn).AllReached := by
  have after := sound.finish conn
  rw [allReached_iff] at reached ⊢
  intro other mem
  have here := (sound.present_iff other).mp (reached other (mem_of_mem_erase mem))
  have mine := (sound.present_iff conn).mp (reached conn running)
  have apart : s.remoteAddr conn ≠ s.remoteAddr other := by
    intro same
    rw [← same, mine] at here
    cases here
    exact sound.nodup.not_mem_erase mem
  refine (after.present_iff other).mpr ?_
  unfold finish
  simp only [get_erase, if_neg apart]
  exact here

theorem step_reached_iff (sound : s.Sound) (reached : s.AllReached) {e : ConnectionEvent}
    (taken : s.step e = some s') : s'.AllReached ↔ s.Unshared e := by
  cases e with
  | accept addr =>
    cases taken
    exact accept_reached_iff sound reached addr
  | finish conn =>
    obtain ⟨running, rfl⟩ := finish_taken taken
    exact iff_of_true (finish_reached sound reached running) trivial

/-- Every connection with a running handler is in the table exactly when no connection is accepted
    from an address that one of them has. -/
theorem run_reached_iff (events : List ConnectionEvent) :
    Throughout step AllReached start events ↔ EachStep step Unshared start events :=
  throughout_iff Sound (fun _ _ _ sound _ taken _ => sound.step taken)
    (fun _ _ _ sound reached taken => step_reached_iff sound reached taken) events sound_start nofun

def sharedAddress : List ConnectionEvent :=
  [.accept (ascii "10.0.0.7:4242"), .accept (ascii "10.0.0.7:4242")]

def firstEnds : List ConnectionEvent := sharedAddress ++ [.finish 0]

/-- The second connection takes the entry of the first; when the first ends, the second is not in
    the table either, and `Stop` closes nothing. -/
theorem second_connection_lost :
    (∃ s, sharedAddress.foldlM step start = some s ∧ s.handlers = [0, 1] ∧
      s.connections = [(ascii "10.0.0.7:4242", 1)]) ∧
    (∃ s, firstEnds.foldlM step start = some s ∧ s.handlers = [1] ∧
      s.connections = [] ∧ s.stop .same = []) ∧
    ¬ Throughout step AllReached start sharedAddress ∧
    ¬ Throughout step AllReached start firstEnds := by
  refine ⟨⟨_, rfl, rfl, rfl⟩, ⟨_, rfl, rfl, rfl, rfl⟩, not_throughout rfl fun reached => ?_,
    not_throughout rfl fun reached => ?_⟩
  · have closed := ((reached 0 (by decide +kernel)).2 .same).1
    exact absurd closed (by decide +kernel)
  · have closed := ((reached 1 (by decide +kernel)).2 .same).1
    exact absurd closed (by decide +kernel)

end Listening

end Monitor.Quic
