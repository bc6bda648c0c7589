import Monitor.Analysis.Aggregators
import Monitor.Lib.Channel

/-! # WebSocket server

The goroutines of `server.go`: the hub loop `run`, calls of `Stop`, and a read and a write pump
for each client. A step is what one goroutine does between two points where it can be held up:
a channel operation, a mutex, or an answer of the connection. `register` and `unregister` are
unbuffered, so a send to them ends together with the receive of the hub. The mutexes are not
reentrant. `s.mu` is only locked for writing by the hub, and a call of `RLock` waits for a writer
that waits; the order in which a loop visits the client map is an argument of its first step.
-/

namespace Monitor.Websocket

open Channel
open Analysis (timeSub)

structure Config where
  bufferSize : Nat
  pingTimeout : Int

/-- Clients are numbered in the order of their connections, calls of `Stop` in theirs. -/
inductive Thread where
  | hub
  | stop (k : Nat)
  | reader (c : Nat)
  | writer (c : Nat)
  deriving DecidableEq, Repr

/-- Inside of `ping`: at `c.mu.Lock()`, at the write, at the call of `close` after a failed write. -/
inductive PingPc where
  | lock
  | write
  | closing
  deriving DecidableEq, Repr

/-- Inside of `close`: at `c.mu.Lock()`, at the send to `unregister`. -/
inductive ClosePc where
  | lock
  | send
  deriving DecidableEq, Repr

inductive CallPc where
  | ping (pc : PingPc)
  | close (pc : ClosePc)
  | pong
  deriving DecidableEq, Repr

/-- At a call of `c.mu.Lock()`; after a failed write `close` is called with the mutex held. -/
def CallPc.waits : CallPc → Bool
  | .ping .lock | .ping .closing | .close .lock | .pong => true
  | .ping .write | .close .send => false

/-- Between `c.mu.Lock()` and `c.mu.Unlock()`. -/
def CallPc.holds : CallPc → Bool
  | .ping .write | .ping .closing | .close .send => true
  | .ping .lock | .close .lock | .pong => false

/-- `leaving` is at the send to `unregister`, `closing` behind it. -/
inductive ReaderPc where
  | notStarted
  | reading
  | pong
  | leaving
  | closing
  | finished
  deriving DecidableEq, Repr

/-- `opening` is at `NextWriter`, `draining` in the loop over the queued messages, `closing` behind the
    loop. -/
inductive WriterPc where
  | notStarted
  | select
  | opening
  | draining (n : Nat)
  | pinging (pc : PingPc)
  | closing
  | finished
  deriving DecidableEq, Repr

structure Client (Msg : Type) where
  registering : Bool
  send : Chan Msg
  owner : Option Thread
  closed : Bool
  lastPing : Int
  connOpen : Bool
  reader : ReaderPc
  writer : WriterPc

inductive Op where
  | register (c : Nat)
  | unregister (c : Nat)
  deriving DecidableEq, Repr

inductive Loop (Msg : Type) where
  | broadcast (message : Msg)
  | heartbeat

/-- `received` is before `s.mu.Lock()`, `locking` in it; `looping` has the clients that the loop
    still has to visit. A send on a closed channel, or a second close, ends the program. -/
inductive HubPc (Msg : Type) where
  | select
  | received (op : Op)
  | locking (op : Op)
  | looping (loop : Loop Msg) (rest : List Nat)
  | calling (loop : Loop Msg) (rest : List Nat) (c : Nat) (call : CallPc)
  | crashed

inductive StopPc where
  | rlock
  | looping (rest : List Nat)
  | closing (rest : List Nat) (c : Nat) (pc : ClosePc)
  | finished
  deriving DecidableEq, Repr

def HubPc.isLocking {Msg : Type} : HubPc Msg → Bool
  | .locking _ => true
  | _ => false

/-- Whether `Stop` holds `s.mu` for reading. -/
def StopPc.reads : StopPc → Bool
  | .looping _ | .closing _ _ _ => true
  | .rlock | .finished => false

structure Server (Msg : Type) where
  hub : HubPc Msg
  stops : List StopPc
  clients : List Nat
  client : Nat → Client Msg
  next : Nat
  broadcast : List Msg

section

variable {Msg : Type}

def Client.fresh : Client Msg := ⟨false, .fresh, none, false, 0, true, .notStarted, .notStarted⟩

/-- `NewServer` and `Start`. -/
def Server.start : Server Msg := ⟨.select, [], [], fun _ => .fresh, 0, []⟩

namespace Client

/-- The methods of a client return it and where the caller is next, or nothing if the step is not
    possible; a caller that is next nowhere has returned. -/
def lockPing (t : Thread) (cl : Client Msg) : Option (Client Msg × Option PingPc) :=
  if cl.owner.isSome then none
  else if cl.closed then some (cl, none)
  else some ({ cl with owner := some t }, some .write)

/-- The write of the ping; it cannot succeed on a closed connection. -/
def writePing (ok : Bool) (cl : Client Msg) : Option (Client Msg × Option PingPc) :=
  if ok then
    if cl.connOpen then some ({ cl with owner := none }, none) else none
  else
    some (cl, some .closing)

def lockClose (t : Thread) (cl : Client Msg) : Option (Client Msg × Option ClosePc) :=
  if cl.owner.isSome then none
  else if cl.closed then some (cl, none)
  else some ({ cl with owner := some t, closed := true, connOpen := false }, some .send)

/-- `HandleWebSocket` is at its send to `register`; it starts the pumps afterwards. -/
def awaits (cl : Client Msg) : Bool :=
  cl.registering && cl.reader == .notStarted && cl.writer == .notStarted

/-- The write pump leaves its loop; the connection is closed later. -/
def stopWriting (cl : Client Msg) : Client Msg := { cl with writer := .closing }

/-- The write pump after a step inside of `ping`. -/
def writerNext (cl : Client Msg) (next : Option PingPc) : Client Msg :=
  { cl with writer := match next with
      | none => .select
      | some pc => .pinging pc }

section Cases

variable {t : Thread} {cl : Client Msg} {ok : Bool} {r : Client Msg × Option PingPc}

theorem lockPing_cases (taken : cl.lockPing t = some r) :
    cl.owner = none ∧ (r = (cl, none) ∨ r = ({ cl with owner := some t }, some .write)) := by
  unfold lockPing at taken
  cases owner : cl.owner with
  | some u => simp [owner] at taken
  | none => cases closed : cl.closed <;> simp_all

theorem writePing_cases (taken : cl.writePing ok = some r) :
    ok = true ∧ r = ({ cl with owner := none }, none) ∨ ok = false ∧ r = (cl, some .closing) := by
  unfold writePing at taken
  cases ok <;> simp_all

theorem lockClose_cases {r : Client Msg × Option ClosePc} (taken : cl.lockClose t = some r) :
    cl.owner = none ∧ (cl.closed = true ∧ r = (cl, none) ∨ cl.closed = false ∧
        r = ({ cl with owner := some t, closed := true, connOpen := false }, some .send)) := by
  unfold lockClose at taken
  cases owner : cl.owner with
  | some u => simp [owner] at taken
  | none => cases closed : cl.closed <;> simp_all

end Cases

end Client

namespace Server

def setClient (s : Server Msg) (c : Nat) (cl : Client Msg) : Server Msg :=
  { s with client := Function.update s.client c cl }

inductive HubEvent (Msg : Type) where
  | register (c : Nat)
  | unregister (sender : Thread) (c : Nat)
  | lock
  | update
  | broadcast (order : List Nat)
  | handOver (message : Msg) (order : List Nat)
  | tick (order : List Nat)
  | visit (now : Int) (parked : Bool)
  | acquire
  | write (ok : Bool)
  | finish

/-- The end of a send to `unregister`, for the goroutine that sent. -/
def sent (s : Server Msg) (c : Nat) : Thread → Option (Server Msg)
  | .reader c' =>
    if c' = c ∧ (s.client c).reader = .leaving then
      some (s.setClient c { s.client c with reader := .closing })
    else none
  | .stop k =>
    match s.stops[k]? with
    | some (.closing rest c' .send) =>
      if c' = c then
        some { s.setClient c { s.client c with owner := none } with
          stops := s.stops.set k (.looping rest) }
      else none
    | _ => none
  | .hub | .writer _ => none

/-- What the hub does while it holds `s.mu` for writing. -/
def apply (s : Server Msg) : Op → Server Msg
  | .register c =>
    { s with hub := .select, clients := if s.clients.contains c then s.clients else s.clients ++ [c] }
  | .unregister c =>
    if s.clients.contains c then
      if (s.client c).send.closed then { s with hub := .crashed }
      else
        { s.setClient c { s.client c with send := { (s.client c).send with closed := true } } with
          hub := .select
          clients := s.clients.erase c }
    else { s with hub := .select }

/-- The call that the hub makes for a client in one of its loops, if any: a message that cannot be
    sent closes the client. Without a buffer the send needs a write pump that is `parked`. -/
def visitCall (cfg : Config) (s : Server Msg) (loop : Loop Msg) (c : Nat) (now : Int) (parked : Bool) :
    Option CallPc :=
  match loop with
  | .broadcast _ =>
    if (s.client c).send.buffer.length < cfg.bufferSize then none
    else if parked && (s.client c).send.buffer.isEmpty && (s.client c).writer == .select then none
    else some (.close .lock)
  | .heartbeat =>
    if cfg.pingTimeout < timeSub now (s.client c).lastPing then some (.close .lock)
    else some (.ping .lock)

/-- The client after a loop has visited it without a call. -/
def visited (cfg : Config) (loop : Loop Msg) (cl : Client Msg) : Client Msg :=
  match loop with
  | .broadcast message =>
    if cl.send.buffer.length < cfg.bufferSize then
      { cl with send := { cl.send with buffer := cl.send.buffer ++ [message] } }
    else
      { cl with writer := .opening }
  | .heartbeat => cl

def sendPanics (s : Server Msg) (loop : Loop Msg) (c : Nat) : Bool :=
  match loop with
  | .broadcast _ => (s.client c).send.closed
  | .heartbeat => false

def visit (cfg : Config) (s : Server Msg) (loop : Loop Msg) (rest : List Nat) (c : Nat) (now : Int)
    (parked : Bool) : Server Msg :=
  if s.sendPanics loop c then { s with hub := .crashed }
  else
    match visitCall cfg s loop c now parked with
    | some call => { s with hub := .calling loop rest c call }
    | none => { s.setClient c (visited cfg loop (s.client c)) with hub := .looping loop rest }

/-- The hub after a step inside of a method of `c`. -/
def hubNext (s : Server Msg) (loop : Loop Msg) (rest : List Nat) (c : Nat) (cl : Client Msg)
    (next : Option CallPc) : Server Msg :=
  { s.setClient c cl with
    hub := match next with
      | none => .looping loop rest
      | some call => .calling loop rest c call }

def hubStep (cfg : Config) (s : Server Msg) : HubEvent Msg → Option (Server Msg)
  | .register c =>
    match s.hub, (s.client c).awaits with
    | .select, true =>
      some { s.setClient c { s.client c with
          registering := false, reader := .reading, writer := .select } with
        hub := .received (.register c) }
    | _, _ => none
  | .unregister sender c =>
    match s.hub with
    | .select => (s.sent c sender).map fun s => { s with hub := .received (.unregister c) }
    | _ => none
  | .lock =>
    match s.hub with
    | .received op => some { s with hub := .locking op }
    | _ => none
  | .update =>
    match s.hub with
    | .locking op => if s.stops.any (·.reads) then none else some (s.apply op)
    | _ => none
  | .broadcast order =>
    match s.hub, s.broadcast with
    | .select, message :: rest =>
      if order.isPerm s.clients then
        some { s with hub := .looping (.broadcast message) order, broadcast := rest }
      else none
    | _, _ => none
  | .handOver message order =>
    match s.hub, s.broadcast with
    | .select, [] =>
      if order.isPerm s.clients then some { s with hub := .looping (.broadcast message) order }
      else none
    | _, _ => none
  | .tick order =>
    match s.hub with
    | .select => if order.isPerm s.clients then some { s with hub := .looping .heartbeat order } else none
    | _ => none
  | .visit now parked =>
    match s.hub with
    | .looping loop (c :: rest) => some (visit cfg s loop rest c now parked)
    | _ => none
  | .acquire =>
    match s.hub with
    | .calling loop rest c (.ping .lock) =>
      ((s.client c).lockPing .hub).map fun r => s.hubNext loop rest c r.1 (r.2.map .ping)
    | .calling loop rest c (.close .lock) =>
      ((s.client c).lockClose .hub).map fun r => s.hubNext loop rest c r.1 (r.2.map .close)
    | _ => none
  | .write ok =>
    match s.hub with
    | .calling loop rest c (.ping .write) =>
      ((s.client c).writePing ok).map fun r => s.hubNext loop rest c r.1 (r.2.map .ping)
    | _ => none
  | .finish =>
    match s.hub with
    | .looping _ [] => some { s with hub := .select }
    | _ => none

inductive StopEvent where
  | rlock (order : List Nat)
  | visit
  | acquire
  | finish

def stopStep (s : Server Msg) (k : Nat) : StopEvent → Option (Server Msg)
  | .rlock order =>
    match s.stops[k]? with
    | some .rlock =>
      if s.hub.isLocking then none
      else if order.isPerm s.clients then some { s with stops := s.stops.set k (.looping order) }
      else none
    | _ => none
  | .visit =>
    match s.stops[k]? with
    | some (.looping (c :: rest)) => some { s with stops := s.stops.set k (.closing rest c .lock) }
    | _ => none
  | .acquire =>
    match s.stops[k]? with
    | some (.closing rest c .lock) =>
      ((s.client c).lockClose (.stop k)).map fun r =>
        { s.setClient c r.1 with
          stops := s.stops.set k (match r.2 with
            | none => .looping rest
            | some pc => .closing rest c pc) }
    | _ => none
  | .finish =>
    match s.stops[k]? with
    | some (.looping []) => some { s with stops := s.stops.set k .finished }
    | _ => none

inductive ReaderEvent where
  | pong
  | update (now : Int)
  | error
  | closeConn

def readerStep (s : Server Msg) (c : Nat) (e : ReaderEvent) : Option (Server Msg) :=
  let cl := s.client c
  match e, cl.reader with
  | .pong, .reading => some (s.setClient c { cl with reader := .pong })
  | .update now, .pong =>
    if cl.owner.isSome then none
    else some (s.setClient c { cl with reader := .reading, lastPing := now })
  | .error, .reading => some (s.setClient c { cl with reader := .leaving })
  | .closeConn, .closing => some (s.setClient c { cl with reader := .finished, connOpen := false })
  | _, _ => none

inductive WriterEvent where
  | take
  | nextWriter (ok : Bool)
  | drain
  | close (ok : Bool)
  | tick
  | acquire
  | write (ok : Bool)
  | closeConn

def writerStep (s : Server Msg) (c : Nat) (e : WriterEvent) : Option (Server Msg) :=
  let cl := s.client c
  match e, cl.writer with
  | .take, .select =>
    if cl.send.buffer.isEmpty then
      if cl.send.closed then some (s.setClient c (cl.stopWriting)) else none
    else some (s.setClient c { cl with writer := .opening, send := cl.send.received })
  | .nextWriter ok, .opening =>
    some (s.setClient c (if ok then { cl with writer := .draining cl.send.buffer.length }
      else cl.stopWriting))
  | .drain, .draining (n + 1) =>
    if cl.send.ready then some (s.setClient c { cl with writer := .draining n, send := cl.send.received })
    else none
  | .close ok, .draining 0 =>
    some (s.setClient c (if ok then { cl with writer := .select } else cl.stopWriting))
  | .tick, .select => some (s.setClient c { cl with writer := .pinging .lock })
  | .acquire, .pinging .lock =>
    (cl.lockPing (.writer c)).map fun r => s.setClient c (r.1.writerNext r.2)
  | .write ok, .pinging .write =>
    (cl.writePing ok).map fun r => s.setClient c (r.1.writerNext r.2)
  | .closeConn, .closing => some (s.setClient c { cl with writer := .finished, connOpen := false })
  | _, _ => none

/-- `connect` is `HandleWebSocket` up to its send to `register`. -/
inductive Event (Msg : Type) where
  | connect (now : Int)
  | publish (message : Msg)
  | callStop
  | hub (e : HubEvent Msg)
  | stop (k : Nat) (e : StopEvent)
  | reader (c : Nat) (e : ReaderEvent)
  | writer (c : Nat) (e : WriterEvent)

def step (cfg : Config) (s : Server Msg) : Event Msg → Option (Server Msg)
  | .connect now =>
    some { s.setClient s.next { s.client s.next with registering := true, lastPing := now } with
      next := s.next + 1 }
  | .publish message =>
    if s.broadcast.length < cfg.bufferSize then some { s with broadcast := s.broadcast ++ [message] }
    else none
  | .callStop => some { s with stops := s.stops ++ [.rlock] }
  | .hub e => hubStep cfg s e
  | .stop k e => stopStep s k e
  | .reader c e => readerStep s c e
  | .writer c e => writerStep s c e

end Server

end

end Monitor.Websocket
