import Monitor.Lib.Slots
import Monitor.Lib.Runs

/-! # The connections of the epoll server

`epoll_server.c`: the table of connections, its counters and the functions that change them,
taken one at a time. A slot is free when its descriptor is -1. Descriptors that the kernel
hands out are natural numbers, those a caller passes are any. What is read and sent and whether
the system calls succeed is part of an event. Addresses, callbacks and log lines are left out,
since nothing here depends on them.
-/

namespace Monitor.Epoll

open Slots

/-- `BUFFER_SIZE`. -/
def bufferSize : Nat := 8192

/-- `MAX_THREADS`. -/
def maxThreads : Int32 := 8

inductive ConnectionState where
  | connected
  | disconnected
  deriving DecidableEq, Repr

/-- The results of the interface, `EPOLL_SERVER_SUCCESS` and so on. -/
inductive Code where
  | success
  | invalidParam
  deriving DecidableEq, Repr

/-- `connection_t`. -/
structure Connection where
  fd : Int
  buffer : List UInt8
  bufferLen : Int
  state : ConnectionState
  connectTime : Int
  lastActivity : Int
  bytesSent : UInt64
  bytesReceived : UInt64
  messagesSent : UInt64
  messagesReceived : UInt64
  deriving DecidableEq

/-- `server_stats_t`. -/
structure Stats where
  totalConnections : UInt64
  activeConnections : UInt64
  totalBytesSent : UInt64
  totalBytesReceived : UInt64
  totalMessages : UInt64
  startTime : Int
  deriving DecidableEq

/-- `epoll_server_t`. Two things that the source does not keep are recorded as well: `writes` has
    every index at which a connection's buffer was written, and `wrapped` says that the count of
    active connections was lowered at zero. -/
structure Server where
  connections : List Connection
  stats : Stats
  maxBufferSize : Int
  writes : List Int
  wrapped : Bool
  deriving DecidableEq

/-- A slot as `memset` and the loop after it leave it. -/
def emptySlot : Connection where
  fd := -1
  buffer := List.replicate bufferSize 0
  bufferLen := 0
  state := .disconnected
  connectTime := 0
  lastActivity := 0
  bytesSent := 0
  bytesReceived := 0
  messagesSent := 0
  messagesReceived := 0

def zeroStats (now : Int) : Stats := ⟨0, 0, 0, 0, 0, now⟩

/-- `LFQ_MAX_CONNECTIONS`, the most that `lfq_init` takes. -/
def lfqMaxConnections : Int32 := 4096

/-- `epoll_server_create_with_config`, where memory and sockets are to be had. -/
def createWithConfig (port maxConnections threadCount : Int32) (now : Int) : Option Server :=
  if port ≤ 0 ∨ maxConnections ≤ 0 ∨ threadCount ≤ 0 ∨ threadCount > maxThreads then
    none
  else if maxConnections > lfqMaxConnections then
    none
  else
    some
      { connections := List.replicate maxConnections.toInt.toNat emptySlot
        stats := zeroStats now
        maxBufferSize := bufferSize
        writes := []
        wrapped := false }

def oneSlot : Server where
  connections := [emptySlot]
  stats := zeroStats 0
  maxBufferSize := bufferSize
  writes := []
  wrapped := false

/-- How far the system calls for a new descriptor get. -/
inductive Setup where
  | nonblockingFails
  | optionsFail
  | epollFails
  | done
  deriving DecidableEq, Repr

def Connection.open (clientFd : Nat) (now : Int) (conn : Connection) : Connection :=
  { conn with
    fd := clientFd
    bufferLen := 0
    state := .connected
    connectTime := now
    lastActivity := now
    bytesSent := 0
    bytesReceived := 0
    messagesSent := 0
    messagesReceived := 0 }

def Connection.clear (conn : Connection) : Connection :=
  { conn with fd := -1, state := .disconnected, bufferLen := 0 }

/-- The part of `update_connection_stats` that is about the connection. -/
def Connection.count (bytesSent bytesReceived : Nat) (now : Int) (conn : Connection) : Connection :=
  { conn with
    lastActivity := now
    bytesSent := if bytesSent > 0 then conn.bytesSent + UInt64.ofNat bytesSent else conn.bytesSent
    messagesSent := if bytesSent > 0 then conn.messagesSent + 1 else conn.messagesSent
    bytesReceived :=
      if bytesReceived > 0 then conn.bytesReceived + UInt64.ofNat bytesReceived else conn.bytesReceived
    messagesReceived := if bytesReceived > 0 then conn.messagesReceived + 1 else conn.messagesReceived }

def Stats.count (bytesSent bytesReceived : Nat) (stats : Stats) : Stats :=
  { stats with
    totalBytesSent :=
      if bytesSent > 0 then stats.totalBytesSent + UInt64.ofNat bytesSent else stats.totalBytesSent
    totalBytesReceived :=
      if bytesReceived > 0 then stats.totalBytesReceived + UInt64.ofNat bytesReceived
      else stats.totalBytesReceived
    totalMessages := if bytesReceived > 0 then stats.totalMessages + 1 else stats.totalMessages }

/-- How many bytes of a chunk are appended to the buffer, `copy_len`; nothing is written where this
    is zero. -/
def Connection.copyLen (maxBufferSize : Int) (chunk : List UInt8) (conn : Connection) : Nat :=
  let remaining := maxBufferSize - conn.bufferLen - 1
  if remaining > 0 then (min (chunk.length : Int) remaining).toNat else 0

/-- Bytes stored one after the other from an index on, by `memcpy`. A write outside of the buffer
    does not show in it. -/
def store (buffer : List UInt8) (start : Int) (bytes : List UInt8) : List UInt8 :=
  bytes.zipIdx.foldl (fun buffer (byte, i) => buffer.set (start + i).toNat byte) buffer

/-- The connection after a chunk: the bytes that are copied and the zero that ends them. -/
def Connection.append (maxBufferSize : Int) (chunk : List UInt8) (conn : Connection) : Connection :=
  let copyLen := conn.copyLen maxBufferSize chunk
  if copyLen > 0 then
    { conn with
      buffer := store conn.buffer conn.bufferLen (chunk.take copyLen ++ [0])
      bufferLen := conn.bufferLen + copyLen }
  else
    conn

/-- The indices written for a chunk, the one of the zero last. -/
def Connection.written (maxBufferSize : Int) (chunk : List UInt8) (conn : Connection) : List Int :=
  let copyLen := conn.copyLen maxBufferSize chunk
  if copyLen > 0 then (List.range (copyLen + 1)).map fun i : Nat => conn.bufferLen + i else []

theorem Connection.append_fd (maxBufferSize : Int) (chunk : List UInt8) (conn : Connection) :
    (conn.append maxBufferSize chunk).fd = conn.fd := by
  simp only [Connection.append]
  split <;> rfl

namespace Server

variable (s : Server)

/-- `initialize_client_connection`; without a result where it returns -1. -/
def initializeClientConnection (clientFd : Nat) (setup : Setup) (now : Int) : Option Server :=
  if setup ≠ .done then
    none
  else
    (modifyFirst (·.fd = -1) (Connection.open clientFd now) s.connections).map fun connections =>
      { s with
        connections := connections
        stats :=
          { s.stats with
            totalConnections := s.stats.totalConnections + 1
            activeConnections := s.stats.activeConnections + 1 } }

/-- `handle_client_disconnect`. -/
def handleClientDisconnect (fd : Int) : Server :=
  match modifyFirst (·.fd = fd) Connection.clear s.connections with
  | none => s
  | some connections =>
    { s with
      connections := connections
      stats := { s.stats with activeConnections := s.stats.activeConnections - 1 }
      wrapped := s.wrapped || s.stats.activeConnections == 0 }

/-- `epoll_server_close_connection`. -/
def closeConnection (fd : Int) : Code × Server :=
  if fd < 0 then (.invalidParam, s) else (.success, s.handleClientDisconnect fd)

/-- The body of the loop in `epoll_server_check_inactive_connections`, for one slot. -/
def checkSlot (timeout now : Int) (acc : Int × Server) (i : Nat) : Int × Server :=
  match acc.2.connections[i]? with
  | none => acc
  | some conn =>
    if conn.fd ≠ -1 ∧ conn.state = .connected ∧ now - conn.lastActivity > timeout then
      (acc.1 + 1, (acc.2.closeConnection conn.fd).2)
    else
      acc

/-- `epoll_server_check_inactive_connections`, with the count of connections it closed. -/
def checkInactiveConnections (timeout now : Int) : Except Code Int × Server :=
  if timeout ≤ 0 then
    (.error .invalidParam, s)
  else
    let (closed, after) := (List.range s.connections.length).foldl (checkSlot timeout now) (0, s)
    (.ok closed, after)

theorem checkInactiveConnections_induction {P : Server → Prop} {s : Server} (holds : P s)
    (closed : ∀ s fd, P s → P (closeConnection s fd).2) (timeout now : Int) :
    P (s.checkInactiveConnections timeout now).2 := by
  unfold checkInactiveConnections
  split
  · exact holds
  · refine List.foldlRecOn (motive := fun acc : Int × Server => P acc.2) _ _ holds fun acc holds i _ => ?_
    unfold checkSlot
    cases acc.2.connections[i]? with
    | none => exact holds
    | some conn =>
      simp only
      split
      · exact closed _ _ holds
      · exact holds

/-- `epoll_server_reset_stats`. -/
def resetStats (now : Int) : Server := { s with stats := zeroStats now }

/-- `epoll_server_set_buffer_size`. -/
def setBufferSize (size : Int) : Code × Server :=
  if size ≤ 0 then (.invalidParam, s) else (.success, { s with maxBufferSize := size })

/-- `update_connection_stats`. -/
def updateConnectionStats (fd : Int) (bytesSent bytesReceived : Nat) (now : Int) : Server :=
  match modifyFirst (·.fd = fd) (Connection.count bytesSent bytesReceived now) s.connections with
  | none => s
  | some connections => { s with connections := connections, stats := s.stats.count bytesSent bytesReceived }

def slot (fd : Int) : Option Connection := s.connections.find? (·.fd = fd)

/-- `handle_client_data` with what is there to receive, at most one byte less than a buffer of which
    is taken; nothing stands for an error. -/
def handleClientData (fd : Nat) (received : Option (List UInt8)) (now : Int) : Server :=
  match (received.getD []).take (bufferSize - 1) with
  | [] => s.handleClientDisconnect fd
  | byte :: rest =>
    let chunk := byte :: rest
    match modifyFirst (·.fd = (fd : Int)) (Connection.append s.maxBufferSize chunk) s.connections with
    | none => s
    | some connections =>
      { s with
        connections := connections
        writes := s.writes ++ (s.slot fd).elim [] (Connection.written s.maxBufferSize chunk)
      }.updateConnectionStats fd 0 chunk.length now

/-- `epoll_server_send_data` for a text that is not empty; `sent` is what `send` returns where it
    is not an error. -/
def sendData (fd : Int) (sent : Nat) (now : Int) : Server :=
  if fd < 0 ∨ sent = 0 then s else s.updateConnectionStats fd sent 0 now

end Server

inductive Event where
  | connect (clientFd : Nat) (setup : Setup) (now : Int)
  | data (fd : Nat) (received : Option (List UInt8)) (now : Int)
  | disconnect (fd : Nat)
  | close (fd : Int)
  | checkInactive (timeout now : Int)
  | resetStats (now : Int)
  | setBufferSize (size : Int)
  | send (fd : Int) (sent : Nat) (now : Int)

def Server.after (s : Server) : Event → Server
  | .connect clientFd setup now => (s.initializeClientConnection clientFd setup now).getD s
  | .data fd received now => s.handleClientData fd received now
  | .disconnect fd => s.handleClientDisconnect fd
  | .close fd => (s.closeConnection fd).2
  | .checkInactive timeout now => (s.checkInactiveConnections timeout now).2
  | .resetStats now => s.resetStats now
  | .setBufferSize size => (s.setBufferSize size).2
  | .send fd sent now => s.sendData fd sent now

def Server.step (s : Server) (e : Event) : Option Server := some (s.after e)

end Monitor.Epoll
