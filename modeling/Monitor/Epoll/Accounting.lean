import Monitor.Epoll.Server

/-! # The count of active connections

Every function that takes or frees a slot changes the count with it, but resetting the
statistics sets the count to zero and leaves the table as it is. From then on the count is too
small by the connections that were open, and when these end it is lowered below zero.
-/

namespace Monitor.Epoll

open Slots Runs List

def Connection.inUse (conn : Connection) : Bool := conn.fd != -1

namespace Server

variable {s s' : Server}

def openSlots (s : Server) : Nat := s.connections.countP Connection.inUse

/-- The count is that of the slots in use, and it was never lowered at zero. -/
structure Accounted (s : Server) : Prop where
  active : s.stats.activeConnections.toNat = s.openSlots
  unwrapped : s.wrapped = false

/-- Statistics are reset only when no slot is in use. -/
def ResetsIdle (s : Server) : Event → Prop
  | .resetStats _ => s.openSlots = 0
  | _ => True

def Addressable (s : Server) : Prop := s.connections.length < 2 ^ 64

/-- What the functions that neither open nor close a connection leave as it is. -/
structure Keeps (s s' : Server) : Prop where
  openSlots : s'.openSlots = s.openSlots
  active : s'.stats.activeConnections = s.stats.activeConnections
  wrapped : s'.wrapped = s.wrapped

theorem Accounted.keeps (accounted : s.Accounted) (keeps : Keeps s s') : s'.Accounted where
  active := by rw [keeps.active, keeps.openSlots, accounted.active]
  unwrapped := keeps.wrapped.trans accounted.unwrapped

theorem Keeps.trans {s'' : Server} (first : Keeps s s') (second : Keeps s' s'') : Keeps s s'' where
  openSlots := second.openSlots.trans first.openSlots
  active := second.active.trans first.active
  wrapped := second.wrapped.trans first.wrapped

theorem updateConnectionStats_keeps (s : Server) (fd : Int) (bytesSent bytesReceived : Nat) (now : Int) :
    Keeps s (s.updateConnectionStats fd bytesSent bytesReceived now) := by
  unfold updateConnectionStats
  cases changed : modifyFirst (·.fd = fd) (Connection.count bytesSent bytesReceived now) s.connections with
  | none => exact ⟨rfl, rfl, rfl⟩
  | some connections => exact ⟨countP_modifyFirst_same changed fun _ _ => rfl, rfl, rfl⟩

theorem Accounted.initialized (accounted : s.Accounted) (fits : s.Addressable) {clientFd : Nat}
    {setup : Setup}
    {now : Int} (done : s.initializeClientConnection clientFd setup now = some s') : s'.Accounted := by
  simp only [initializeClientConnection, ite_eq_iff, reduceCtorEq, and_false, false_or,
    Option.map_eq_some_iff] at done
  obtain ⟨_, connections, changed, same⟩ := done
  subst same
  have more : connections.countP Connection.inUse = s.openSlots + 1 :=
    countP_modifyFirst_up changed (fun conn free => by simpa [Connection.inUse] using free)
      fun conn _ => by simp [Connection.inUse, Connection.open]
  have bound : s.openSlots + 1 ≤ s.connections.length := by
    rw [← more, ← modifyFirst_length changed]
    exact countP_le_length
  refine ⟨?_, accounted.unwrapped⟩
  have small : s.openSlots + 1 < 2 ^ 64 := bound.trans_lt fits
  change (s.stats.activeConnections + 1).toNat = connections.countP Connection.inUse
  rw [more, UInt64.toNat_add, accounted.active]
  exact Nat.mod_eq_of_lt small

theorem Accounted.disconnected (accounted : s.Accounted) {fd : Int} (valid : fd ≠ -1) :
    (s.handleClientDisconnect fd).Accounted := by
  unfold handleClientDisconnect
  cases changed : modifyFirst (·.fd = fd) Connection.clear s.connections with
  | none => exact accounted
  | some connections =>
    have fewer : s.openSlots = connections.countP Connection.inUse + 1 :=
      countP_modifyFirst_down changed (fun conn same => by simp_all [Connection.inUse])
        fun conn _ => rfl
    have active : s.stats.activeConnections.toNat = connections.countP Connection.inUse + 1 :=
      accounted.active.trans fewer
    have pos : (1 : UInt64) ≤ s.stats.activeConnections := by
      rw [UInt64.le_iff_toNat_le, active]
      exact Nat.le_add_left 1 _
    constructor
    · rw [UInt64.toNat_sub_of_le _ _ pos, active]
      rfl
    · have nonzero : (s.stats.activeConnections == 0) = false := by
        rw [beq_eq_false_iff_ne]
        intro zero
        rw [zero] at active
        cases active
      rw [accounted.unwrapped, nonzero]
      rfl

theorem Accounted.closed (accounted : s.Accounted) (fd : Int) : (s.closeConnection fd).2.Accounted := by
  unfold closeConnection
  split
  · exact accounted
  · exact accounted.disconnected (by omega)

theorem Accounted.swept (accounted : s.Accounted) (timeout now : Int) :
    (s.checkInactiveConnections timeout now).2.Accounted :=
  checkInactiveConnections_induction accounted (fun _ fd holds => holds.closed fd) timeout now

theorem Accounted.received (accounted : s.Accounted) (fd : Nat) (received : Option (List UInt8)) (now : Int) :
    (s.handleClientData fd received now).Accounted := by
  unfold handleClientData
  split
  · exact accounted.disconnected (by omega)
  · rename_i byte rest _
    simp only
    cases changed : modifyFirst (·.fd = (fd : Int)) (Connection.append s.maxBufferSize (byte :: rest))
        s.connections with
    | none => exact accounted
    | some connections =>
      have same : connections.countP Connection.inUse = s.openSlots :=
        countP_modifyFirst_same changed fun conn _ => by
          rw [Connection.inUse, Connection.append_fd, Connection.inUse]
      have appended : Keeps s
          { s with
            connections := connections
            writes := s.writes ++ (s.slot fd).elim [] (Connection.written s.maxBufferSize
              (byte :: rest)) } :=
        ⟨same, rfl, rfl⟩
      exact accounted.keeps (appended.trans (updateConnectionStats_keeps ..))

theorem handleClientDisconnect_length (s : Server) (fd : Int) :
    (s.handleClientDisconnect fd).connections.length = s.connections.length := by
  unfold handleClientDisconnect
  cases changed : modifyFirst (·.fd = fd) Connection.clear s.connections with
  | none => rfl
  | some connections => exact modifyFirst_length changed

theorem updateConnectionStats_length (s : Server) (fd : Int) (bytesSent bytesReceived : Nat) (now : Int) :
    (s.updateConnectionStats fd bytesSent bytesReceived now).connections.length = s.connections.length := by
  unfold updateConnectionStats
  cases changed : modifyFirst (·.fd = fd) (Connection.count bytesSent bytesReceived now) s.connections with
  | none => rfl
  | some connections => exact modifyFirst_length changed

theorem closeConnection_length (s : Server) (fd : Int) :
    (s.closeConnection fd).2.connections.length = s.connections.length := by
  unfold closeConnection
  split
  · rfl
  · exact s.handleClientDisconnect_length fd

theorem checkInactiveConnections_length (s : Server) (timeout now : Int) :
    (s.checkInactiveConnections timeout now).2.connections.length = s.connections.length := by
  have loop : ∀ (slots : List Nat) (acc : Int × Server),
      (slots.foldl (checkSlot timeout now) acc).2.connections.length = acc.2.connections.length := by
    intro slots
    induction slots with
    | nil => exact fun _ => rfl
    | cons i slots ih =>
      intro acc
      rw [foldl_cons, ih]
      unfold checkSlot
      cases acc.2.connections[i]? with
      | none => rfl
      | some conn =>
        simp only
        split
        · exact acc.2.closeConnection_length conn.fd
        · rfl
  unfold checkInactiveConnections
  split
  · rfl
  · exact loop _ (0, s)

theorem handleClientData_length (s : Server) (fd : Nat) (received : Option (List UInt8)) (now : Int) :
    (s.handleClientData fd received now).connections.length = s.connections.length := by
  unfold handleClientData
  split
  · exact s.handleClientDisconnect_length fd
  · simp only
    split
    · rfl
    · rename_i changed
      rw [updateConnectionStats_length]
      exact modifyFirst_length changed

theorem after_length (s : Server) (e : Event) : (s.after e).connections.length = s.connections.length := by
  cases e with
  | connect clientFd setup now =>
    simp only [after]
    cases done : s.initializeClientConnection clientFd setup now with
    | none => rfl
    | some s' =>
      simp only [initializeClientConnection, ite_eq_iff, reduceCtorEq, and_false, false_or,
        Option.map_eq_some_iff] at done
      obtain ⟨_, connections, changed, same⟩ := done
      subst same
      exact modifyFirst_length changed
  | data fd received now => exact s.handleClientData_length fd received now
  | disconnect fd => exact s.handleClientDisconnect_length fd
  | close fd => exact s.closeConnection_length fd
  | checkInactive timeout now => exact s.checkInactiveConnections_length timeout now
  | resetStats now => rfl
  | setBufferSize size =>
    simp only [after, setBufferSize]
    split <;> rfl
  | send fd sent now =>
    simp only [after, sendData]
    split
    · rfl
    · exact s.updateConnectionStats_length fd sent 0 now

theorem Accounted.after_iff (accounted : s.Accounted) (fits : s.Addressable) (e : Event) :
    (s.after e).Accounted ↔ s.ResetsIdle e := by
  cases e with
  | resetStats now =>
    constructor
    · exact fun kept => kept.active.symm
    · exact fun idle => ⟨idle.symm, accounted.unwrapped⟩
  | connect clientFd setup now =>
    refine iff_of_true ?_ trivial
    simp only [after]
    cases done : s.initializeClientConnection clientFd setup now with
    | none => exact accounted
    | some s' => exact accounted.initialized fits done
  | data fd received now => exact iff_of_true (accounted.received fd received now) trivial
  | disconnect fd => exact iff_of_true (accounted.disconnected (by omega)) trivial
  | close fd => exact iff_of_true (accounted.closed fd) trivial
  | checkInactive timeout now => exact iff_of_true (accounted.swept timeout now) trivial
  | setBufferSize size =>
    refine iff_of_true ?_ trivial
    simp only [after, setBufferSize]
    split
    · exact accounted
    · exact ⟨accounted.active, accounted.unwrapped⟩
  | send fd sent now =>
    refine iff_of_true ?_ trivial
    simp only [after, sendData]
    split
    · exact accounted
    · exact accounted.keeps (updateConnectionStats_keeps ..)

end Server

open Server

theorem createWithConfig_accounted {port maxConnections threadCount : Int32} {now : Int} {server : Server}
    (made : createWithConfig port maxConnections threadCount now = some server) :
    server.Accounted ∧ server.Addressable := by
  simp only [createWithConfig, ite_eq_iff, reduceCtorEq, and_false, false_or, Option.some.injEq] at made
  obtain ⟨_, _, same⟩ := made
  subst same
  have small : maxConnections.toInt.toNat < 2 ^ 64 := by
    have bound := maxConnections.toInt_lt
    omega
  constructor
  · exact ⟨by simp [openSlots, zeroStats, countP_replicate, Connection.inUse, emptySlot], rfl⟩
  · simpa [Addressable] using small

/-- For every server and every sequence of calls: the count of active connections is always that of
    the slots in use, and never lowered at zero, exactly when the statistics are only reset while
    no slot is in use. -/
theorem accounted_iff_resetsIdle {port maxConnections threadCount : Int32} {now : Int} {server : Server}
    (made : createWithConfig port maxConnections threadCount now = some server) (events : List Event) :
    Throughout step Accounted server events ↔ EachStep step ResetsIdle server events := by
  obtain ⟨accounted, fits⟩ := createWithConfig_accounted made
  apply throughout_iff Addressable _ _ events fits accounted
  · intro s e s' fits _ taken _
    cases taken
    rw [Addressable, after_length]
    exact fits
  · intro s e s' fits accounted taken
    cases taken
    exact accounted.after_iff fits e

instance (s : Server) (e : Event) : Decidable (s.ResetsIdle e) := by
  unfold ResetsIdle
  split
  · infer_instance
  · infer_instance

def twoSlots : Server := { oneSlot with connections := [emptySlot, emptySlot] }

/-- The statistics are reset when both connections have ended. -/
theorem accounted_iff_resetsIdle_twoSlots : createWithConfig 8080 2 1 0 = some twoSlots ∧
    Throughout step Accounted twoSlots
      [.connect 5 .done 0, .connect 6 .done 1, .close 5, .disconnect 6, .resetStats 2, .connect 5 .done 3] := by
  have made : createWithConfig 8080 2 1 0 = some twoSlots := rfl
  exact ⟨made, (accounted_iff_resetsIdle made _).mpr (by decide +kernel)⟩

/-- A connection, a reset, and the end of the connection. -/
def resetWhileOpen : List Event := [.connect 5 .done 0, .resetStats 1, .disconnect 5]

theorem resetWhileOpen_wraps : createWithConfig 8080 1 1 0 = some oneSlot ∧
    ¬ Throughout step Accounted oneSlot resetWhileOpen := by
  refine ⟨rfl, not_throughout rfl fun accounted => ?_⟩
  exact Bool.noConfusion accounted.unwrapped

end Monitor.Epoll
