import Monitor.Epoll.Server

/-! # Writing to the buffers of connections

A chunk is appended up to the limit of `epoll_server_set_buffer_size`, which takes any positive
size, while the buffers have a fixed one. Every function other than the one that receives data
leaves the lengths as they are or sets one to zero.
-/

namespace Monitor.Epoll

open Slots Runs List Option

namespace Server

variable {s s' : Server}

/-- Every write was inside of the buffers, and so is the end of what they hold. -/
structure InBounds (s : Server) : Prop where
  writes : ∀ i ∈ s.writes, 0 ≤ i ∧ i < bufferSize
  lengths : ∀ conn ∈ s.connections, 0 ≤ conn.bufferLen ∧ conn.bufferLen < bufferSize

/-- A chunk is received under a limit that is not above the size of the buffers, or fits behind
    what the buffer holds already. -/
def Fits (s : Server) : Event → Prop
  | .data fd received _ =>
    s.maxBufferSize ≤ bufferSize ∨
      ∀ conn, s.slot fd = some conn →
        conn.bufferLen + ((received.getD []).take (bufferSize - 1)).length < bufferSize
  | _ => True

/-- Nothing is written, and a length only changes to zero. -/
structure Confined (s s' : Server) : Prop where
  writes : s'.writes = s.writes
  lengths : ∀ conn' ∈ s'.connections, conn'.bufferLen = 0 ∨
    ∃ conn ∈ s.connections, conn'.bufferLen = conn.bufferLen

theorem Confined.refl (s : Server) : Confined s s := ⟨rfl, fun conn mem => .inr ⟨conn, mem, rfl⟩⟩

theorem Confined.trans {s'' : Server} (first : Confined s s')
    (second : Confined s' s'') : Confined s s'' where
  writes := second.writes.trans first.writes
  lengths conn'' mem := by
    cases second.lengths conn'' mem with
    | inl zero => exact .inl zero
    | inr kept =>
      obtain ⟨conn', mem', same⟩ := kept
      exact same ▸ first.lengths conn' mem'

theorem InBounds.confined (bounds : s.InBounds) (confined : Confined s s') : s'.InBounds where
  writes := confined.writes ▸ bounds.writes
  lengths conn' mem := by
    cases confined.lengths conn' mem with
    | inl zero => simp [zero, bufferSize]
    | inr kept =>
      obtain ⟨conn, mem', same⟩ := kept
      exact same ▸ bounds.lengths conn mem'

theorem Confined.modified {p : Connection → Bool} {f : Connection → Connection}
    {connections : List Connection} (changed : modifyFirst p f s.connections = some connections)
    (lengths : ∀ conn, (f conn).bufferLen = 0 ∨ (f conn).bufferLen = conn.bufferLen)
    (table : s'.connections = connections) (writes : s'.writes = s.writes) : Confined s s' := by
  refine ⟨writes, ?_⟩
  rw [table]
  have each := (forall_modifyFirst (P := fun conn' : Connection => conn'.bufferLen = 0 ∨
    ∃ conn ∈ s.connections, conn'.bufferLen = conn.bufferLen) changed (Confined.refl s).lengths).mpr
  refine each fun conn found => (lengths conn).imp_right fun same => ?_
  exact ⟨conn, mem_of_find?_eq_some found, same⟩

theorem handleClientDisconnect_confined (s : Server) (fd : Int) : Confined s
    (s.handleClientDisconnect fd) := by
  unfold handleClientDisconnect
  cases changed : modifyFirst (·.fd = fd) Connection.clear s.connections with
  | none => exact .refl s
  | some connections => exact .modified changed (fun _ => .inl rfl) rfl rfl

theorem closeConnection_confined (s : Server) (fd : Int) : Confined s (s.closeConnection fd).2 := by
  unfold closeConnection
  split
  · exact .refl s
  · exact s.handleClientDisconnect_confined fd

theorem checkInactiveConnections_confined (s : Server) (timeout now : Int) :
    Confined s (s.checkInactiveConnections timeout now).2 :=
  checkInactiveConnections_induction (.refl s)
    (fun after fd confined => confined.trans (after.closeConnection_confined fd)) timeout now

theorem initializeClientConnection_confined {clientFd : Nat} {setup : Setup} {now : Int}
    (done : s.initializeClientConnection clientFd setup now = some s') : Confined s s' := by
  simp only [initializeClientConnection, ite_eq_iff, reduceCtorEq, and_false, false_or,
    map_eq_some_iff] at done
  obtain ⟨_, connections, changed, same⟩ := done
  subst same
  exact .modified changed (fun _ => .inl rfl) rfl rfl

theorem updateConnectionStats_confined (s : Server) (fd : Int) (bytesSent bytesReceived : Nat) (now : Int) :
    Confined s (s.updateConnectionStats fd bytesSent bytesReceived now) := by
  unfold updateConnectionStats
  cases changed : modifyFirst (·.fd = fd) (Connection.count bytesSent bytesReceived now) s.connections with
  | none => exact .refl s
  | some connections => exact .modified changed (fun _ => .inr rfl) rfl rfl

theorem updateConnectionStats_inBounds (s : Server) (fd : Int) (bytesSent bytesReceived : Nat) (now : Int) :
    (s.updateConnectionStats fd bytesSent bytesReceived now).InBounds ↔ s.InBounds := by
  refine ⟨fun bounds => ?_, fun bounds => bounds.confined (s.updateConnectionStats_confined ..)⟩
  unfold updateConnectionStats at bounds
  cases changed : modifyFirst (·.fd = fd) (Connection.count bytesSent bytesReceived now) s.connections with
  | none =>
    rw [changed] at bounds
    exact bounds
  | some connections =>
    rw [changed] at bounds
    have lengths : connections.map Connection.bufferLen = s.connections.map Connection.bufferLen :=
      map_modifyFirst changed fun _ => rfl
    refine ⟨bounds.writes, fun conn mem => ?_⟩
    have listed : conn.bufferLen ∈ connections.map Connection.bufferLen :=
      lengths ▸ mem_map_of_mem mem
    obtain ⟨conn', mem', same⟩ := mem_map.mp listed
    exact same ▸ bounds.lengths conn' mem'

end Server

namespace Connection

variable {conn : Connection} {chunk : List UInt8} {maxBufferSize : Int}

theorem count_bufferLen (bytesSent bytesReceived : Nat) (now : Int) (conn : Connection) :
    (conn.count bytesSent bytesReceived now).bufferLen = conn.bufferLen := rfl

theorem append_bufferLen (maxBufferSize : Int) (chunk : List UInt8) (conn : Connection) :
    (conn.append maxBufferSize chunk).bufferLen = conn.bufferLen + conn.copyLen maxBufferSize chunk := by
  simp only [append]
  split
  · rfl
  · have none : conn.copyLen maxBufferSize chunk = 0 := by omega
    simp [none]

theorem written_inside (low : 0 ≤ conn.bufferLen)
    (lt : conn.bufferLen + conn.copyLen maxBufferSize chunk < bufferSize) :
    ∀ i ∈ conn.written maxBufferSize chunk, 0 ≤ i ∧ i < bufferSize := by
  intro i mem
  simp only [written] at mem
  split at mem
  · obtain ⟨k, below, same⟩ := mem_map.mp mem
    have bound := mem_range.mp below
    omega
  · cases mem

theorem copy_inside_iff (high : conn.bufferLen < bufferSize) :
    conn.bufferLen + conn.copyLen maxBufferSize chunk < bufferSize ↔
      maxBufferSize ≤ bufferSize ∨ conn.bufferLen + chunk.length < bufferSize := by
  simp only [copyLen]
  split <;> omega

end Connection

namespace Server

variable {s : Server}

theorem handleClientData_slot {fd : Nat} {received : Option (List UInt8)} (now : Int) {conn : Connection}
    {byte : UInt8} {rest : List UInt8} (found : s.slot fd = some conn)
    (taken : (received.getD []).take (bufferSize - 1) = byte :: rest) :
    (s.handleClientData fd received now).slot fd =
        some ((conn.append s.maxBufferSize (byte :: rest)).count 0 (byte :: rest).length now) ∧
      (s.handleClientData fd received now).maxBufferSize = s.maxBufferSize := by
  obtain ⟨connections, changed⟩ := modifyFirst_of_find? (f := Connection.append s.maxBufferSize
    (byte :: rest)) found
  have appended : connections.find? (·.fd = (fd : Int)) = some
    (conn.append s.maxBufferSize (byte :: rest)) := by
    rw [find?_modifyFirst changed fun a => by rw [Connection.append_fd]]
    exact congrArg _ found
  obtain ⟨connections', counted⟩ :=
    modifyFirst_of_find? (f := Connection.count 0 (byte :: rest).length now) appended
  simp only [handleClientData, taken, changed, updateConnectionStats, counted, slot, and_true]
  rw [find?_modifyFirst counted fun a => rfl, appended, map_some]

theorem InBounds.received_iff (bounds : s.InBounds) (fd : Nat) (received : Option (List UInt8)) (now : Int) :
    (s.handleClientData fd received now).InBounds ↔ s.Fits (.data fd received now) := by
  have lt : ∀ conn, s.slot fd = some conn → 0 ≤ conn.bufferLen ∧ conn.bufferLen < bufferSize :=
    fun conn found => bounds.lengths conn (mem_of_find?_eq_some found)
  simp only [handleClientData, Fits]
  split
  · rename_i nothing
    rw [nothing]
    refine iff_of_true (bounds.confined (s.handleClientDisconnect_confined fd)) (.inr fun conn found => ?_)
    simpa using (lt conn found).2
  · rename_i byte rest taken
    rw [taken]
    cases changed : modifyFirst (·.fd = (fd : Int)) (Connection.append s.maxBufferSize (byte :: rest))
        s.connections with
    | none =>
      refine iff_of_true bounds (.inr fun conn found => ?_)
      obtain ⟨_, changed'⟩ :=
        modifyFirst_of_find? (f := Connection.append s.maxBufferSize (byte :: rest)) found
      cases changed.symm.trans changed'
    | some connections =>
      simp only [updateConnectionStats_inBounds]
      obtain ⟨_, conn, _, _, _, _, found⟩ := modifyFirst_split changed
      obtain ⟨low, high⟩ := lt conn found
      have slot : s.slot fd = some conn := found
      simp only [slot, some.injEq, forall_eq']
      rw [← Connection.copy_inside_iff high]
      have lengths := forall_modifyFirst
        (P := fun conn : Connection => 0 ≤ conn.bufferLen ∧
          conn.bufferLen < bufferSize) changed bounds.lengths
      simp only [found, some.injEq, forall_eq', Connection.append_bufferLen] at lengths
      constructor
      · exact fun after => (lengths.mp after.lengths).2
      · intro room
        refine ⟨fun i mem => ?_, lengths.mpr ⟨by omega, room⟩⟩
        cases mem_append.mp mem with
        | inl before => exact bounds.writes i before
        | inr now => exact Connection.written_inside low room i now

theorem InBounds.after_iff (bounds : s.InBounds) (e : Event) : (s.after e).InBounds ↔ s.Fits e := by
  cases e with
  | data fd received now => exact bounds.received_iff fd received now
  | connect clientFd setup now =>
    refine iff_of_true ?_ trivial
    simp only [after]
    cases done : s.initializeClientConnection clientFd setup now with
    | none => exact bounds
    | some s' => exact bounds.confined (initializeClientConnection_confined done)
  | disconnect fd => exact iff_of_true (bounds.confined (s.handleClientDisconnect_confined fd)) trivial
  | close fd => exact iff_of_true (bounds.confined (s.closeConnection_confined fd)) trivial
  | checkInactive timeout now =>
    exact iff_of_true (bounds.confined (s.checkInactiveConnections_confined timeout now)) trivial
  | resetStats now => exact iff_of_true ⟨bounds.writes, bounds.lengths⟩ trivial
  | setBufferSize size =>
    refine iff_of_true ?_ trivial
    simp only [after, setBufferSize]
    split
    · exact bounds
    · exact ⟨bounds.writes, bounds.lengths⟩
  | send fd sent now =>
    refine iff_of_true ?_ trivial
    simp only [after, sendData]
    split
    · exact bounds
    · exact bounds.confined (s.updateConnectionStats_confined ..)

end Server

open Server

theorem throughout_after {P : Server → Prop} {s : Server} {e : Event} {es : List Event}
    (all : Throughout step P s (e :: es)) : Throughout step P (s.after e) es := all.2 _ rfl

theorem createWithConfig_inBounds {port maxConnections threadCount : Int32} {now : Int} {server : Server}
    (made : createWithConfig port maxConnections threadCount now = some server) : server.InBounds := by
  simp only [createWithConfig, ite_eq_iff, reduceCtorEq, and_false, false_or, some.injEq] at made
  obtain ⟨_, _, same⟩ := made
  subst same
  refine ⟨fun i mem => ?_, fun conn mem => ?_⟩
  · cases mem
  · rw [eq_of_mem_replicate mem]
    exact ⟨le_rfl, (by decide : (0 : Int) < bufferSize)⟩

/-- For every server and every sequence of calls: all writes to the buffers of connections, and all
    lengths, stay inside of them exactly when every chunk is received under a limit that is not above
    their size or fits behind what is there. -/
theorem inBounds_iff_fits {port maxConnections threadCount : Int32} {now : Int} {server : Server}
    (made : createWithConfig port maxConnections threadCount now = some server) (events : List Event) :
    Throughout step InBounds server events ↔ EachStep step Fits server events := by
  apply throughout_iff (fun _ => True) _ _ events trivial (createWithConfig_inBounds made)
  · exact fun _ _ _ _ _ _ _ => trivial
  · intro s e s' _ bounds taken
    cases taken
    exact bounds.after_iff e

instance (s : Server) (e : Event) : Decidable (s.Fits e) := by
  unfold Fits
  split
  · exact inferInstanceAs (Decidable (_ ∨ ∀ conn ∈ s.slot _, _))
  · infer_instance

/-- The limit is raised, and the chunks fit. -/
theorem inBounds_iff_fits_raised : createWithConfig 8080 1 1 0 = some oneSlot ∧
    Throughout step InBounds oneSlot [.connect 5 .done 0, .data 5 (some [7, 7, 7]) 1, .setBufferSize 9000,
      .data 5 (some [7]) 2] := by
  have made : createWithConfig 8080 1 1 0 = some oneSlot := rfl
  exact ⟨made, (inBounds_iff_fits made _).mpr (by decide +kernel)⟩

/-- The limit is raised, a chunk fills the buffer, and one more byte arrives. -/
def raisedLimit : List Event :=
  [.connect 5 .done 0, .setBufferSize 9000, .data 5 (some (List.replicate 8191 7)) 1, .data 5 (some [7]) 2]

theorem raisedLimit_overruns : createWithConfig 8080 1 1 0 = some oneSlot ∧
    ¬ Throughout step InBounds oneSlot raisedLimit := by
  refine ⟨rfl, fun all => ?_⟩
  have full := throughout_after (throughout_after (throughout_after all))
  have chunk : ((some (List.replicate 8191 (7 : UInt8))).getD []).take (bufferSize - 1) =
      7 :: List.replicate 8190 7 := by
    simp only [Option.getD_some, take_replicate]
    rfl
  have opened : ((oneSlot.after (.connect 5 .done 0)).after (.setBufferSize 9000)).slot (5 : Nat) =
      some (emptySlot.open 5 0) := rfl
  have raised : ((oneSlot.after (.connect 5 .done 0)).after (.setBufferSize 9000)).maxBufferSize = 9000 := rfl
  obtain ⟨slot, limit⟩ := handleClientData_slot 1 opened chunk
  cases (full.head.after_iff (.data 5 (some [7]) 2)).mp (throughout_after full).head with
  | inl small => exact absurd (limit.symm.trans_le small) (by decide)
  | inr room =>
    have filled : (Connection.append 9000 (7 :: List.replicate 8190 7) (emptySlot.open 5 0)).bufferLen =
        8191 := by
      rw [Connection.append_bufferLen, Connection.copyLen, length_cons, length_replicate]
      decide
    have short := room _ slot
    rw [Connection.count_bufferLen, raised, filled] at short
    exact absurd short (by decide)

end Monitor.Epoll
