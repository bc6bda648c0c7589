import Monitor.Quic.Protocol

/-! # When frames can be read back

The reader finds the boundaries of a frame from the two lengths in its header.
The length of the data always survives, since the limit and the width of the
field are checked. The length of the ID is cut to one byte, and a stream of
accepted frames is read back exactly when no ID is longer than that.
-/

namespace Monitor.Quic

open GoText BigEndian List UInt8

theorem readFull_append {first : GoString} (rest : GoString) {n : Nat} (fits : first.length = n) :
    readFull (first ++ rest) n = (.ok first, rest) := by
  have enough : n ≤ (first ++ rest).length := by
    rw [length_append, fits]
    exact Nat.le_add_right n rest.length
  rw [readFull, if_pos enough, ← fits, take_left, drop_left]

namespace Message

def header (msg : Message) : GoString :=
  [ProtocolVersion] ++ [msg.type] ++ putUint 4 msg.bytes.length ++
    putUint 8 msg.timestamp.toUInt64.toNat ++ [UInt8.ofNat msg.id.length]

theorem frame_eq (msg : Message) : msg.frame = msg.header ++ (msg.id ++ msg.bytes) := by
  simp only [frame, header, append_assoc]

theorem header_length (msg : Message) : msg.header.length = MessageHeaderSize := by
  simp [header, MessageHeaderSize]

theorem header_fields {msg : Message} (short : msg.bytes.length < 2 ^ 32) :
    msg.header.getD 0 0 = ProtocolVersion ∧ msg.header.getD 1 0 = msg.type ∧
      uint ((msg.header.drop 2).take 4) = msg.bytes.length ∧
      (UInt64.ofNat (uint ((msg.header.drop 6).take 8))).toInt64 = msg.timestamp ∧
      msg.header.getD 14 0 = ofNat msg.id.length := by
  have lengthField : (msg.header.drop 2).take 4 = putUint 4 msg.bytes.length := by
    simp [header]
  have timestampField : (msg.header.drop 6).take 8 =
      putUint 8 msg.timestamp.toUInt64.toNat := by
    simp [header]
  refine ⟨rfl, rfl, ?_, ?_, ?_⟩
  · rw [lengthField, uint_putUint, Nat.mod_eq_of_lt (by omega)]
  · rw [timestampField, uint_putUint, Nat.mod_eq_of_lt (by exact msg.timestamp.toUInt64.toNat_lt)]
    simp
  · simp [header]

end Message

namespace ProtocolHandler

theorem readID_short {id : GoString} (short : id.length ≤ MaxMessageIDLength) (rest : GoString) :
    readID (id ++ rest) (ofNat id.length) = (.ok id, rest) := by
  have width : (ofNat id.length).toNat = id.length := by
    rw [toNat_ofNat', Nat.mod_eq_of_lt]
    exact Nat.lt_succ_of_le short
  rw [readID]
  split
  · exact readFull_append rest width.symm
  · rename_i zero
    have empty : id = [] := by
      rw [gt_iff_lt, lt_iff_toNat_lt, width] at zero
      exact length_eq_zero_iff.mp (Nat.eq_zero_of_not_pos zero)
    rw [empty]
    rfl

variable {stream : GoString}

theorem readID_length {id rest : GoString} {idLength : UInt8}
    (read : readID stream idLength = (.ok id, rest)) : id.length ≤ MaxMessageIDLength := by
  have bound : idLength.toNat ≤ MaxMessageIDLength := Nat.le_of_lt_succ idLength.toNat_lt
  rw [readID] at read
  split at read
  · rw [readFull] at read
    split at read
    · cases read
      exact (length_take_le _ _).trans bound
    · split at read <;> cases read
  · cases read
    exact Nat.zero_le _

theorem readData_append (bytes rest : GoString) : ∃ data : Option GoString,
    readData (bytes ++ rest) bytes.length = (.ok data, rest) ∧ data.getD [] = bytes := by
  rw [readData]
  split
  · rw [readFull_append rest rfl]
    exact ⟨some bytes, rfl, rfl⟩
  · rename_i zero
    have empty : bytes = [] := length_eq_zero_iff.mp (Nat.eq_zero_of_not_pos zero)
    rw [empty]
    exact ⟨none, rfl, rfl⟩

variable {p : ProtocolHandler} {msg : Message}

theorem writeMessage_accepted {outcome : WriteOutcome} {after : GoString}
    (accepted : p.writeMessage outcome stream msg = (after, none)) :
    after = stream ++ msg.frame ∧ (msg.bytes.length : Int) ≤ p.maxMessageSize := by
  simp only [writeMessage] at accepted
  split at accepted
  · cases accepted
  · rename_i small
    refine ⟨?_, ?_⟩
    · cases outcome with
      | ok =>
        cases accepted
        rfl
      | error written message => cases accepted
    · rw [Message.totalSize] at small
      omega

theorem readMessage_frame (short : msg.bytes.length < 2 ^ 32)
    (fits : (msg.bytes.length : Int) ≤ p.maxMessageSize) (rest : GoString) :
    p.readMessage (msg.frame ++ rest) =
      match readID (msg.id ++ (msg.bytes ++ rest)) (ofNat msg.id.length) with
      | (.error cause, stream) => (.error (.id cause), stream)
      | (.ok id, stream) =>
        match readData stream msg.bytes.length with
        | (.error cause, stream) => (.error (.data cause), stream)
        | (.ok data, stream) => (.ok ⟨msg.type, id, msg.timestamp, data⟩, stream) := by
  obtain ⟨version, type, length, timestamp, idLength⟩ := Message.header_fields short
  have split : msg.frame ++ rest = msg.header ++ (msg.id ++ (msg.bytes ++ rest)) := by
    rw [Message.frame_eq, append_assoc, append_assoc]
  rw [readMessage, split, readFull_append _ msg.header_length]
  simp only [version, type, length, timestamp, idLength, ne_eq, not_true_eq_false, if_false]
  rewrite [if_neg (not_lt.mpr fits)]
  rfl

theorem readMessage_short (short : msg.bytes.length < 2 ^ 32)
    (fits : (msg.bytes.length : Int) ≤ p.maxMessageSize)
    (shortID : msg.id.length ≤ MaxMessageIDLength) (rest : GoString) :
    ∃ msg', p.readMessage (msg.frame ++ rest) = (.ok msg', rest) ∧ msg.Same msg' := by
  obtain ⟨data, read, same⟩ := readData_append msg.bytes rest
  refine ⟨⟨msg.type, msg.id, msg.timestamp, data⟩, ?_, ⟨rfl, rfl, rfl, same.symm⟩⟩
  rw [readMessage_frame short fits, readID_short shortID]
  simp only [read]

variable {rest : GoString}

theorem readMessage_id (read : p.readMessage stream = (.ok msg, rest)) :
    msg.id.length ≤ MaxMessageIDLength := by
  rw [readMessage] at read
  split at read
  · cases read
  · simp only at read
    split at read
    · cases read
    · split at read
      · cases read
      · split at read
        · cases read
        · rename_i readID_
          split at read
          · cases read
          · cases read
            exact readID_length readID_

theorem readMessages_ok (read : p.readMessage stream = (.ok msg, rest))
    (calls : Nat) : p.readMessages (calls + 1) stream =
      (msg :: (p.readMessages calls rest).1, (p.readMessages calls rest).2) := by
  simp only [readMessages, read]

theorem readMessages_error {e : ReadError}
    (read : p.readMessage stream = (.error e, rest)) (calls : Nat) :
    p.readMessages (calls + 1) stream = ([], some e, rest) := by
  simp only [readMessages, read]

/-- The stream gives the messages back in order, with `nil` and empty data identified, and then
    ends with nothing left, however often the reader goes on to call. -/
def ReadsBack (p : ProtocolHandler) (stream : GoString) (msgs : List Message) : Prop :=
  ∀ calls, msgs.length < calls → ∃ received,
    p.readMessages calls stream = (received, some (.header .eof), []) ∧
      List.Forall₂ Message.Same msgs received

theorem readMessages_nil (calls : Nat) :
    p.readMessages (calls + 1) [] = ([], some (.header .eof), []) := rfl

theorem readsBack_nil : p.ReadsBack [] [] := by
  intro calls pos
  obtain ⟨calls, rfl⟩ := Nat.exists_eq_add_of_lt pos
  rw [length_nil, Nat.zero_add]
  exact ⟨[], readMessages_nil calls, .nil⟩

theorem readsBack_cons (short : msg.bytes.length < 2 ^ 32)
    (fits : (msg.bytes.length : Int) ≤ p.maxMessageSize) {msgs : List Message} :
    p.ReadsBack (msg.frame ++ rest) (msg :: msgs) ↔
      msg.id.length ≤ MaxMessageIDLength ∧ p.ReadsBack rest msgs := by
  constructor
  · intro back
    have shortID : msg.id.length ≤ MaxMessageIDLength := by
      obtain ⟨received, read, same⟩ := back _ (Nat.lt_succ_self _)
      cases readFirst : p.readMessage (msg.frame ++ rest) with
      | mk result stream =>
        cases result with
        | error e =>
          rw [length_cons, readMessages_error readFirst] at read
          cases read
          cases same
        | ok msg' =>
          rw [length_cons, readMessages_ok readFirst] at read
          obtain ⟨rfl, _⟩ := Prod.mk.inj read
          cases same with
          | cons first _ =>
            rw [first.id]
            exact readMessage_id readFirst
    obtain ⟨msg', readFirst, _⟩ := readMessage_short (p := p) short fits shortID rest
    refine ⟨shortID, fun calls enough => ?_⟩
    obtain ⟨received, read, same⟩ := back (calls + 1) (Nat.succ_lt_succ enough)
    rw [readMessages_ok readFirst] at read
    obtain ⟨rfl, ended⟩ := Prod.mk.inj read
    cases same with
    | cons _ others => exact ⟨_, by rw [← ended], others⟩
  · rintro ⟨shortID, back⟩ calls enough
    obtain ⟨msg', readFirst, same⟩ := readMessage_short (p := p) short fits shortID rest
    obtain ⟨calls, rfl⟩ : ∃ n, calls = n + 1 := ⟨calls - 1, by omega⟩
    obtain ⟨received, read, others⟩ := back calls (Nat.lt_of_succ_lt_succ enough)
    refine ⟨msg' :: received, ?_, .cons same others⟩
    rw [readMessages_ok readFirst, read]

theorem writeMessages_accepted {writes : List (WriteOutcome × Message)} : ∀ {stream after : GoString},
    p.writeMessages stream writes = some after →
      after = stream ++ (writes.map fun write => write.2.frame).flatten ∧
        ∀ write ∈ writes, (write.2.bytes.length : Int) ≤ p.maxMessageSize := by
  induction writes with
  | nil =>
    intro stream after accepted
    cases accepted
    exact ⟨(append_nil stream).symm, fun write mem => by cases mem⟩
  | cons write writes ih =>
    intro stream after accepted
    simp only [writeMessages] at accepted
    split at accepted
    · rename_i next written
      obtain ⟨rfl, fits⟩ := writeMessage_accepted written
      obtain ⟨rfl, others⟩ := ih accepted
      refine ⟨by simp only [map_cons, flatten_cons, append_assoc], ?_⟩
      intro other mem
      rcases mem_cons.mp mem with rfl | later
      · exact fits
      · exact others other later
    · cases accepted

theorem readsBack_frames {msgs : List Message} (short : ∀ msg ∈ msgs, msg.bytes.length < 2 ^ 32)
    (fits : ∀ msg ∈ msgs, (msg.bytes.length : Int) ≤ p.maxMessageSize) :
    p.ReadsBack (msgs.map Message.frame).flatten msgs ↔
      ∀ msg ∈ msgs, msg.id.length ≤ MaxMessageIDLength := by
  induction msgs with
  | nil => exact iff_of_true readsBack_nil (fun msg mem => by cases mem)
  | cons msg msgs ih =>
    rw [map_cons, flatten_cons, readsBack_cons (short msg mem_cons_self) (fits msg mem_cons_self),
      ih (fun other mem => short other (mem_cons_of_mem msg mem))
        (fun other mem => fits other (mem_cons_of_mem msg mem)), forall_mem_cons]

/-- Messages that were accepted one after another are read back exactly when no ID is longer than
    its length field can say. -/
theorem accepted_readsBack_iff (p : ProtocolHandler) (writes : List (WriteOutcome × Message))
    (stream : GoString) (accepted : p.writeMessages [] writes = some stream)
    (short : ∀ write ∈ writes, write.2.bytes.length < 2 ^ 32) :
    p.ReadsBack stream (writes.map Prod.snd) ↔
      ∀ write ∈ writes, write.2.id.length ≤ MaxMessageIDLength := by
  obtain ⟨rfl, fits⟩ := writeMessages_accepted accepted
  have frames : (writes.map fun write => write.2.frame) =
      (writes.map Prod.snd).map Message.frame := by
    rw [map_map]
    rfl
  rw [nil_append, frames, readsBack_frames]
  · exact forall_mem_map
  · exact forall_mem_map.mpr short
  · exact forall_mem_map.mpr fits

def twoMessages : List (WriteOutcome × Message) :=
  [(.ok, ⟨1, ascii "h", 5, some (ascii "xy")⟩), (.ok, ⟨2, [], -1, some []⟩)]

theorem accepted_readsBack_iff_two :
    (ProtocolHandler.mk 64).writeMessages [] twoMessages =
        some (twoMessages.map fun write => write.2.frame).flatten ∧
      (ProtocolHandler.mk 64).ReadsBack (twoMessages.map fun write => write.2.frame).flatten
        (twoMessages.map Prod.snd) := by
  have accepted : (ProtocolHandler.mk 64).writeMessages [] twoMessages =
      some (twoMessages.map fun write => write.2.frame).flatten := by
    decide +kernel
  exact ⟨accepted, (accepted_readsBack_iff _ twoMessages _ accepted (by decide +kernel)).mpr
    (by decide +kernel)⟩

/-- A message without data and with an ID of 256 bytes. -/
def longID : Message := ⟨1, List.replicate 256 120, 0, none⟩

/-- The message is accepted, its ID is read as empty, and the next read starts inside the ID. -/
theorem longID_not_readsBack :
    (ProtocolHandler.mk 1024).writeMessages [] [(.ok, longID)] = some longID.frame ∧
      (ProtocolHandler.mk 1024).readMessages 2 longID.frame =
        ([⟨1, [], 0, none⟩], some (.version 120), List.replicate 241 120) ∧
      ¬ (ProtocolHandler.mk 1024).ReadsBack longID.frame [longID] := by
  have read : (ProtocolHandler.mk 1024).readMessages 2 longID.frame =
      ([⟨1, [], 0, none⟩], some (.version 120), List.replicate 241 120) := by
    decide +kernel
  refine ⟨by decide +kernel, read, fun back => ?_⟩
  obtain ⟨received, ended, _⟩ := back 2 (by decide)
  rw [read] at ended
  cases ended

end ProtocolHandler

end Monitor.Quic
