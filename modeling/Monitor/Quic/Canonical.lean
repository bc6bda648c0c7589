import Monitor.Quic.Framing

/-! # What the reader accepts

`readMessage_ok_iff` turns the reader around: the streams on which it returns a message are
those that begin with the frame of a message it could have returned. All the rest follows
from the reader being a function of the stream.
-/

namespace Monitor.Quic

open GoText BigEndian List

theorem readFull_ok_iff {stream first rest : GoString} {n : Nat} :
    readFull stream n = (.ok first, rest) ↔ first.length = n ∧ stream = first ++ rest := by
  constructor
  · intro read
    rw [readFull] at read
    split at read
    · rename_i enough
      cases read
      exact ⟨length_take_of_le enough, (take_append_drop n stream).symm⟩
    · split at read <;> cases read
  · rintro ⟨fits, rfl⟩
    exact readFull_append rest fits

theorem header_split {buf : GoString} (size : buf.length = MessageHeaderSize) :
    buf = [buf.getD 0 0] ++ [buf.getD 1 0] ++ (buf.drop 2).take 4 ++ (buf.drop 6).take 8 ++
      [buf.getD 14 0] := by
  match buf, size with
  | [_, _, _, _, _, _, _, _, _, _, _, _, _, _, _], _ => rfl

namespace ProtocolHandler

variable {stream : GoString} {msg : Message} {q : ProtocolHandler}

theorem readID_ok_iff {id rest : GoString} {idLength : UInt8} :
    readID stream idLength = (.ok id, rest) ↔ id.length = idLength.toNat ∧ stream = id ++ rest := by
  rw [readID]
  split
  · exact readFull_ok_iff
  · rename_i zero
    have none_ : idLength.toNat = 0 := by
      exact Nat.eq_zero_of_not_pos zero
    rw [none_, length_eq_zero_iff]
    constructor
    · intro read
      cases read
      exact ⟨rfl, rfl⟩
    · rintro ⟨rfl, rfl⟩
      rfl

variable {data : Option GoString} {rest : GoString}

theorem readData_ok_iff {length : Nat} :
    readData stream length = (.ok data, rest) ↔
      data ≠ some [] ∧ (data.getD []).length = length ∧ stream = data.getD [] ++ rest := by
  rw [readData]
  split
  · rename_i pos
    constructor
    · intro read
      split at read
      · rename_i bytes left full
        cases read
        obtain ⟨fits, rfl⟩ := readFull_ok_iff.mp full
        refine ⟨?_, fits, rfl⟩
        rintro ⟨⟩
        exact pos.ne fits
      · cases read
    · rintro ⟨_, fits, rfl⟩
      cases data with
      | none => exact absurd fits pos.ne
      | some bytes => rw [readFull_append rest fits]; rfl
  · rename_i zero
    have none_ : length = 0 := Nat.eq_zero_of_not_pos zero
    subst none_
    constructor
    · intro read
      cases read
      exact ⟨(Option.some_ne_none []).symm, rfl, rfl⟩
    · rintro ⟨normal, empty, rfl⟩
      cases data with
      | none => rfl
      | some bytes => exact absurd (congrArg some (length_eq_zero_iff.mp empty)) normal

structure Returns (p : ProtocolHandler) (msg : Message) : Prop where
  short : msg.bytes.length < 2 ^ 32
  fits : (msg.bytes.length : Int) ≤ p.maxMessageSize
  shortID : msg.id.length ≤ MaxMessageIDLength
  normal : msg.data ≠ some []

theorem header_of_fields {buf : GoString} (size : buf.length = MessageHeaderSize)
    (version : buf.getD 0 0 = ProtocolVersion) {id : GoString}
    (idLength : id.length = (buf.getD 14 0).toNat)
    (length : (data.getD []).length = uint ((buf.drop 2).take 4)) :
    Message.header ⟨buf.getD 1 0, id, (UInt64.ofNat (uint ((buf.drop 6).take 8))).toInt64, data⟩ = buf := by
  have widthLength : ((buf.drop 2).take 4).length = 4 := by
    simp [size, MessageHeaderSize]
  have widthTime : ((buf.drop 6).take 8).length = 8 := by
    simp [size, MessageHeaderSize]
  have lengthField := putUint_uint ((buf.drop 2).take 4)
  have timeField := putUint_uint ((buf.drop 6).take 8)
  have time := uint_lt ((buf.drop 6).take 8)
  rw [widthLength] at lengthField
  rw [widthTime] at timeField time
  have idField : UInt8.ofNat id.length = buf.getD 14 0 := by
    rw [idLength, UInt8.ofNat_toNat]
  have stamp : (UInt64.ofNat (uint ((buf.drop 6).take 8))).toInt64.toUInt64.toNat =
      uint ((buf.drop 6).take 8) := by
    exact Nat.mod_eq_of_lt time
  conv_rhs => rw [header_split size]
  simp only [Message.header, Message.bytes, length, lengthField, stamp, timeField, idField, version]

variable {p : ProtocolHandler}

theorem readMessage_ok_iff :
    p.readMessage stream = (.ok msg, rest) ↔ p.Returns msg ∧ stream = msg.frame ++ rest := by
  constructor
  · intro read
    have shortID := readMessage_id read
    rw [readMessage] at read
    split at read
    · cases read
    · rename_i buf behind full
      obtain ⟨size, rfl⟩ := readFull_ok_iff.mp full
      simp only at read
      split at read
      · cases read
      · rename_i version
        split at read
        · cases read
        · rename_i small
          split at read
          · cases read
          · rename_i id behindID readID_
            obtain ⟨idLength, rfl⟩ := readID_ok_iff.mp readID_
            split at read
            · cases read
            · rename_i data behindData readData_
              obtain ⟨normal, length, rfl⟩ := readData_ok_iff.mp readData_
              have width : uint ((buf.drop 2).take 4) < 2 ^ 32 := by
                have small := uint_lt ((buf.drop 2).take 4)
                rwa [length_take_of_le (by simp [size, MessageHeaderSize])] at small
              have header := header_of_fields size (not_not.mp version) idLength length
              cases read
              refine ⟨⟨length ▸ width, ?_, shortID, normal⟩, ?_⟩
              · rw [Message.bytes, length]
                exact not_lt.mp small
              · rw [Message.frame_eq, header, append_assoc, append_assoc]
                rfl
  · rintro ⟨returns, rfl⟩
    rw [readMessage_frame returns.short returns.fits, readID_short returns.shortID]
    simp only [Message.bytes, readData_ok_iff.mpr ⟨returns.normal, rfl, rfl⟩]

theorem Returns.mono (returns : p.Returns msg)
    (larger : p.maxMessageSize ≤ q.maxMessageSize) : q.Returns msg :=
  ⟨returns.short, returns.fits.trans larger, returns.shortID, returns.normal⟩

theorem frame_prefix_free {msg' : Message} (returns : p.Returns msg)
    (returns' : q.Returns msg') {more : GoString} (longer : msg'.frame = msg.frame ++ more) :
    msg = msg' ∧ more = [] := by
  -- One handler accepts both messages and reads the longer frame only once.
  let both : ProtocolHandler := ⟨max p.maxMessageSize q.maxMessageSize⟩
  have first : both.readMessage msg'.frame = (.ok msg, more) :=
    readMessage_ok_iff.mpr ⟨returns.mono (le_max_left _ _), longer⟩
  have second : both.readMessage msg'.frame = (.ok msg', []) :=
    readMessage_ok_iff.mpr ⟨returns'.mono (le_max_right _ _), (append_nil _).symm⟩
  rw [first] at second
  cases second
  exact ⟨rfl, rfl⟩

theorem readMessage_proper_prefix (returns : p.Returns msg)
    {start : GoString} (begins : start <+: msg.frame) (proper : start ≠ msg.frame) :
    ∃ e left, q.readMessage start = (.error e, left) := by
  cases read : q.readMessage start with
  | mk result left =>
    cases result with
    | error e => exact ⟨e, left, rfl⟩
    | ok msg' =>
      obtain ⟨returns', rfl⟩ := readMessage_ok_iff.mp read
      obtain ⟨more, whole⟩ := begins
      rw [append_assoc] at whole
      obtain ⟨rfl, none_⟩ := frame_prefix_free returns' returns whole.symm
      obtain ⟨rfl, -⟩ := append_eq_nil_iff.mp none_
      exact absurd (append_nil _) proper

/-- Whatever is read was written as the writer would write it, nothing shorter can be read, and no
    other message that can be read has bytes that begin with it. -/
theorem readMessage_canonical (p : ProtocolHandler) (stream rest : GoString) (msg : Message)
    (read : p.readMessage stream = (.ok msg, rest)) :
    ∃ consumed, stream = consumed ++ rest ∧
      (∀ limit : Int, msg.totalSize ≤ limit →
        (ProtocolHandler.mk limit).writeMessage .ok [] msg = (consumed, none)) ∧
      (∀ (q : ProtocolHandler) (start : GoString), start <+: consumed → start ≠ consumed →
        ∃ e left, q.readMessage start = (.error e, left)) ∧
      ∀ (q : ProtocolHandler) (stream' rest' consumed' : GoString) (msg' : Message),
        q.readMessage stream' = (.ok msg', rest') → stream' = consumed' ++ rest' →
        consumed <+: consumed' → msg' = msg := by
  obtain ⟨returns, rfl⟩ := readMessage_ok_iff.mp read
  refine ⟨msg.frame, rfl, ?_, ?_, ?_⟩
  · intro limit unlimited
    rw [writeMessage, if_neg (not_lt.mpr unlimited), nil_append]
  · intro q start
    exact readMessage_proper_prefix returns
  · intro q stream' rest' consumed' msg' read' split begins
    obtain ⟨returns', same⟩ := readMessage_ok_iff.mp read'
    obtain rfl := append_cancel_right (split.symm.trans same)
    obtain ⟨more, longer⟩ := begins
    exact (frame_prefix_free returns returns' longer.symm).1.symm

theorem readMessage_canonical_two :
    (ProtocolHandler.mk 64).readMessage ([1, 7, 0, 0, 0, 2, 0, 0, 0, 0, 0, 0, 0, 5, 1, 104, 120, 121, 9]) =
        (.ok ⟨7, ascii "h", 5, some (ascii "xy")⟩, [9]) ∧
      ∃ consumed, [1, 7, 0, 0, 0, 2, 0, 0, 0, 0, 0, 0, 0, 5, 1, 104, 120, 121, 9] = consumed ++ [9] ∧
        (ProtocolHandler.mk 64).writeMessage .ok [] ⟨7, ascii "h", 5, some (ascii "xy")⟩ = (consumed, none) := by
  have read : (ProtocolHandler.mk 64).readMessage
      ([1, 7, 0, 0, 0, 2, 0, 0, 0, 0, 0, 0, 0, 5, 1, 104, 120, 121, 9]) =
        (.ok ⟨7, ascii "h", 5, some (ascii "xy")⟩, [9]) := by
    decide +kernel
  obtain ⟨consumed, split, written, _⟩ := readMessage_canonical _ _ _ _ read
  exact ⟨read, consumed, split, written 64 (by decide +kernel)⟩

end ProtocolHandler

end Monitor.Quic
