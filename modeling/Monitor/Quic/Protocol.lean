import Monitor.Lib.BigEndian
import Monitor.Lib.GoText

/-! # Messages on a QUIC stream

`WriteMessage` and `ReadMessage` of `protocol.go`. A stream is the list of bytes
that were written and not read yet. A frame is a header of fixed size, the ID
and the data, and the header has four bytes for the length of the data and one
for the length of the ID.
-/

namespace Monitor.Quic

open GoText BigEndian

def ProtocolVersion : UInt8 := 1

def MessageHeaderSize : Nat := 15

def MaxMessageIDLength : Nat := 255

/-- `Message`; data that is `nil` is not the same value as no bytes. -/
structure Message where
  type : UInt8
  id : GoString
  timestamp : Int64
  data : Option GoString
  deriving DecidableEq

structure ProtocolHandler where
  maxMessageSize : Int

/-- What the stream makes of a write: it may fail behind some of the bytes. -/
inductive WriteOutcome where
  | ok
  | error (written : Nat) (message : GoString)
  deriving DecidableEq

inductive WriteError where
  | tooLarge (totalSize maxMessageSize : Int)
  | write (cause : GoString)
  deriving DecidableEq

/-- The errors of `io.ReadFull` at the end of a stream. -/
inductive ReadFullError where
  | eof
  | unexpectedEOF
  deriving DecidableEq

inductive ReadError where
  | header (cause : ReadFullError)
  | version (version : UInt8)
  | tooLarge (length maxMessageSize : Int)
  | id (cause : ReadFullError)
  | data (cause : ReadFullError)
  deriving DecidableEq

namespace Message

/-- The bytes of the data; `nil` is written as no bytes. -/
def bytes (msg : Message) : GoString := msg.data.getD []

def totalSize (msg : Message) : Int := MessageHeaderSize + msg.id.length + msg.bytes.length

/-- The buffer `WriteMessage` builds. Both lengths are cut to the width of their field. -/
def frame (msg : Message) : GoString :=
  [ProtocolVersion] ++ [msg.type] ++ putUint 4 msg.bytes.length ++
    putUint 8 msg.timestamp.toUInt64.toNat ++ [UInt8.ofNat msg.id.length] ++ msg.id ++ msg.bytes

/-- Equality of messages with `nil` and empty data identified. -/
structure Same (msg msg' : Message) : Prop where
  type : msg.type = msg'.type
  id : msg.id = msg'.id
  timestamp : msg.timestamp = msg'.timestamp
  bytes : msg.bytes = msg'.bytes

end Message

/-- `io.ReadFull` of `n` bytes; what is left of the stream comes second. -/
def readFull (stream : GoString) (n : Nat) : Except ReadFullError GoString × GoString :=
  if n ≤ stream.length then
    (.ok (stream.take n), stream.drop n)
  else if stream.isEmpty then
    (.error .eof, [])
  else
    (.error .unexpectedEOF, [])

namespace ProtocolHandler

def writeMessage (p : ProtocolHandler) (outcome : WriteOutcome) (stream : GoString) (msg : Message) :
    GoString × Option WriteError :=
  if msg.totalSize > p.maxMessageSize then
    (stream, some (.tooLarge msg.totalSize p.maxMessageSize))
  else
    match outcome with
    | .ok => (stream ++ msg.frame, none)
    | .error written message => (stream ++ msg.frame.take written, some (.write message))

def readData (stream : GoString) (length : Nat) :
    Except ReadFullError (Option GoString) × GoString :=
  if length > 0 then
    match readFull stream length with
    | (.ok data, stream) => (.ok (some data), stream)
    | (.error cause, stream) => (.error cause, stream)
  else
    (.ok none, stream)

def readID (stream : GoString) (idLength : UInt8) : Except ReadFullError GoString × GoString :=
  if idLength > 0 then readFull stream idLength.toNat else (.ok [], stream)

def readMessage (p : ProtocolHandler) (stream : GoString) : Except ReadError Message × GoString :=
  match readFull stream MessageHeaderSize with
  | (.error cause, stream) => (.error (.header cause), stream)
  | (.ok headerBuf, stream) =>
    let version := headerBuf.getD 0 0
    if version ≠ ProtocolVersion then
      (.error (.version version), stream)
    else
      let msgType := headerBuf.getD 1 0
      let length := uint ((headerBuf.drop 2).take 4)
      let timestamp := (UInt64.ofNat (uint ((headerBuf.drop 6).take 8))).toInt64
      let idLength := headerBuf.getD 14 0
      if (length : Int) > p.maxMessageSize then
        (.error (.tooLarge length p.maxMessageSize), stream)
      else
        match readID stream idLength with
        | (.error cause, stream) => (.error (.id cause), stream)
        | (.ok id, stream) =>
          match readData stream length with
          | (.error cause, stream) => (.error (.data cause), stream)
          | (.ok data, stream) => (.ok ⟨msgType, id, timestamp, data⟩, stream)

/-- One `WriteMessage` after another, as long as each returns `nil`. -/
def writeMessages (p : ProtocolHandler) : GoString → List (WriteOutcome × Message) → Option GoString
  | stream, [] => some stream
  | stream, (outcome, msg) :: more =>
    match p.writeMessage outcome stream msg with
    | (stream, none) => p.writeMessages stream more
    | (_, some _) => none

/-- At most `calls` calls of `ReadMessage`, up to the first one that fails. -/
def readMessages (p : ProtocolHandler) : Nat → GoString → List Message × Option ReadError × GoString
  | 0, stream => ([], none, stream)
  | calls + 1, stream =>
    match p.readMessage stream with
    | (.error e, stream) => ([], some e, stream)
    | (.ok msg, stream) =>
      let (msgs, e, stream) := p.readMessages calls stream
      (msg :: msgs, e, stream)

end ProtocolHandler

end Monitor.Quic
