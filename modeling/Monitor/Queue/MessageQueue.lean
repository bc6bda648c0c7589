import Monitor.Lib.Json

/-! # The message queue

`RedisMessageQueue` of `message_queue.go` over the string and list operations of
`redis_storage.go`. Calls and consumers are threads, and one step of a thread is one
Redis command with the local work behind it, so every interleaving of commands is a
sequence of steps. A list entry and a thread carry the serial number of the published
message they stand for; nothing in the code reads it.
-/

namespace Monitor.Queue

open GoText Json Function

structure Message where
  id : GoString
  topic : GoString
  payload : GoString
  metadata : List (GoString × Value)
  timestamp : GoString
  retries : Int64

/-- The parts of the standard library that are left open: conversions of numbers, and which
    texts are times. -/
structure Env where
  floats : Floats
  isTime : GoString → Bool

namespace Message

def zero : Message := ⟨[], [], [], [], ascii "0001-01-01T00:00:00Z", 0⟩

/-- A message as `json.Marshal` lays it out. -/
def tree (env : Env) (m : Message) : Tree :=
  .object
    ([(ascii "id", .string m.id), (ascii "topic", .string m.topic),
        (ascii "payload", .string (encodeBase64 m.payload))] ++
      (if m.metadata.isEmpty then [] else
        [(ascii "metadata", treeOf env.floats (.map m.metadata))]) ++
      [(ascii "timestamp", .string m.timestamp), (ascii "retries", .number (itoa m.retries.toInt))])

def decodeTime (env : Env) (old : GoString) : Tree → Option GoString
  | .null => some old
  | .string s => if env.isTime s then some s else none
  | _ => none

def decodeMember (env : Env) (m : Message) (member : GoString × Tree) : Option Message :=
  if isField member.1 "id" then
    (decodeString m.id member.2).map fun id => { m with id }
  else if isField member.1 "topic" then
    (decodeString m.topic member.2).map fun topic => { m with topic }
  else if isField member.1 "payload" then
    (decodeBytes m.payload member.2).map fun payload => { m with payload }
  else if isField member.1 "metadata" then
    (decodeMapInto env.floats m.metadata member.2).map fun metadata => { m with metadata }
  else if isField member.1 "timestamp" then
    (decodeTime env m.timestamp member.2).map fun timestamp => { m with timestamp }
  else if isField member.1 "retries" then
    (decodeInt m.retries.toInt member.2).map fun retries => { m with retries := .ofInt retries }
  else
    some m

/-- `json.Unmarshal` of a text into a zero message. -/
def unmarshal (env : Env) (data : GoString) : Option Message :=
  (parse data).bind (decodeStruct zero (decodeMember env))

end Message

/-- `json.Unmarshal` of a text into an empty string. -/
def unmarshalString (data : GoString) : Option GoString := (parse data).bind (decodeString [])

structure Config where
  keyPrefix : GoString
  queuePrefix : GoString

/-- The four families of Redis keys. -/
inductive Kind where
  | message
  | queue
  | processing
  | dead
  deriving DecidableEq

def Kind.name : Kind → GoString
  | .message => ascii ":message:"
  | .queue => ascii ":queue:"
  | .processing => ascii ":processing:"
  | .dead => ascii ":dead:"

/-- A Redis key: the storage's prefix in front of the queue's own key. -/
def Config.key (q : Config) (kind : Kind) (suffix : GoString) : GoString :=
  q.keyPrefix ++ (q.queuePrefix ++ (kind.name ++ suffix))

structure Entry where
  text : GoString
  serial : Nat
  deriving DecidableEq

/-- Where a thread stands. A thread that consumes a topic returns to polling it; `back` is that
    topic, and there is none for a direct call. -/
inductive Thread where
  | storing (topic : GoString) (message : Message)
  | pushing (topic id : GoString)
  | polling (topic : GoString)
  | loading (topic id : GoString) (serial : Nat)
  | moving (topic id : GoString) (message : Message) (serial : Nat)
  | removing (topic id : GoString) (message : Message)
  | handling (topic id : GoString) (message : Message)
  | acking (back : Option GoString) (id : GoString)
  | nacking (back : Option GoString) (id : GoString)
  | returning (back : Option GoString) (message : Message) (serial : Nat)
  | finished

def Thread.resume : Option GoString → Thread
  | some topic => .polling topic
  | none => .finished

structure Stats where
  totalMessages : Int64
  pendingMessages : Int64
  processedMessages : Int64
  failedMessages : Int64

structure State where
  strings : GoString → Option GoString
  lists : GoString → List Entry
  threads : List Thread
  published : List (GoString × GoString)
  acked : List Nat
  stats : Stats

def init : State where
  strings := fun _ => none
  lists := fun _ => []
  threads := []
  published := []
  acked := []
  stats := ⟨0, 0, 0, 0⟩

namespace State

/-- `SET`. -/
def set (s : State) (key value : GoString) : State :=
  { s with strings := update s.strings key (some value) }

/-- `DEL`. -/
def del (s : State) (key : GoString) : State :=
  { s with
    strings := update s.strings key none
    lists := update s.lists key [] }

/-- `LPUSH`. -/
def push (s : State) (key : GoString) (entry : Entry) : State :=
  { s with lists := update s.lists key (entry :: s.lists key) }

/-- The list behind `RPOP`. -/
def dropLast (s : State) (key : GoString) : State :=
  { s with lists := update s.lists key (s.lists key).dropLast }

def spawn (s : State) (thread : Thread) : State := { s with threads := s.threads ++ [thread] }

end State

inductive Action where
  | publish (topic : GoString) (message : Message) (nanos : Int) (now : GoString)
  | subscribe (topic : GoString)
  | ack (id : GoString)
  | nack (id : GoString)
  | run (thread : Nat) (handled : Bool)

/-- The message as `Publish` completes it. -/
def prepare (topic : GoString) (message : Message) (nanos : Int) (now : GoString) : Message :=
  { message with
    id := if message.id.isEmpty then topic ++ ascii ":" ++ itoa nanos else message.id
    timestamp := now
    topic := topic }

section Steps

variable (env : Env) (q : Config)

/-- The next command of a thread; `handled` is what a handler returns. -/
def advance (s : State) (handled : Bool) : Thread → State × Thread
  | .storing topic m =>
    -- The bytes of the message are marshalled a second time by the storage.
    (s.set (q.key .message m.id) (marshalBytes (write (m.tree env))), .pushing topic m.id)
  | .pushing topic id =>
    ({ s.push (q.key .queue topic) ⟨write (.string id), s.published.length⟩ with
        published := s.published ++ [(topic, id)]
        stats := { s.stats with
          totalMessages := s.stats.totalMessages + 1
          pendingMessages := s.stats.pendingMessages + 1 } }, .finished)
  | .polling topic =>
    match (s.lists (q.key .queue topic)).getLast? with
    | none => (s, .polling topic)
    | some entry =>
      let s := s.dropLast (q.key .queue topic)
      match unmarshalString entry.text with
      | none => (s, .polling topic)
      | some id =>
        if id.isEmpty then (s, .polling topic) else (s, .loading topic id entry.serial)
  | .loading topic id serial =>
    match s.strings (q.key .message id) with
    | none => (s, .polling topic)
    | some data =>
      match Message.unmarshal env data with
      | none => (s, .polling topic)
      | some m => (s, .moving topic id m serial)
  | .moving topic id m serial =>
    (s.push (q.key .processing id) ⟨write (m.tree env), serial⟩, .removing topic id m)
  | .removing topic id m => (s.del (q.key .message id), .handling topic id m)
  | .handling topic id _ => (s, if handled then .acking (some topic) id else .nacking (some topic) id)
  | .acking back id =>
    ({ s.del (q.key .processing id) with
        acked := s.acked ++ (s.lists (q.key .processing id)).map Entry.serial
        stats := { s.stats with
          pendingMessages := s.stats.pendingMessages - 1
          processedMessages := s.stats.processedMessages + 1 } }, .resume back)
  | .nacking back id =>
    match (s.lists (q.key .processing id)).getLast? with
    | none => (s, .resume back)
    | some entry =>
      let s := s.dropLast (q.key .processing id)
      match Message.unmarshal env entry.text with
      | none => (s, .resume back)
      | some m => (s, .returning back { m with retries := m.retries + 1 } entry.serial)
  | .returning back m serial =>
    if m.retries > 3 then
      ({ s.push (q.key .dead m.topic) ⟨write (m.tree env), serial⟩ with
          stats := { s.stats with
            pendingMessages := s.stats.pendingMessages - 1
            failedMessages := s.stats.failedMessages + 1 } }, .resume back)
    else
      (s.push (q.key .queue m.topic) ⟨write (m.tree env), serial⟩, .resume back)
  | .finished => (s, .finished)

/-- One step of the system; there is none for a thread that does not exist. -/
def step (s : State) : Action → Option State
  | .publish topic message nanos now => some (s.spawn (.storing topic (prepare topic message nanos now)))
  | .subscribe topic => some (s.spawn (.polling topic))
  | .ack id => some (s.spawn (.acking none id))
  | .nack id => some (s.spawn (.nacking none id))
  | .run i handled =>
    (s.threads[i]?).map fun thread =>
      let (s', thread') := advance env q s handled thread
      { s' with threads := s'.threads.set i thread' }

def run (s : State) (actions : List Action) : Option State := actions.foldlM (step env q) s

end Steps

end Monitor.Queue
