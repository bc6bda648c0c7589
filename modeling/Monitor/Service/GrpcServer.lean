import Monitor.Hash.ConsistentHash
import Monitor.Lib.JsonText
import Monitor.Raft.Fsm

/-! # Receiving a stream of metrics

`SendMetrics` of `grpc_server.go`, down to the state machine: every record is routed
on the hash ring, put in a batch, and the batch goes through Raft. What Raft and the
storage answer while a record is handled are inputs that come with the record. A
committed entry is applied once and its response is handed back.
-/

namespace Monitor.Service

open GoText Json Raft Hash

/-- A string of a protocol message, which is valid UTF-8. -/
def Text := {s : GoString // sanitize s = s}

/-- `pb.Metric`. -/
structure Metric where
  name : Text
  value : Text
  unit : Text

/-- `pb.Tag`. -/
structure Tag where
  key : Text
  value : Text

/-- `pb.MetricsData`. -/
structure Record where
  hostId : Text
  timestamp : Int64
  metrics : List Metric
  tags : List Tag

section Marshal

/-- A member that is left out when it holds the zero value. -/
def member (name : String) (empty : Bool) (value : Tree) : List (GoString × Tree) :=
  if empty then [] else [(ascii name, value)]

def textMember (name : String) (s : Text) : List (GoString × Tree) :=
  member name s.val.isEmpty (.string s.val)

def Metric.tree (m : Metric) : Tree :=
  .object (textMember "name" m.name ++ textMember "value" m.value ++ textMember "unit" m.unit)

def Tag.tree (t : Tag) : Tree := .object (textMember "key" t.key ++ textMember "value" t.value)

def Record.tree (r : Record) : Tree :=
  .object (textMember "host_id" r.hostId ++
    member "timestamp" (r.timestamp == 0) (.number (itoa r.timestamp.toInt)) ++
    member "metrics" r.metrics.isEmpty (.array (r.metrics.map Metric.tree)) ++
    member "tags" r.tags.isEmpty (.array (r.tags.map Tag.tree)))

/-- The command of a batch, with its keys in the order `json.Marshal` gives those of a map. -/
def commandTree (batch : List Record) (now : Int64) : Tree :=
  .object [(ascii "batch", .array (batch.map Record.tree)),
    (ascii "timestamp", .number (itoa now.toInt)),
    (ascii "type", .string (ascii "batch_metrics"))]

end Marshal

/-- An entry that Raft commits, and what the storage answers while it is applied. -/
structure Commit where
  index : UInt64
  term : UInt64
  storage : Nat → SaveOutcome

inductive RaftOutcome where
  | error (message : String)
  | committed (commit : Commit)

structure Try where
  /-- The answer of `Leader` ahead of a forwarded try. -/
  leader : GoString
  now : Int64
  /-- The answer of `IsLeader` inside `Apply`. -/
  isLeader : Bool
  raft : RaftOutcome

/-- What the handling of one record meets. -/
structure Circumstances where
  isLeader : Bool
  leader : GoString
  tries : Nat → Try

structure GrpcServer where
  hashRing : ConsistentHash
  fsm : Fsm
  /-- The responses of the state machine, which are logged and nothing else. -/
  results : List Response

namespace GrpcServer

variable (fl : Floats)

/-- `Apply` of the Raft server. -/
def raftApply (s : GrpcServer) (t : Try) (cmd : GoString) : GrpcServer × Except String Response :=
  if t.isLeader then
    match t.raft with
    | .error message => (s, .error ("failed to apply command: " ++ message))
    | .committed commit =>
      let (fsm, response) := s.fsm.apply fl commit.storage ⟨commit.index, commit.term, cmd⟩
      ({ s with fsm := fsm }, .ok response)
  else
    (s, .error "only leader can apply commands")

def applyBatch (s : GrpcServer) (t : Try) (batch : List Record) : GrpcServer × Except String Unit :=
  let cmdData := write (commandTree batch t.now)
  match s.raftApply fl t cmdData with
  | (s, .error message) => (s, .error ("应用Raft命令失败: " ++ message))
  | (s, .ok result) => ({ s with results := s.results ++ [result] }, .ok ())

/-- The loop of `forwardToLeaderWithRetry`: try `i` of `maxRetries`, with `fuel` tries left. -/
def forwardLoop (maxRetries : Nat) (c : Circumstances) (batch : List Record) :
    Nat → Nat → GoString → Option String → GrpcServer → GrpcServer × Except String Unit
  | 0, _, _, lastErr, s =>
    (s, .error ("转发到领导者失败，重试 " ++ toString maxRetries ++ " 次后: " ++
      lastErr.getD "<nil>"))
  | fuel + 1, i, leaderID, _, s =>
    let currentLeader := (c.tries i).leader
    if currentLeader ≠ leaderID ∧ currentLeader = [] then
      (s, .error "领导者变更，没有可用的领导者")
    else
      match s.applyBatch fl (c.tries i) batch with
      | (s, .ok ()) => (s, .ok ())
      | (s, .error err) => forwardLoop maxRetries c batch fuel (i + 1) currentLeader (some err) s

def forwardToLeaderWithRetry (s : GrpcServer) (c : Circumstances) (leaderID : GoString)
    (batch : List Record) (maxRetries : Nat) : GrpcServer × Except String Unit :=
  forwardLoop fl maxRetries c batch maxRetries 0 leaderID none s

def processBatch (s : GrpcServer) (c : Circumstances) (batch : List Record) :
    GrpcServer × Except String Unit :=
  if c.isLeader then
    s.applyBatch fl (c.tries 0) batch
  else if c.leader = [] then
    (s, .error "没有可用的领导者")
  else
    s.forwardToLeaderWithRetry fl c c.leader batch 3

/-- The local variables of the handler. -/
structure Handler where
  count : Nat
  batchMap : List (GoString × List Record)

def receive (s : GrpcServer) (h : Handler) (data : Record) (c : Circumstances) :
    GrpcServer × Except String Handler :=
  let h := { h with count := h.count + 1 }
  let key := data.hostId.val ++ ascii ":" ++ itoa data.timestamp.toInt
  match s.hashRing.get key with
  | .error _ => (s, .ok h)
  | .ok node =>
    let batch := (getKey node h.batchMap).getD [] ++ [data]
    if 1 ≤ batch.length then
      match s.processBatch fl c batch with
      | (s, .error err) => (s, .error err)
      | (s, .ok ()) => (s, .ok { h with batchMap := setKey node [] h.batchMap })
    else
      (s, .ok { h with batchMap := setKey node batch h.batchMap })

def receiveAll : GrpcServer → Handler → List (Record × Circumstances) →
    GrpcServer × Except String Handler
  | s, h, [] => (s, .ok h)
  | s, h, (data, c) :: rest =>
    match s.receive fl h data c with
    | (s, .error err) => (s, .error err)
    | (s, .ok h) => receiveAll s h rest

/-- The batches left at the end of the stream; `c` is what each meets. -/
def flush (c : GoString → Circumstances) : GrpcServer → List (GoString × List Record) →
    GrpcServer × Except String Unit
  | s, [] => (s, .ok ())
  | s, (node, items) :: rest =>
    if items.length > 0 then
      match s.processBatch fl (c node) items with
      | (s, .error err) => (s, .error err)
      | (s, .ok ()) => flush c s rest
    else
      flush c s rest

end GrpcServer

structure MetricsResponse where
  success : Bool
  message : String
  deriving DecidableEq

def successReply (count : Nat) : MetricsResponse where
  success := true
  message := "成功处理" ++ toString count ++ "条数据"

/-- A stream as the handler meets it. -/
structure Stream where
  records : List (Record × Circumstances)
  /-- How `Recv` ends: an error, or the end of the stream. -/
  recvErr : Option String
  atEnd : GoString → Circumstances
  closeErr : Option String

def GrpcServer.sendMetrics (fl : Floats) (s : GrpcServer) (stream : Stream) :
    GrpcServer × Except String MetricsResponse :=
  match s.receiveAll fl ⟨0, []⟩ stream.records with
  | (s, .error err) => (s, .error err)
  | (s, .ok h) =>
    match stream.recvErr with
    | some err => (s, .error err)
    | none =>
      match s.flush fl stream.atEnd h.batchMap with
      | (s, .error err) => (s, .error err)
      | (s, .ok ()) =>
        match stream.closeErr with
        | some err => (s, .error err)
        | none => (s, .ok (successReply h.count))

end Monitor.Service
