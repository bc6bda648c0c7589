import Monitor.Lib.Json

/-! # The replicated state machine

`FSM` of `fsm.go`: every committed log entry is decoded and applied to an in-memory
map, and the metrics of a batch are saved to the storage of the replica as well. What
that storage answers to each call is an input of `apply`. The model records the data
whose saving succeeded.
-/

namespace Monitor.Raft

open GoText Json

/-- `models.MetricsData`. -/
structure MetricsData where
  hostID : GoString
  timestamp : Int
  metrics : List (GoString × Value)
  tags : List (GoString × GoString)

structure Command where
  type : Int
  key : GoString
  value : GoString
  ttl : Int
  metaData : List (GoString × Value)

namespace Command

def commandSet : Int := 0
def commandDelete : Int := 1
def commandUpdate : Int := 2
def commandIncrement : Int := 3
def commandExpire : Int := 4

def zero : Command := ⟨0, [], [], 0, []⟩

def decodeMember (fl : Floats) (cmd : Command) (member : GoString × Tree) : Option Command :=
  if isField member.1 "type" then
    (decodeInt cmd.type member.2).map fun type => { cmd with type }
  else if isField member.1 "key" then
    (decodeString cmd.key member.2).map fun key => { cmd with key }
  else if isField member.1 "value" then
    (decodeBytes cmd.value member.2).map fun value => { cmd with value }
  else if isField member.1 "ttl" then
    (decodeInt cmd.ttl member.2).map fun ttl => { cmd with ttl }
  else if isField member.1 "meta" then
    (decodeMapInto fl cmd.metaData member.2).map fun metaData => { cmd with metaData }
  else
    some cmd

/-- `json.Unmarshal` into a zero command. -/
def decode (fl : Floats) : Tree → Option Command := decodeStruct zero (decodeMember fl)

end Command

/-- The answer of one `SaveMetricsData` call. -/
inductive SaveOutcome where
  | ok
  | error (message : GoString)
  | panic (message : GoString)
  deriving DecidableEq

/-- The storage error of a call; a panic is recovered into one. -/
def SaveOutcome.storageErr : SaveOutcome → Option GoString
  | .ok => none
  | .error message => some message
  | .panic message => some (ascii "panic in SaveMetricsData: " ++ message)

inductive FsmError where
  | unmarshalCommand
  | unmarshalGeneric
  | unknownType (cmdType : GoString)
  | invalidBatch
  | storage (message : GoString)
  deriving DecidableEq

/-- What `Apply` returns, or that it does not return. -/
inductive Response where
  | nil
  | error (e : FsmError)
  | panic
  deriving DecidableEq

structure LogEntry where
  index : UInt64
  term : UInt64
  data : GoString

structure Fsm where
  data : GoString → Option GoString
  lastIndex : UInt64
  lastTerm : UInt64
  storage : Bool
  saved : List MetricsData

def newFSM (storage : Bool) : Fsm where
  data := fun _ => none
  lastIndex := 0
  lastTerm := 0
  storage := storage
  saved := []

/-- One object of a batch, as decoded. -/
abbrev Fields := List (GoString × Value)

section Batch

def hostIDOf (m : Fields) : GoString :=
  let hostID := stringField m (ascii "hostId")
  if hostID.isEmpty then stringField m (ascii "host_id") else hostID

def timestampOf (fl : Floats) (m : Fields) : Int :=
  match getKey (ascii "timestamp") m with
  | some (.float x) => fl.truncate x
  | _ => fl.truncate 0

def metricsKey (hostID : GoString) (timestamp : Int) : GoString :=
  ascii "monitor:metrics:" ++ hostID ++ ascii ":" ++ itoa timestamp

def metricValue (metric : Fields) : Option Value :=
  match getKey (ascii "value") metric with
  | some (.string s) => some (.string s)
  | some (.float x) => some (.float x)
  | _ => none

def addMetric (metrics : List (GoString × Value)) : Value → List (GoString × Value)
  | .map metric =>
    let name := stringField metric (ascii "name")
    let name := if name.isEmpty then stringField metric (ascii "Name") else name
    match metricValue metric with
    | some val =>
      if name.isEmpty then
        metrics
      else
        setKey name (.map [(ascii "unit", .string (stringField metric (ascii "unit"))),
          (ascii "value", val)]) metrics
    | none => metrics
  | _ => metrics

def addTag (tags : List (GoString × GoString)) : Value → List (GoString × GoString)
  | .map tag =>
    let key := stringField tag (ascii "key")
    let value := stringField tag (ascii "value")
    if key.isEmpty ∨ value.isEmpty then tags else setKey key value tags
  | _ => tags

def sliceField (m : Fields) (k : GoString) : List Value :=
  match getKey k m with
  | some (.slice items) => items
  | _ => []

def storageData (fl : Floats) (m : Fields) : MetricsData where
  hostID := hostIDOf m
  timestamp := timestampOf fl m
  metrics := (sliceField m (ascii "metrics")).foldl addMetric []
  tags := (sliceField m (ascii "tags")).foldl addTag []

end Batch

namespace Fsm

variable (fl : Floats)

def put (f : Fsm) (key value : GoString) : Fsm :=
  { f with data := Function.update f.data key (some value) }

def delete (f : Fsm) (key : GoString) : Fsm :=
  { f with data := Function.update f.data key none }

def putItem (f : Fsm) (m : Fields) : Fsm :=
  f.put (metricsKey (hostIDOf m) (timestampOf fl m)) (marshal fl (.map m))

/-- The loop of `applyBatchMetrics`; `call` counts the calls to the storage. -/
def applyItems (outcome : Nat → SaveOutcome) : Nat → Fsm → List Value → Fsm × Response
  | _, f, [] => (f, .nil)
  | call, f, .map m :: items =>
    let f := f.putItem fl m
    if f.storage then
      match (outcome call).storageErr with
      | some message => (f, .error (.storage message))
      | none =>
        applyItems outcome (call + 1) { f with saved := f.saved ++ [storageData fl m] } items
    else
      applyItems outcome call f items
  | call, f, _ :: items => applyItems outcome call f items

def applyBatchMetrics (outcome : Nat → SaveOutcome) (f : Fsm) (cmd : Fields) : Fsm × Response :=
  match getKey (ascii "batch") cmd with
  | some (.slice batch) => f.applyItems fl outcome 0 batch
  | _ => (f, .error .invalidBatch)

def applyHostRegistration (f : Fsm) (cmd : Fields) : Fsm × Response :=
  (f.put (ascii "host:" ++ stringField cmd (ascii "host_id")) (marshal fl (.map cmd)), .nil)

def applyConfigUpdate (f : Fsm) (cmd : Fields) : Fsm × Response :=
  (f.put (ascii "config:current") (marshal fl (.map cmd)), .nil)

/-- `applyGenericCommand`; the assertion on the type is unchecked and panics on other values. -/
def applyGenericCommand (outcome : Nat → SaveOutcome) (f : Fsm) (rawData : GoString) :
    Fsm × Response :=
  match (parse rawData).bind (decodeMap fl) with
  | none => (f, .error .unmarshalGeneric)
  | some genericCmd =>
    match getKey (ascii "type") genericCmd with
    | some (.string cmdType) =>
      if cmdType = ascii "batch_metrics" then
        f.applyBatchMetrics fl outcome genericCmd
      else if cmdType = ascii "host_registration" then
        f.applyHostRegistration fl genericCmd
      else if cmdType = ascii "config_update" then
        f.applyConfigUpdate fl genericCmd
      else
        (f, .error (.unknownType cmdType))
    | _ => (f, .panic)

/-- `json.Unmarshal` into a fresh `int`. -/
def readInt (s : GoString) : Option Int := (parse s).bind (decodeInt 0)

def increment (f : Fsm) (cmd : Command) : Fsm :=
  match f.data cmd.key with
  | none => f
  | some val =>
    match readInt val with
    | none => f
    | some current =>
      match readInt cmd.value with
      | none => f
      | some amount => f.put cmd.key (itoa (wrap64 (current + amount)))

def applyCommand (outcome : Nat → SaveOutcome) (f : Fsm) (cmd : Command) (rawData : GoString) :
    Fsm × Response :=
  if cmd.type = Command.commandSet then
    (f.put cmd.key cmd.value, .nil)
  else if cmd.type = Command.commandDelete then
    (f.delete cmd.key, .nil)
  else if cmd.type = Command.commandUpdate then
    (if (f.data cmd.key).isSome then f.put cmd.key cmd.value else f, .nil)
  else if cmd.type = Command.commandIncrement then
    (f.increment cmd, .nil)
  else if cmd.type = Command.commandExpire then
    (f.delete cmd.key, .nil)
  else
    f.applyGenericCommand fl outcome rawData

/-- Whether the probe finds a non-empty type name. -/
def isGeneric (data : GoString) : Bool :=
  match (parse data).bind (decodeMap fl) with
  | some probe => !(stringField probe (ascii "type")).isEmpty
  | none => false

def apply (outcome : Nat → SaveOutcome) (f : Fsm) (logEntry : LogEntry) : Fsm × Response :=
  let f := { f with lastIndex := logEntry.index, lastTerm := logEntry.term }
  if isGeneric fl logEntry.data then
    f.applyGenericCommand fl outcome logEntry.data
  else
    match (parse logEntry.data).bind (Command.decode fl) with
    | none => (f, .error .unmarshalCommand)
    | some cmd => f.applyCommand fl outcome cmd logEntry.data

/-- A replica fed with entries, each with what its storage will answer meanwhile. -/
def replay (f : Fsm) (entries : List (LogEntry × (Nat → SaveOutcome))) : Fsm :=
  entries.foldl (fun f entry => (f.apply fl entry.2 entry.1).1) f

end Fsm

end Monitor.Raft
