import Monitor.Lib.Redis
import Monitor.Raft.Fsm

/-! # Metrics in Redis

The part of `RedisStorage` of `redis_storage.go` that writes and reads batches of values
and that saves, reads and deletes metrics. A record is a hash under a key made of its host and
timestamp. The index of a host is a sorted set that has these keys as members, and a range
query recovers the timestamps from the members. A pipeline may fail in the client before
anything is sent; that is an input of the calls.
-/

namespace Monitor.Storage

open GoText Json Redis
open Raft (MetricsData)

structure RedisStorage where
  keyPrefix : GoString
  client : Store

namespace RedisStorage

def formatKey (s : RedisStorage) (key : GoString) : GoString := s.keyPrefix ++ key

def dataKey (hostID : GoString) (timestamp : Int) : GoString :=
  ascii "metrics:" ++ hostID ++ ascii ":" ++ itoa timestamp

def indexKey (hostID : GoString) : GoString := ascii "index:metrics:" ++ hostID

/-- `pipe.Exec`, which fails ahead of the server when the client has an error. -/
def pipeExec (s : RedisStorage) (clientErr : Option GoString) (commands : List Command) :
    RedisStorage × Option GoString :=
  match clientErr with
  | some message => (s, some message)
  | none =>
    let (client, err) := exec commands s.client
    ({ s with client := client }, err)

section Batches

variable {V : Type} (jsonMarshal : V → Except GoString GoString)

/-- The values of a map, in the order the map is gone through, with their encodings. -/
def encodeItems : List (GoString × V) → Except GoString (List (GoString × GoString))
  | [] => .ok []
  | (key, value) :: items =>
    match jsonMarshal value with
    | .error err => .error err
    | .ok data =>
      match encodeItems items with
      | .error err => .error err
      | .ok pairs => .ok ((key, data) :: pairs)

def setBatch (s : RedisStorage) (items : List (GoString × V)) (clientErr : Option GoString) :
    RedisStorage × Option GoString :=
  match encodeItems jsonMarshal items with
  | .error err => (s, some err)
  | .ok pairs => s.pipeExec clientErr (pairs.map fun pair => .set (s.formatKey pair.1) pair.2)

/-- The key a read asks for; one that has the prefix already is taken as it is. -/
def batchKey (s : RedisStorage) (key : GoString) : GoString :=
  if s.keyPrefix.isPrefixOf key then key else s.formatKey key

/-- The loop of `GetBatch` over the requested keys and their replies. -/
def batchLoop : List (GoString × Except GoString GoString) → List (GoString × GoString) →
    Except GoString (List (GoString × GoString))
  | [], result => .ok result
  | (_, .error err) :: rest, result => if err ≠ redisNil then .error err else batchLoop rest result
  | (key, .ok val) :: rest, result => batchLoop rest (setKey key val result)

def getBatch (s : RedisStorage) (keys : List GoString) (clientErr : Option GoString) :
    Except GoString (List (GoString × GoString)) :=
  match clientErr with
  | some err => .error err
  | none =>
    match execGet s.client (keys.map s.batchKey) with
    | (_, some err) => .error err
    | (cmds, none) => batchLoop (keys.zip cmds) []

end Batches

section Calls

variable (fl : Floats)

/-- The hash fields of a record, in the order they are set. -/
def fieldsOf (data : MetricsData) : List (GoString × GoString) :=
  (ascii "host_id", data.hostID) :: (ascii "timestamp", itoa data.timestamp) ::
    (data.metrics.map (fun m => (ascii "metric:" ++ m.1, marshal fl m.2)) ++
      data.tags.map fun t => (ascii "tag:" ++ t.1, t.2))

/-- The pipeline of `SaveMetricsData`. -/
def saveCommands (s : RedisStorage) (data : MetricsData) : List Command :=
  let key := dataKey data.hostID data.timestamp
  let formattedKey := s.formatKey key
  let formattedIndexKey := s.formatKey (indexKey data.hostID)
  (fieldsOf fl data).map (fun field => .hset formattedKey field.1 field.2) ++
    [.expire formattedKey (7 * 24 * 3600), .zadd formattedIndexKey (double data.timestamp) key,
      .expire formattedIndexKey (7 * 24 * 3600)]

/-- The errors of the client at the first and at the second attempt of a save. -/
structure Attempts where
  first : Option GoString
  second : Option GoString

def saveMetricsData (s : RedisStorage) (data : MetricsData) (attempts : Attempts) :
    RedisStorage × Option GoString :=
  match s.pipeExec attempts.first (s.saveCommands fl data) with
  | (s, none) => (s, none)
  | (s, some err) =>
    if ascii "tx closed" <:+: err then
      s.pipeExec attempts.second (s.saveCommands fl data)
    else
      (s, some err)

def deleteMetricsData (s : RedisStorage) (hostID : GoString) (timestamp : Int)
    (clientErr : Option GoString) : RedisStorage × Option GoString :=
  let key := dataKey hostID timestamp
  s.pipeExec clientErr [.del (s.formatKey key), .zrem (s.formatKey (indexKey hostID)) key]

def readField (data : MetricsData) (field : GoString × GoString) : MetricsData :=
  if (ascii "metric:").isPrefixOf field.1 then
    match (parse field.2).bind (decode fl) with
    | some value =>
      { data with metrics := setKey (field.1.drop (ascii "metric:").length) value data.metrics }
    | none => data
  else if (ascii "tag:").isPrefixOf field.1 then
    { data with tags := setKey (field.1.drop (ascii "tag:").length) field.2 data.tags }
  else
    data

def getMetricsData (s : RedisStorage) (hostID : GoString) (timestamp : Int) :
    Except GoString MetricsData :=
  match hgetall s.client (s.formatKey (dataKey hostID timestamp)) with
  | .error err => .error err
  | .ok result =>
    if result.isEmpty then
      .error (ascii "metrics data not found")
    else
      .ok (result.foldl (readField fl)
        ⟨(getKey (ascii "host_id") result).getD [], timestamp, [], []⟩)

/-- The record that a member of the index leads to; every failure skips the member. -/
def readMember (s : RedisStorage) (hostID key : GoString) : Option MetricsData :=
  match (key.splitOn 58)[2]? with
  | some part =>
    match parseInt64 part with
    | some timestamp => (s.getMetricsData fl hostID timestamp).toOption
    | none => none
  | none => none

def getMetricsDataRange (s : RedisStorage) (hostID : GoString) (first last : Int) :
    Except GoString (List MetricsData) :=
  match zrangeByScore s.client (s.formatKey (indexKey hostID)) first last with
  | .error err => .error err
  | .ok keys => .ok (keys.filterMap (s.readMember fl hostID))

end Calls

/-- A call that changes the store. Timestamps stay where `float64` is exact. -/
inductive Op where
  | save (data : MetricsData) (exact_ : Exact data.timestamp) (attempts : Attempts)
  | delete (hostID : GoString) (timestamp : Int) (clientErr : Option GoString)

def step (fl : Floats) (s : RedisStorage) : Op → RedisStorage × Option GoString
  | .save data _ attempts => s.saveMetricsData fl data attempts
  | .delete hostID timestamp clientErr => s.deleteMetricsData hostID timestamp clientErr

def run (fl : Floats) (s : RedisStorage) (ops : List Op) : RedisStorage :=
  ops.foldl (fun s op => (s.step fl op).1) s

def init (keyPrefix : GoString) : RedisStorage := ⟨keyPrefix, fun _ => none⟩

end RedisStorage

end Monitor.Storage
