import Monitor.Lib.GoMap
import Monitor.Lib.Sprint
import Monitor.Service.GrpcServer
import Monitor.Storage.RangeQuery

/-! # Writing and reading metrics

The ways by which records get into the storage, a batch of `SendMetrics` that Raft has
committed, `SaveMetrics` and a message of Kafka, and the two endpoints that read them. A value
is stored as an object with its unit by the first way, as a string by the second and as the
sender wrote it by the third. `GetMetrics` unpacks such objects and `GetMetricsHistory` prints them.
-/

namespace Monitor.Service

open GoText Json Raft Storage List
open GoMap (LoopOrder)

section Writing

variable (fl : Floats)

/-- The record of a `SaveMetricsRequest`, which has the fields of `pb.MetricsData`. -/
def requestData (req : Record) : MetricsData where
  hostID := req.hostId.val
  timestamp := req.timestamp.toInt
  metrics := req.metrics.foldl (fun m metric => setKey metric.name.val (.string metric.value.val) m) []
  tags := req.tags.foldl (fun m tag => setKey tag.key.val tag.value.val m) []

structure SaveMetricsResponse where
  success : Bool
  message : GoString

def saveMetrics (s : RedisStorage) (req : Record) (attempts : RedisStorage.Attempts) :
    RedisStorage × Except GoString SaveMetricsResponse :=
  match s.saveMetricsData fl (requestData req) attempts with
  | (s, some err) => (s, .error (utf8 "保存指标数据失败: " ++ err))
  | (s, none) => (s, .ok ⟨true, utf8 "指标数据保存成功"⟩)

def decodeTagMembers : List (GoString × Tree) → List (GoString × GoString) →
    Option (List (GoString × GoString))
  | [], m => some m
  | (k, j) :: members, m => do
      let v ← decodeString [] j
      decodeTagMembers members (setKey k v m)

/-- Decoding into a map from strings to strings that holds `old`. -/
def decodeTags (old : List (GoString × GoString)) : Tree → Option (List (GoString × GoString))
  | .null => some []
  | .object members => decodeTagMembers members old
  | _ => none

def decodeDataMember (data : MetricsData) (member : GoString × Tree) : Option MetricsData :=
  if isField member.1 "host_id" then
    (decodeString data.hostID member.2).map fun hostID => { data with hostID }
  else if isField member.1 "timestamp" then
    (decodeInt data.timestamp member.2).map fun timestamp => { data with timestamp }
  else if isField member.1 "metrics" then
    (decodeMapInto fl data.metrics member.2).map fun metrics => { data with metrics }
  else if isField member.1 "tags" then
    (decodeTags data.tags member.2).map fun tags => { data with tags }
  else
    some data

/-- `json.Unmarshal` into a zero `models.MetricsData`. -/
def unmarshalData (value : GoString) : Option MetricsData :=
  (parse value).bind (decodeStruct ⟨[], 0, [], []⟩ (decodeDataMember fl))

inductive Ingest where
  /-- An item of a batch that was committed, as the state machine finds it. -/
  | sendMetrics (item : Fields) (attempts : RedisStorage.Attempts)
  | saveMetrics (req : Record) (attempts : RedisStorage.Attempts)
  /-- The value of a message. -/
  | kafka (value : GoString) (attempts : RedisStorage.Attempts)

def ingest (s : RedisStorage) : Ingest → RedisStorage
  | .sendMetrics item attempts => (s.saveMetricsData fl (storageData fl item) attempts).1
  | .saveMetrics req attempts => (saveMetrics fl s req attempts).1
  | .kafka value attempts =>
    match unmarshalData fl value with
    | none => s
    | some data => (s.saveMetricsData fl data attempts).1

/-- The storage behind a prefix after the records, from an empty server. -/
def ingestAll (keyPrefix : GoString) (records : List Ingest) : RedisStorage :=
  records.foldl (ingest fl) (.init keyPrefix)

end Writing

/-- `pb.Metric` of a reply. -/
structure MetricReply where
  name : GoString
  value : GoString
  unit : GoString

/-- `pb.Tag` of a reply. -/
structure TagReply where
  key : GoString
  value : GoString

/-- `pb.MetricsData` of a reply. -/
structure RecordReply where
  hostId : GoString
  timestamp : Int
  metrics : List MetricReply
  tags : List TagReply

section Reading

variable (fl : Floats) (float : Float64 → GoString)

/-- The text of a stored value, which is the one inside of an object that has one. -/
def valueText : Value → GoString
  | .map members =>
    match getKey (ascii "value") members with
    | some value => sprint float value
    | none => sprint float (.map members)
  | raw => sprint float raw

def unitText : Value → GoString
  | .map members => stringField members (ascii "unit")
  | _ => []

/-- A record as `GetMetrics` sends it. -/
def streamReply (order : LoopOrder) (data : MetricsData) : RecordReply where
  hostId := data.hostID
  timestamp := data.timestamp
  metrics := (order.entries data.metrics).map fun m => ⟨m.1, valueText float m.2, unitText m.2⟩
  tags := []

/-- The loop of `GetMetrics` from record `i` on, with the answers of the stream: what was sent and the
    error that ended it. -/
def streamLoop (order : Nat → LoopOrder) (send : Nat → Option GoString) :
    Nat → List MetricsData → List RecordReply × Option GoString
  | _, [] => ([], none)
  | i, data :: rest =>
    match send i with
    | some err => ([], some err)
    | none =>
      let (sent, err) := streamLoop order send (i + 1) rest
      (streamReply float (order i) data :: sent, err)

def getMetrics (s : RedisStorage) (order : Nat → LoopOrder) (send : Nat → Option GoString)
    (hostId : GoString) (startTime endTime : Int) : List RecordReply × Option GoString :=
  match s.getMetricsDataRange fl hostId startTime endTime with
  | .error err => ([], some err)
  | .ok metricsList => streamLoop float order send 0 metricsList

structure GetMetricsHistoryResponse where
  success : Bool
  data : List RecordReply
  message : GoString

/-- A record as `GetMetricsHistory` returns it. -/
def historyReply (order : LoopOrder) (data : MetricsData) : RecordReply where
  hostId := data.hostID
  timestamp := data.timestamp
  metrics := (order.entries data.metrics).map fun m => ⟨m.1, sprint float m.2, []⟩
  tags := (order.entries data.tags).map fun t => ⟨t.1, t.2⟩

def historyLoop (order : Nat → LoopOrder) : Nat → List MetricsData → List RecordReply
  | _, [] => []
  | i, data :: rest => historyReply float (order i) data :: historyLoop order (i + 1) rest

def getMetricsHistory (s : RedisStorage) (order : Nat → LoopOrder) (hostId : GoString)
    (startTime endTime : Int) : Except GoString GetMetricsHistoryResponse :=
  match s.getMetricsDataRange fl hostId startTime endTime with
  | .error err => .error (utf8 "获取指标历史数据失败: " ++ err)
  | .ok metrics =>
    let pbMetrics := historyLoop float order 0 metrics
    .ok ⟨true, pbMetrics, utf8 "获取到" ++ itoa pbMetrics.length ++ utf8 "条指标数据"⟩

end Reading

def RecordReply.pairs (r : RecordReply) : List (GoString × GoString) :=
  r.metrics.map fun m => (m.name, m.value)

/-- The same record with the same set of names and values. -/
structure SameReply (r r' : RecordReply) : Prop where
  hostId : r.hostId = r'.hostId
  timestamp : r.timestamp = r'.timestamp
  pairs : ∀ pair, pair ∈ r.pairs ↔ pair ∈ r'.pairs

/-- Both endpoints fail and report nothing, or both report the same records. -/
def Agree (stream : List RecordReply × Option GoString)
    (history : Except GoString GetMetricsHistoryResponse) : Prop :=
  match history with
  | .error _ => stream.1 = [] ∧ stream.2 ≠ none
  | .ok response => stream.2 = none ∧ List.Forall₂ SameReply stream.1 response.data

/-- An object with a member for the value, as a batch is stored. -/
def Wrapped : Value → Prop
  | .map members => getKey (ascii "value") members ≠ none
  | _ => False

section Agreement

variable (fl : Floats) (float : Float64 → GoString)

theorem valueText_eq_iff (v : Value) : valueText float v = sprint float v ↔ ¬ Wrapped v := by
  cases v with
  | map members =>
    simp only [valueText, Wrapped]
    cases found : getKey (ascii "value") members with
    | none => simp
    | some value =>
      have longer := length_sprint_lt float (mem_of_getKey found)
      refine iff_of_false (fun equal => ?_) (by simp)
      exact absurd (congrArg List.length equal) longer.ne
  | _ => exact iff_of_true rfl (fun wrapped => wrapped)

theorem pairs_iff {A : Type} {m : List (GoString × A)} (ordered : KeysOrdered m) (f g : A → GoString) :
    (∀ pair, (∃ e ∈ m, (e.1, f e.2) = pair) ↔ ∃ e ∈ m, (e.1, g e.2) = pair) ↔
      ∀ e ∈ m, f e.2 = g e.2 := by
  constructor
  · intro same e mem
    obtain ⟨e', mem', equal⟩ := (same (e.1, f e.2)).mp ⟨e, mem, rfl⟩
    obtain ⟨names, texts⟩ := Prod.mk.inj equal
    have one := ordered.getKey_of_mem mem
    have other := ordered.getKey_of_mem mem'
    rw [names, one] at other
    have value : e'.2 = e.2 := (Option.some.inj other).symm
    exact texts.symm.trans (congrArg g value)
  · intro same pair
    constructor
    · rintro ⟨e, mem, rfl⟩
      exact ⟨e, mem, by rw [same e mem]⟩
    · rintro ⟨e, mem, rfl⟩
      exact ⟨e, mem, by rw [same e mem]⟩

theorem sameReply_iff {data : MetricsData} (ordered : KeysOrdered data.metrics) (order order' : LoopOrder) :
    SameReply (streamReply float order data) (historyReply float order' data) ↔
      ∀ m ∈ data.metrics, ¬ Wrapped m.2 := by
  have stream (pair : GoString × GoString) : pair ∈ (streamReply float order data).pairs ↔
      ∃ e ∈ data.metrics, (e.1, valueText float e.2) = pair := by
    simp [RecordReply.pairs, streamReply, order.mem_entries]
  have history (pair : GoString × GoString) : pair ∈ (historyReply float order' data).pairs ↔
      ∃ e ∈ data.metrics, (e.1, sprint float e.2) = pair := by
    simp [RecordReply.pairs, historyReply, order'.mem_entries]
  have equal := pairs_iff ordered (valueText float) (sprint float)
  simp only [valueText_eq_iff float] at equal
  constructor
  · intro same
    refine equal.mp fun pair => ?_
    simp only [← stream, ← history]
    exact same.pairs pair
  · intro plain
    refine ⟨rfl, rfl, fun pair => ?_⟩
    simp only [stream, history]
    exact equal.mpr plain pair

theorem streamLoop_iff (order order' : Nat → LoopOrder) (records : List MetricsData)
    (ordered : ∀ data ∈ records, KeysOrdered data.metrics) (i : Nat) :
    (streamLoop float order (fun _ => none) i records).2 = none ∧
      (List.Forall₂ SameReply (streamLoop float order (fun _ => none) i records).1
          (historyLoop float order' i records) ↔
        ∀ data ∈ records, ∀ m ∈ data.metrics, ¬ Wrapped m.2) := by
  induction records generalizing i with
  | nil => simp [streamLoop, historyLoop]
  | cons data rest ih =>
    obtain ⟨here, later⟩ := forall_mem_cons.mp ordered
    obtain ⟨finished, same⟩ := ih later (i + 1)
    simp only [streamLoop, historyLoop, finished, forall₂_cons, forall_mem_cons, true_and,
      sameReply_iff float here, same]

end Agreement

/-- For whatever got into the storage by the three ways, and every host and range, the endpoints agree
    exactly when no metric of a record in the range is stored as an object with its value inside. -/
theorem endpoints_agree_iff (fl : Floats) (float : Float64 → GoString) (keyPrefix : GoString)
    (ingested : List Ingest) (hostId : GoString) (startTime endTime : Int) (order order' : Nat → LoopOrder) :
    Agree
        (getMetrics fl float (ingestAll fl keyPrefix ingested) order (fun _ => none) hostId startTime endTime)
        (getMetricsHistory fl float (ingestAll fl keyPrefix ingested) order' hostId startTime endTime) ↔
      ∀ records, (ingestAll fl keyPrefix ingested).getMetricsDataRange fl hostId startTime endTime =
          .ok records → ∀ data ∈ records, ∀ m ∈ data.metrics, ¬ Wrapped m.2 := by
  unfold getMetrics getMetricsHistory
  cases read : (ingestAll fl keyPrefix ingested).getMetricsDataRange fl hostId startTime endTime with
  | error err => exact iff_of_true ⟨rfl, Option.some_ne_none err⟩ (by simp)
  | ok records =>
    have ordered := RedisStorage.getMetricsDataRange_ordered fl read
    obtain ⟨finished, same⟩ := streamLoop_iff float order order' records ordered 0
    simp only [Agree, finished, true_and, same, Except.ok.injEq, forall_eq']

/-- A metric `cpu` of 1 percent, as the state machine finds it in a batch. -/
def cpuItem : Fields :=
  [(ascii "hostId", .string (ascii "h")),
    (ascii "metrics", .slice [.map [(ascii "name", .string (ascii "cpu")),
      (ascii "unit", .string (ascii "%")), (ascii "value", .string (ascii "1"))]])]

def cpuStorage : RedisStorage := ingestAll noFloats (ascii "p:") [.sendMetrics cpuItem ⟨none, none⟩]

/-- After one record of a batch, one endpoint reports the value 1 and the other the whole object. -/
theorem endpoints_differ :
    (getMetrics noFloats (fun _ => []) cpuStorage (fun _ => .same) (fun _ => none) (ascii "h") 0 9).1.map
        RecordReply.pairs = [[(ascii "cpu", ascii "1")]] ∧
      (getMetricsHistory noFloats (fun _ => []) cpuStorage (fun _ => .same) (ascii "h") 0 9).toOption.map
        (fun response => response.data.map RecordReply.pairs) =
          some [[(ascii "cpu", ascii "map[unit:% value:1]")]] ∧
      ¬ Agree
        (getMetrics noFloats (fun _ => []) cpuStorage (fun _ => .same) (fun _ => none) (ascii "h") 0 9)
        (getMetricsHistory noFloats (fun _ => []) cpuStorage (fun _ => .same) (ascii "h") 0 9) := by
  have stream : (getMetrics noFloats (fun _ => []) cpuStorage (fun _ => .same) (fun _ => none)
      (ascii "h") 0 9).1.map RecordReply.pairs = [[(ascii "cpu", ascii "1")]] := by decide +kernel
  have history : (getMetricsHistory noFloats (fun _ => []) cpuStorage (fun _ => .same)
      (ascii "h") 0 9).toOption.map (fun response => response.data.map RecordReply.pairs) =
        some [[(ascii "cpu", ascii "map[unit:% value:1]")]] := by decide +kernel
  refine ⟨stream, history, fun agree => ?_⟩
  cases read : getMetricsHistory noFloats (fun _ => []) cpuStorage (fun _ => .same) (ascii "h") 0 9 with
  | error err =>
    rw [read] at history
    cases history
  | ok response =>
    rw [read] at agree history
    obtain ⟨r, one, sent⟩ := map_eq_singleton_iff.mp stream
    obtain ⟨r', one', returned⟩ := map_eq_singleton_iff.mp (Option.some.inj history)
    have same := agree.2
    rw [one, one'] at same
    have found := ((forall₂_cons.mp same).1.pairs (ascii "cpu", ascii "1")).mp (by simp [sent])
    rw [returned] at found
    exact absurd found (by decide)

end Monitor.Service
