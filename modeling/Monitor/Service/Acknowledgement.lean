import Monitor.Service.GrpcServer

/-! # What an acknowledged stream has stored

A batch command is read back by the state machine as the records it was made from, so
one received record costs one entry and one call to the storage. The handler looks at
neither the response of the state machine nor at records that the ring cannot route.
`acknowledged_iff` says for which streams an acknowledgement can be trusted.
-/

namespace Monitor.Service

open GoText Json Raft Hash List GrpcServer Fsm

/-- What the conversions of the runtime do with 64-bit integers. -/
structure ReadsIntegers (fl : Floats) : Prop where
  inRange : ∀ z : Int64, (fl.parse (itoa z.toInt)).isSome = true
  zero : fl.parse (itoa 0) = some 0

/-- A 64-bit integer after it went through JSON. -/
def seconds (fl : Floats) (z : Int64) : Float64 := (fl.parse (itoa z.toInt)).getD 0

theorem ReadsIntegers.parse {fl : Floats} (reads : ReadsIntegers fl) (z : Int64) :
    fl.parse (itoa z.toInt) = some (seconds fl z) := by
  obtain ⟨x, parsed⟩ := Option.isSome_iff_exists.mp (reads.inRange z)
  rw [seconds, parsed, Option.getD_some]

variable {name : String}

section Fields

/-- What a member that may be left out does to the decoded map. -/
def put (name : String) (empty : Bool) (v : Value) (m : Fields) : Fields :=
  if empty then m else setKey (ascii name) v m

def putText (name : String) (s : Text) : Fields → Fields :=
  put name s.val.isEmpty (.string s.val)

def Metric.fields (m : Metric) : Fields :=
  putText "unit" m.unit (putText "value" m.value (putText "name" m.name []))

def Tag.fields (t : Tag) : Fields := putText "value" t.value (putText "key" t.key [])

/-- A record as the state machine finds it in a batch. -/
def Record.fields (fl : Floats) (r : Record) : Fields :=
  put "tags" r.tags.isEmpty (.slice (r.tags.map fun t => .map t.fields))
    (put "metrics" r.metrics.isEmpty (.slice (r.metrics.map fun m => .map m.fields))
      (put "timestamp" (r.timestamp == 0) (.float (seconds fl r.timestamp))
        (putText "host_id" r.hostId [])))

variable {fl : Floats} {room : Nat}

theorem member_denotes {t : Tree} {v : Value}
    (valid : sanitize (ascii name) = ascii name) (value : Denotes fl room t v) (empty : Bool)
    (m : Fields) : MembersDenote fl room (member name empty t) m (put name empty v m) := by
  cases empty with
  | true => exact .nil m
  | false => exact .cons valid value (.nil _)

theorem textMember_denotes (valid : sanitize (ascii name) = ascii name) (s : Text)
    (m : Fields) : MembersDenote fl room (textMember name s) m (putText name s m) :=
  member_denotes valid (.string s.property) _ m

theorem Metric.denotes (m : Metric) : Denotes fl (room + 1) m.tree (.map m.fields) :=
  (((textMember_denotes (by decide) m.name []).append (textMember_denotes (by decide) m.value _)).append
    (textMember_denotes (by decide) m.unit _)).object

theorem Tag.denotes (t : Tag) : Denotes fl (room + 1) t.tree (.map t.fields) :=
  ((textMember_denotes (by decide) t.key []).append (textMember_denotes (by decide) t.value _)).object

theorem Record.denotes (reads : ReadsIntegers fl) (r : Record) :
    Denotes fl (room + 3) r.tree (.map (r.fields fl)) :=
  ((((textMember_denotes (by decide) r.hostId []).append
    (member_denotes (by decide) (.number (itoa_isLiteral _) (reads.parse r.timestamp)) _ _)).append
    (member_denotes (by decide) (.array Metric.denotes r.metrics) _ _)).append
    (member_denotes (by decide) (.array Tag.denotes r.tags) _ _)).object

/-- A batch command as the state machine decodes it. -/
def commandFields (fl : Floats) (batch : List Record) (now : Int64) : Fields :=
  setKey (ascii "type") (.string (ascii "batch_metrics"))
    (setKey (ascii "timestamp") (.float (seconds fl now))
      (setKey (ascii "batch") (.slice (batch.map fun r => .map (r.fields fl))) []))

theorem commandTree_read (reads : ReadsIntegers fl) (batch : List Record) (now : Int64) :
    (parse (write (commandTree batch now))).bind (decodeMap fl) = some (commandFields fl batch now) :=
  MembersDenote.read <|
    .cons (by decide) (.array (Record.denotes reads) batch) <|
    .cons (by decide) (.number (itoa_isLiteral _) (reads.parse now)) <|
    .cons (by decide) (.string (by decide)) (.nil _)

end Fields

section Stored

/-- The metrics a record is saved with: those with a name and a value, the last of each name. -/
def Metric.save (metrics : List (GoString × Value)) (m : Metric) : List (GoString × Value) :=
  if m.name.val = [] ∨ m.value.val = [] then
    metrics
  else
    setKey m.name.val
      (.map [(ascii "unit", .string m.unit.val), (ascii "value", .string m.value.val)]) metrics

def Tag.save (tags : List (GoString × GoString)) (t : Tag) : List (GoString × GoString) :=
  if t.key.val = [] ∨ t.value.val = [] then tags else setKey t.key.val t.value.val tags

/-- What the storage is to hold for a record, under a given timestamp. -/
def Record.storedAt (r : Record) (timestamp : Int) : MetricsData where
  hostID := r.hostId.val
  timestamp := timestamp
  metrics := r.metrics.foldl Metric.save []
  tags := r.tags.foldl Tag.save []

def Record.stored (r : Record) : MetricsData := r.storedAt r.timestamp.toInt

theorem getKey_put {k : GoString} (other : ascii name ≠ k) (empty : Bool)
    (v : Value) (m : Fields) : getKey k (put name empty v m) = getKey k m := by
  cases empty with
  | true => rfl
  | false =>
    rw [put, if_neg Bool.false_ne_true, getKey_setKey, if_neg other]

theorem getKey_put_self (name : String) (empty : Bool) (v : Value) (m : Fields) :
    getKey (ascii name) (put name empty v m) =
      if empty then getKey (ascii name) m else some v := by
  cases empty with
  | true => rfl
  | false => rw [put, if_neg Bool.false_ne_true, getKey_setKey, if_pos rfl, if_neg Bool.false_ne_true]

theorem stringField_put {k : GoString} (other : ascii name ≠ k) (empty : Bool)
    (v : Value) (m : Fields) : stringField (put name empty v m) k = stringField m k := by
  rw [stringField, getKey_put other, stringField]

theorem stringField_putText (s : Text) {m : Fields}
    (absent : getKey (ascii name) m = none) : stringField (putText name s m) (ascii name) = s.val := by
  rw [stringField, putText, getKey_put_self, absent]
  cases s.val with
  | nil | cons c rest => rfl

theorem sliceField_put {α : Type} (value : α → Value) (items : List α) {m : Fields}
    (absent : getKey (ascii name) m = none) :
    sliceField (put name items.isEmpty (.slice (items.map value)) m) (ascii name) =
      items.map value := by
  rw [sliceField, getKey_put_self, absent]
  cases items with
  | nil | cons item items => rfl

namespace Metric

variable (m : Metric)

theorem name_fields : stringField m.fields (ascii "name") = m.name.val := by
  rw [fields, putText, stringField_put (by decide), putText, stringField_put (by decide)]
  exact stringField_putText m.name rfl

theorem otherName_fields : stringField m.fields (ascii "Name") = [] := by
  rw [fields, putText, stringField_put (by decide), putText, stringField_put (by decide),
    putText, stringField_put (by decide)]
  rfl

theorem unit_fields : stringField m.fields (ascii "unit") = m.unit.val := by
  apply stringField_putText
  rw [putText, getKey_put (by decide), putText, getKey_put (by decide)]
  rfl

theorem value_fields :
    metricValue m.fields = if m.value.val = [] then none else some (.string m.value.val) := by
  rw [metricValue, fields, putText, getKey_put (by decide), putText, getKey_put_self, putText,
    getKey_put (by decide)]
  cases m.value.val with
  | nil | cons c rest => rfl

theorem addMetric_fields (metrics : List (GoString × Value)) :
    addMetric metrics (.map m.fields) = save metrics m := by
  simp only [addMetric, name_fields, otherName_fields, unit_fields, value_fields, save]
  cases named : m.name.val with
  | nil => cases m.value.val <;> rfl
  | cons c rest => cases m.value.val <;> rfl

end Metric

theorem Tag.addTag_fields (tags : List (GoString × GoString)) (t : Tag) :
    addTag tags (.map t.fields) = save tags t := by
  have key : stringField t.fields (ascii "key") = t.key.val := by
    rw [fields, putText, stringField_put (by decide)]
    exact stringField_putText t.key rfl
  have value : stringField t.fields (ascii "value") = t.value.val := by
    apply stringField_putText
    rw [putText, getKey_put (by decide)]
    rfl
  simp only [addTag, key, value, save, List.isEmpty_iff]

variable {fl : Floats}

theorem Record.hostID_fields (r : Record) : hostIDOf (r.fields fl) = r.hostId.val := by
  have absent : stringField (r.fields fl) (ascii "hostId") = [] := by
    rw [fields, stringField_put (by decide), stringField_put (by decide),
      stringField_put (by decide), putText, stringField_put (by decide)]
    rfl
  rw [hostIDOf, absent, fields, stringField_put (by decide), stringField_put (by decide),
    stringField_put (by decide), stringField_putText r.hostId rfl]
  rfl

theorem Record.timestamp_fields (reads : ReadsIntegers fl) (r : Record) :
    timestampOf fl (r.fields fl) = fl.truncate (seconds fl r.timestamp) := by
  rw [timestampOf, fields, getKey_put (by decide), getKey_put (by decide), getKey_put_self, putText,
    getKey_put (by decide)]
  by_cases zero : r.timestamp = 0
  · have none_ : seconds fl r.timestamp = 0 := by
      rw [zero, seconds, show (0 : Int64).toInt = 0 from rfl, reads.zero, Option.getD_some]
    rw [none_, zero]
    rfl
  · rw [if_neg (by simpa using zero)]

/-- The state machine hands a record to the storage with its own content, but with the timestamp
    that came through `float64`. -/
theorem Record.storageData_fields (reads : ReadsIntegers fl) (r : Record) :
    storageData fl (r.fields fl) = r.storedAt (fl.truncate (seconds fl r.timestamp)) := by
  have metrics : sliceField (r.fields fl) (ascii "metrics") =
      r.metrics.map fun m => .map m.fields := by
    rw [fields, sliceField, getKey_put (by decide), ← sliceField]
    apply sliceField_put
    rw [getKey_put (by decide), putText, getKey_put (by decide)]
    rfl
  have tags : sliceField (r.fields fl) (ascii "tags") = r.tags.map fun t => .map t.fields := by
    apply sliceField_put
    rw [getKey_put (by decide), getKey_put (by decide), putText, getKey_put (by decide)]
    rfl
  simp only [storageData, storedAt, hostID_fields, timestamp_fields reads, metrics, tags,
    foldl_map, Metric.addMetric_fields, Tag.addTag_fields]

end Stored

def Try.taken (t : Try) : Option Commit :=
  if t.isLeader then
    match t.raft with
    | .error _ => none
    | .committed commit => some commit
  else
    none

namespace Circumstances

/-- The entry of the first try from `i` on that Raft takes, while there is a leader. -/
def forwarded (c : Circumstances) : Nat → Nat → Option Commit
  | 0, _ => none
  | fuel + 1, i =>
    if (c.tries i).leader = [] then
      none
    else
      match (c.tries i).taken with
      | some commit => some commit
      | none => forwarded c fuel (i + 1)

/-- The entry a record gets in the log, if it gets one. -/
def committed (c : Circumstances) : Option Commit :=
  if c.isLeader then
    (c.tries 0).taken
  else if c.leader = [] then
    none
  else
    c.forwarded 3 0

end Circumstances

/-- The error of the storage for a record, if its entry makes the storage fail. -/
def saveError (c : Circumstances) : Option GoString :=
  c.committed.bind fun commit => (commit.storage 0).storageErr

section Landing

variable (fl : Floats)

/-- The response of the state machine to the entry of a record. -/
def response (attached : Bool) (c : Circumstances) : Response :=
  match saveError c with
  | some message => if attached then .error (.storage message) else .nil
  | none => .nil

def added (attached : Bool) (x : Record × Circumstances) : List MetricsData :=
  if attached ∧ saveError x.2 = none then
    [x.1.storedAt (fl.truncate (seconds fl x.1.timestamp))]
  else
    []

/-- The server after the entries of some records. -/
structure Landed (records : List (Record × Circumstances)) (s s' : GrpcServer) : Prop where
  ring : s'.hashRing = s.hashRing
  attached : s'.fsm.storage = s.fsm.storage
  results : s'.results = s.results ++ records.map fun x => response s.fsm.storage x.2
  saved : s'.fsm.saved = s.fsm.saved ++ records.flatMap (added fl s.fsm.storage)

variable {fl}

theorem Landed.nil (s : GrpcServer) : Landed fl [] s s :=
  ⟨rfl, rfl, (append_nil _).symm, (append_nil _).symm⟩

theorem Landed.cons {x : Record × Circumstances} {records : List (Record × Circumstances)}
    {s s₁ s₂ : GrpcServer} (first : Landed fl [x] s s₁) (rest : Landed fl records s₁ s₂) :
    Landed fl (x :: records) s s₂ where
  ring := rest.ring.trans first.ring
  attached := rest.attached.trans first.attached
  results := by
    rw [rest.results, first.results, first.attached, append_assoc]
    rfl
  saved := by
    rw [rest.saved, first.saved, first.attached, append_assoc, flatMap_cons,
      flatMap_cons, flatMap_nil, append_nil]

theorem apply_commandTree (reads : ReadsIntegers fl) (outcome : Nat → SaveOutcome) (f : Fsm)
    (index term : UInt64) (batch : List Record) (now : Int64) :
    f.apply fl outcome ⟨index, term, write (commandTree batch now)⟩ =
      applyItems fl outcome 0 { f with lastIndex := index, lastTerm := term }
        (batch.map fun r => .map (r.fields fl)) := by
  have type : getKey (ascii "type") (commandFields fl batch now) =
      some (.string (ascii "batch_metrics")) := by
    rw [commandFields, getKey_setKey, if_pos rfl]
  have items : getKey (ascii "batch") (commandFields fl batch now) =
      some (.slice (batch.map fun r => .map (r.fields fl))) := by
    rw [commandFields, getKey_setKey, if_neg (by decide), getKey_setKey, if_neg (by decide),
      getKey_setKey, if_pos rfl]
  have generic : isGeneric fl (write (commandTree batch now)) = true := by
    simp only [isGeneric, commandTree_read reads, stringField, type]
    decide
  simp only [apply, generic, if_true, applyGenericCommand, commandTree_read reads, type,
    applyBatchMetrics, items]

variable {t : Try} {commit : Commit}

theorem Try.taken_eq_some (taken : t.taken = some commit) :
    t.isLeader = true ∧ t.raft = .committed commit := by
  simp only [Try.taken] at taken
  split at taken
  · rename_i leader
    cases answer : t.raft with
    | error message => simp only [answer, reduceCtorEq] at taken
    | committed other =>
      simp only [answer, Option.some.injEq] at taken
      exact ⟨leader, by rw [taken]⟩
  · cases taken

/-- What handling one record comes to, by the entry it gets. -/
inductive Handled (fl : Floats) (r : Record) (c : Circumstances) (s : GrpcServer) :
    GrpcServer × Except String Unit → Prop where
  | refused (lost : c.committed = none) (err : String) : Handled fl r c s (s, .error err)
  | landed {s' : GrpcServer} (kept : c.committed ≠ none) (landed : Landed fl [(r, c)] s s') :
      Handled fl r c s (s', .ok ())

theorem applyBatch_landed (reads : ReadsIntegers fl) (s : GrpcServer)
    (taken : t.taken = some commit) {c : Circumstances} (committed : c.committed = some commit)
    (r : Record) : ∃ s', s.applyBatch fl t [r] = (s', .ok ()) ∧ Landed fl [(r, c)] s s' := by
  obtain ⟨leader, answer⟩ := Try.taken_eq_some taken
  have error : saveError c = (commit.storage 0).storageErr := by
    rw [saveError, committed, Option.bind_some]
  simp only [GrpcServer.applyBatch, GrpcServer.raftApply, leader, answer, if_true,
    apply_commandTree reads, map_cons, map_nil, Fsm.applyItems]
  refine ⟨_, rfl, ?_⟩
  cases attached : s.fsm.storage with
  | false =>
    simp only [Fsm.putItem, Fsm.put, Bool.false_eq_true, if_false]
    refine ⟨rfl, attached.symm, ?_, ?_⟩
    · simp only [attached, response, map_cons, map_nil]
      cases saveError c <;> rfl
    · simp only [attached, added, Bool.false_eq_true, false_and, if_false, flatMap_cons,
        flatMap_nil, append_nil]
  | true =>
    simp only [Fsm.putItem, Fsm.put, if_true]
    cases failed : (commit.storage 0).storageErr with
    | none =>
      refine ⟨rfl, attached.symm, ?_, ?_⟩
      · simp only [response, error, failed, map_cons, map_nil]
      · simp only [attached, added, error, failed, and_self, if_true, flatMap_cons,
          flatMap_nil, append_nil, Record.storageData_fields reads]
    | some message =>
      refine ⟨rfl, attached.symm, ?_, ?_⟩
      · simp only [attached, response, error, failed, map_cons, map_nil, if_true]
      · simp only [added, error, failed, reduceCtorEq, and_false, if_false, flatMap_cons,
          flatMap_nil, append_nil]

theorem applyBatch_refused (fl : Floats) (s : GrpcServer) (taken : t.taken = none)
    (batch : List Record) : ∃ err, s.applyBatch fl t batch = (s, .error err) := by
  simp only [Try.taken] at taken
  simp only [applyBatch, raftApply]
  split at taken
  · rename_i leader
    cases answer : t.raft with
    | error message =>
      simp only [leader, if_true]
      exact ⟨_, rfl⟩
    | committed commit => simp only [answer, reduceCtorEq] at taken
  · rename_i follower
    simp only [follower, Bool.false_eq_true, if_false]
    exact ⟨_, rfl⟩

theorem applyBatch_handled (reads : ReadsIntegers fl) (s : GrpcServer) (r : Record)
    {c : Circumstances} (same : c.committed = t.taken) : Handled fl r c s (s.applyBatch fl t [r]) := by
  cases taken : t.taken with
  | none =>
    obtain ⟨err, refused⟩ := applyBatch_refused fl s taken [r]
    rw [refused]
    exact .refused (same.trans taken) err
  | some commit =>
    obtain ⟨s', done, landed⟩ := applyBatch_landed reads s taken (same.trans taken) r
    rw [done]
    exact .landed (by rw [same, taken]; exact Option.some_ne_none commit) landed

-- The leader that a batch was last sent to is never the empty string, so a lost leader always
-- shows as a change.
theorem forwardLoop_handled (reads : ReadsIntegers fl) (maxRetries : Nat) (r : Record)
    (c : Circumstances) (s : GrpcServer) : ∀ (fuel i : Nat) (leaderID : GoString)
      (lastErr : Option String), leaderID ≠ [] → c.committed = c.forwarded fuel i →
      Handled fl r c s (forwardLoop fl maxRetries c [r] fuel i leaderID lastErr s) := by
  intro fuel
  induction fuel with
  | zero => exact fun i leaderID lastErr _ same => .refused same _
  | succ fuel ih =>
    intro i leaderID lastErr known same
    simp only [Circumstances.forwarded] at same
    simp only [forwardLoop]
    by_cases lost : (c.tries i).leader = []
    · rw [if_pos lost] at same
      rw [if_pos ⟨fun h => known (h.symm.trans lost), lost⟩]
      exact .refused same _
    · rw [if_neg lost] at same
      rw [if_neg (fun h => lost h.2)]
      cases taken : (c.tries i).taken with
      | some commit =>
        simp only [taken] at same
        obtain ⟨s', done, landed⟩ := applyBatch_landed reads s taken same r
        simp only [done]
        exact .landed (by rw [same]; exact Option.some_ne_none commit) landed
      | none =>
        simp only [taken] at same
        obtain ⟨err, refused⟩ := applyBatch_refused fl s taken [r]
        simp only [refused]
        exact ih (i + 1) _ _ lost same

theorem processBatch_handled (reads : ReadsIntegers fl) (s : GrpcServer) (c : Circumstances)
    (r : Record) : Handled fl r c s (s.processBatch fl c [r]) := by
  simp only [processBatch]
  split
  · rename_i leader
    exact applyBatch_handled reads s r (by rw [Circumstances.committed, if_pos leader])
  · rename_i follower
    split
    · rename_i alone
      exact .refused (by rw [Circumstances.committed, if_neg follower, if_pos alone]) _
    · rename_i known
      exact forwardLoop_handled reads 3 r c s 3 0 c.leader none known
        (by rw [Circumstances.committed, if_neg follower, if_neg known])

end Landing

section Streaming

variable {fl : Floats}

/-- Every batch is empty, as after each turn of the loop. -/
def Drained (batchMap : List (GoString × List Record)) : Prop := ∀ entry ∈ batchMap, entry.2 = []

variable {batchMap : List (GoString × List Record)}

theorem Drained.getKey (drained : Drained batchMap)
    (node : GoString) : (getKey node batchMap).getD [] = [] := by
  cases found : Json.getKey node batchMap with
  | none => rfl
  | some items => exact drained _ (mem_of_getKey found)

theorem Drained.setKey (drained : Drained batchMap)
    (node : GoString) : Drained (setKey node [] batchMap) := by
  intro entry member
  rcases mem_setKey member with rfl | old
  · rfl
  · exact drained entry old

theorem flush_drained (c : GoString → Circumstances) (s : GrpcServer) :
    ∀ {batchMap : List (GoString × List Record)}, Drained batchMap →
      flush fl c s batchMap = (s, .ok ()) := by
  intro batchMap
  induction batchMap with
  | nil => exact fun _ => rfl
  | cons entry batchMap ih =>
    intro drained
    obtain ⟨node, items⟩ := entry
    obtain rfl : items = [] := drained _ mem_cons_self
    exact ih fun entry member => drained entry (mem_cons_of_mem _ member)

variable {s : GrpcServer}

theorem receiveAll_unrouted (empty : s.hashRing.hashRing = []) :
    ∀ (records : List (Record × Circumstances)) (h : GrpcServer.Handler),
      receiveAll fl s h records = (s, .ok { h with count := h.count + records.length }) := by
  intro records
  induction records with
  | nil => exact fun _ => rfl
  | cons x records ih =>
    intro h
    have unrouted (key : GoString) : s.hashRing.get key = .error "hash ring is empty" := by
      rw [ConsistentHash.get, empty]
      rfl
    simp only [receiveAll, receive, unrouted, ih, length_cons]
    rw [Nat.add_assoc, Nat.add_comm 1]

theorem receive_routed (reads : ReadsIntegers fl) (routed : s.hashRing.hashRing ≠ [])
    {h : GrpcServer.Handler} (drained : Drained h.batchMap) (data : Record) (c : Circumstances) :
    (c.committed = none ∧ ∃ err, s.receive fl h data c = (s, .error err)) ∨
      (c.committed ≠ none ∧ ∃ s' batchMap, s.receive fl h data c = (s', .ok ⟨h.count + 1, batchMap⟩) ∧
          Drained batchMap ∧ Landed fl [(data, c)] s s') := by
  have node (key : GoString) : ∃ node, s.hashRing.get key = .ok node :=
    ⟨_, if_neg (mt length_eq_zero_iff.mp routed)⟩
  obtain ⟨node, found⟩ := node (data.hostId.val ++ ascii ":" ++ itoa data.timestamp.toInt)
  simp only [receive, found, drained.getKey, nil_append, length_cons,
    length_nil, Nat.zero_add, Nat.le_refl, if_true]
  have handled := processBatch_handled reads s c data
  generalize s.processBatch fl c [data] = result at handled
  cases handled with
  | refused lost err => exact .inl ⟨lost, err, rfl⟩
  | landed kept landed => exact .inr ⟨kept, _, _, rfl, drained.setKey node, landed⟩

theorem receiveAll_landed (reads : ReadsIntegers fl) :
    ∀ (records : List (Record × Circumstances)) {s : GrpcServer} {h : GrpcServer.Handler},
      s.hashRing.hashRing ≠ [] → Drained h.batchMap → (∀ x ∈ records, x.2.committed ≠ none) →
      ∃ s' batchMap,
        receiveAll fl s h records = (s', .ok ⟨h.count + records.length, batchMap⟩) ∧
          Drained batchMap ∧ Landed fl records s s' := by
  intro records
  induction records with
  | nil => exact fun {s} {h} _ drained _ => ⟨s, h.batchMap, rfl, drained, .nil s⟩
  | cons x records ih =>
    intro s h routed drained kept
    obtain ⟨data, c⟩ := x
    rcases receive_routed reads routed drained data c with ⟨lost, _⟩ | ⟨_, s₁, m₁, done, drained₁, first⟩
    · exact absurd lost (kept _ mem_cons_self)
    · obtain ⟨s₂, m₂, rest, drained₂, landed⟩ :=
        ih (h := ⟨h.count + 1, m₁⟩) (first.ring ▸ routed) drained₁
        fun x member => kept x (mem_cons_of_mem _ member)
      refine ⟨s₂, m₂, ?_, drained₂, first.cons landed⟩
      simp only [receiveAll, done, rest, length_cons]
      rw [Nat.add_assoc, Nat.add_comm 1]

theorem receiveAll_refused (reads : ReadsIntegers fl) :
    ∀ (records : List (Record × Circumstances)) {s : GrpcServer} {h : GrpcServer.Handler},
      s.hashRing.hashRing ≠ [] → Drained h.batchMap → (∃ x ∈ records, x.2.committed = none) →
      ∃ s' err, receiveAll fl s h records = (s', .error err) := by
  intro records
  induction records with
  | nil => exact fun _ _ ⟨x, member, _⟩ => absurd member not_mem_nil
  | cons x records ih =>
    intro s h routed drained ⟨y, member, lost⟩
    obtain ⟨data, c⟩ := x
    rcases receive_routed reads routed drained data c with
      ⟨_, err, refused⟩ | ⟨kept, s₁, m₁, done, drained₁, first⟩
    · exact ⟨s, err, by simp only [receiveAll, refused]⟩
    · rcases mem_cons.mp member with rfl | later
      · exact absurd lost kept
      · obtain ⟨s₂, err, refused⟩ :=
          ih (h := ⟨h.count + 1, m₁⟩) (first.ring ▸ routed) drained₁ ⟨y, later, lost⟩
        exact ⟨s₂, err, by simp only [receiveAll, done, refused]⟩

/-- Raft and the connection let the handler come to its reply. -/
def Acknowledged (ring : ConsistentHash) (stream : Stream) : Prop :=
  stream.recvErr = none ∧ stream.closeErr = none ∧
    (ring.hashRing ≠ [] → ∀ x ∈ stream.records, x.2.committed ≠ none)

/-- Every record was applied without an error and is saved, once and in the order of arrival. -/
def Kept (s s' : GrpcServer) (records : List Record) : Prop :=
  s'.results = s.results ++ records.map (fun _ => .nil) ∧
    s'.fsm.saved = s.fsm.saved ++ records.map Record.stored

/-- The acknowledgement, if there is one, counts the received records and all of them are kept. -/
def Trusted (fl : Floats) (s : GrpcServer) (stream : Stream) : Prop :=
  ∀ reply, (s.sendMetrics fl stream).2 = .ok reply → reply.success = true →
    reply = successReply stream.records.length ∧
      Kept s (s.sendMetrics fl stream).1 (stream.records.map (·.1))

/-- The timestamp survives `float64`, and the storage does not fail on the entry of the record. -/
def Safe (fl : Floats) (x : Record × Circumstances) : Prop :=
  fl.truncate (seconds fl x.1.timestamp) = x.1.timestamp.toInt ∧ saveError x.2 = none

variable {records : List (Record × Circumstances)}

theorem receiveAll_drained (reads : ReadsIntegers fl)
    (committed : s.hashRing.hashRing ≠ [] → ∀ x ∈ records, x.2.committed ≠ none) : ∃ s' batchMap,
      receiveAll fl s ⟨0, []⟩ records = (s', .ok ⟨records.length, batchMap⟩) ∧
        Drained batchMap ∧ if s.hashRing.hashRing = [] then s' = s else Landed fl records s s' := by
  have start : Drained [] := fun _ member => absurd member not_mem_nil
  by_cases empty : s.hashRing.hashRing = []
  · refine ⟨s, [], ?_, start, by rw [if_pos empty]⟩
    rw [receiveAll_unrouted empty, Nat.zero_add]
  · obtain ⟨s', batchMap, done, drained, landed⟩ :=
      receiveAll_landed reads records (h := ⟨0, []⟩) empty start (committed empty)
    refine ⟨s', batchMap, ?_, drained, by rw [if_neg empty]; exact landed⟩
    rw [done, Nat.zero_add]

theorem sendMetrics_acknowledged (reads : ReadsIntegers fl) {stream : Stream}
    (acknowledged : Acknowledged s.hashRing stream) :
    ∃ s', s.sendMetrics fl stream = (s', .ok (successReply stream.records.length)) ∧
      if s.hashRing.hashRing = [] then s' = s else Landed fl stream.records s s' := by
  obtain ⟨ended, closed, committed⟩ := acknowledged
  obtain ⟨s', batchMap, done, drained, effect⟩ := receiveAll_drained reads committed
  refine ⟨s', ?_, effect⟩
  simp only [sendMetrics, done, ended, closed, flush_drained stream.atEnd s' drained]

theorem sendMetrics_failed (reads : ReadsIntegers fl) {stream : Stream}
    (failed : ¬ Acknowledged s.hashRing stream) :
    ∃ s' err, s.sendMetrics fl stream = (s', .error err) := by
  by_cases lost : s.hashRing.hashRing ≠ [] ∧ ∃ x ∈ stream.records, x.2.committed = none
  · obtain ⟨s', err, refused⟩ := receiveAll_refused reads stream.records (h := ⟨0, []⟩) lost.1
      (fun _ member => absurd member not_mem_nil) lost.2
    exact ⟨s', err, by simp only [sendMetrics, refused]⟩
  · have committed : s.hashRing.hashRing ≠ [] → ∀ x ∈ stream.records, x.2.committed ≠ none :=
      fun routed x member none_ => lost ⟨routed, x, member, none_⟩
    obtain ⟨s', batchMap, done, drained, _⟩ := receiveAll_drained reads committed
    cases ended : stream.recvErr with
    | some err => exact ⟨s', err, by simp only [sendMetrics, done, ended]⟩
    | none =>
      cases closed : stream.closeErr with
      | some err =>
        refine ⟨s', err, ?_⟩
        simp only [sendMetrics, done, ended, closed, flush_drained stream.atEnd s' drained]
      | none => exact absurd ⟨ended, closed, committed⟩ failed

theorem responses_nil_iff (records : List (Record × Circumstances)) :
    (records.map fun x => response true x.2) = records.map (fun _ => Response.nil) ↔
      ∀ x ∈ records, saveError x.2 = none := by
  rw [map_inj_left]
  refine forall₂_congr fun x _ => ?_
  rw [response]
  cases saveError x.2 with
  | none | some message => simp

theorem added_stored_iff (fine : ∀ x ∈ records, saveError x.2 = none) :
    (records.flatMap (added fl true) = records.map fun x => x.1.stored) ↔
      ∀ x ∈ records, fl.truncate (seconds fl x.1.timestamp) = x.1.timestamp.toInt := by
  have each : records.flatMap (added fl true) =
      records.map fun x => x.1.storedAt (fl.truncate (seconds fl x.1.timestamp)) := by
    rw [map_eq_flatMap]
    exact flatMap_congr fun x member => if_pos ⟨rfl, fine x member⟩
  rw [each, map_inj_left]
  simp only [Record.stored, Record.storedAt, MetricsData.mk.injEq, true_and, and_true]

theorem Landed.kept_iff {s' : GrpcServer} (landed : Landed fl records s s') :
    Kept s s' (records.map (·.1)) ↔
      records = [] ∨ (s.fsm.storage = true ∧ ∀ x ∈ records, Safe fl x) := by
  simp only [Kept, landed.results, landed.saved, append_cancel_left_eq, map_map, Function.comp_def]
  cases s.fsm.storage with
  | false =>
    have nothing : records.flatMap (added fl false) = [] :=
      flatMap_eq_nil_iff.mpr fun _ _ => if_neg fun h => Bool.false_ne_true h.1
    rw [nothing]
    constructor
    · rintro ⟨_, saved⟩
      exact .inl (map_eq_nil_iff.mp saved.symm)
    · rintro (rfl | ⟨impossible, _⟩)
      · exact ⟨rfl, rfl⟩
      · cases impossible
  | true =>
    rw [responses_nil_iff]
    constructor
    · rintro ⟨fine, saved⟩
      exact .inr ⟨rfl, fun x member => ⟨(added_stored_iff fine).mp saved x member, fine x member⟩⟩
    · rintro (rfl | ⟨_, safe⟩)
      · exact ⟨fun _ member => absurd member not_mem_nil, rfl⟩
      · have fine : ∀ x ∈ records, saveError x.2 = none := fun x member => (safe x member).2
        exact ⟨fine, (added_stored_iff fine).mpr fun x member => (safe x member).1⟩

/-- When an acknowledgement of `SendMetrics` can be trusted: the ring routes, a storage is
    attached, and no record loses its timestamp or its entry. -/
theorem acknowledged_iff (reads : ReadsIntegers fl) (s : GrpcServer) (stream : Stream) :
    Trusted fl s stream ↔
      (Acknowledged s.hashRing stream → stream.records = [] ∨
        (s.hashRing.hashRing ≠ [] ∧ s.fsm.storage = true ∧ ∀ x ∈ stream.records, Safe fl x)) := by
  by_cases acknowledged : Acknowledged s.hashRing stream
  · obtain ⟨s', done, effect⟩ := sendMetrics_acknowledged reads acknowledged
    have trusted : Trusted fl s stream ↔ Kept s s' (stream.records.map (·.1)) := by
      simp only [Trusted, done, Except.ok.injEq]
      exact ⟨fun h => (h _ rfl rfl).2, fun kept reply same _ => ⟨same.symm, kept⟩⟩
    rw [trusted, forall_prop_of_true acknowledged]
    split at effect
    · rename_i empty
      subst effect
      simp only [Kept, self_eq_append_right, map_eq_nil_iff, and_self, empty, ne_eq,
        not_true_eq_false, false_and, or_false]
    · rename_i routed
      rw [effect.kept_iff]
      simp only [ne_eq, routed, not_false_eq_true, true_and]
  · obtain ⟨s', err, failed⟩ := sendMetrics_failed reads acknowledged
    simp only [Trusted, failed, reduceCtorEq, false_implies, implies_true, acknowledged]

theorem integerFloats_reads : ReadsIntegers integerFloats where
  inRange z := by
    have read := parseInt64_itoa (z := z.toInt) z.le_toInt z.toInt_lt
    simp only [integerFloats, read, Option.map_some, Option.isSome_some]
  zero := by decide +kernel

section Sample

/-- A leader that commits its entry, with one answer of the storage. -/
def leading (answer : SaveOutcome) : Circumstances where
  isLeader := true
  leader := ascii "a"
  tries := fun _ => ⟨ascii "a", 1700000000, true, .committed ⟨1, 1, fun _ => answer⟩⟩

def cpuRecord : Record where
  hostId := ⟨ascii "h", by decide⟩
  timestamp := 5
  metrics := [⟨⟨ascii "cpu", by decide⟩, ⟨ascii "1", by decide⟩, ⟨ascii "", by decide⟩⟩]
  tags := []

def oneRecord (answer : SaveOutcome) : Stream where
  records := [(cpuRecord, leading answer)]
  recvErr := none
  atEnd := fun _ => leading answer
  closeErr := none

def oneNode : GrpcServer where
  hashRing := (newConsistentHash 1 fun _ => ⟨7, by decide⟩).add [ascii "a"]
  fsm := newFSM true
  results := []

end Sample

theorem acknowledged_iff_saved : Trusted integerFloats oneNode (oneRecord .ok) ∧
    Acknowledged oneNode.hashRing (oneRecord .ok) := by
  have safe : Safe integerFloats (cpuRecord, leading .ok) := by
    constructor
    · decide +kernel
    · rfl
  refine ⟨(acknowledged_iff integerFloats_reads oneNode (oneRecord .ok)).mpr fun _ =>
    .inr ⟨by decide +kernel, rfl, ?_⟩, rfl, rfl, ?_⟩
  · intro x member
    rw [mem_singleton.mp member]
    exact safe
  · intro _ x member
    rw [mem_singleton.mp member]
    exact Option.some_ne_none _

/-- The storage refuses the record, the state machine returns the error, and the stream is
    acknowledged all the same. -/
theorem failed_save_acknowledged :
    (oneNode.sendMetrics integerFloats (oneRecord (.error (ascii "down")))).2 =
        .ok (successReply 1) ∧
      (oneNode.sendMetrics integerFloats (oneRecord (.error (ascii "down")))).1.results =
        [.error (.storage (ascii "down"))] ∧
      (oneNode.sendMetrics integerFloats (oneRecord (.error (ascii "down")))).1.fsm.saved.length =
        0 ∧
      ¬ Trusted integerFloats oneNode (oneRecord (.error (ascii "down"))) := by
  have reply : (oneNode.sendMetrics integerFloats (oneRecord (.error (ascii "down")))).2 =
      .ok (successReply 1) := by
    decide +kernel
  have results : (oneNode.sendMetrics integerFloats
      (oneRecord (.error (ascii "down")))).1.results = [.error (.storage (ascii "down"))] := by
    decide +kernel
  refine ⟨reply, results, by decide +kernel, ?_⟩
  intro trusted
  have kept := (trusted _ reply rfl).2.1
  rw [results] at kept
  exact absurd kept (by decide)

end Streaming

end Monitor.Service
