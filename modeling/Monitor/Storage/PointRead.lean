import Monitor.Storage.RangeQuery

/-! # Point reads

`SaveMetricsData` sets the fields of the hash of one record and leaves its other fields
alone, so a record is the field-wise merge of the saves since it was last deleted.
`GetMetricsData` reads that hash. The key of a record ends with its timestamp behind the
last colon, whatever the host is called, and the fields of metrics, tags and bookkeeping
start differently.
-/

namespace Monitor.Storage

open GoText Json Redis List Function
open Raft (MetricsData)

namespace RedisStorage

/-- A call that changes the store, at any timestamp. -/
inductive PointOp where
  | save (data : MetricsData) (attempts : Attempts)
  | delete (hostID : GoString) (timestamp : Int) (clientErr : Option GoString)

def pointStep (fl : Floats) (s : RedisStorage) : PointOp → RedisStorage
  | .save data attempts => (s.saveMetricsData fl data attempts).1
  | .delete hostID timestamp clientErr => (s.deleteMetricsData hostID timestamp clientErr).1

def pointRun (fl : Floats) (s : RedisStorage) (ops : List PointOp) : RedisStorage :=
  ops.foldl (pointStep fl) s

/-- What a call saves under a host and a timestamp. -/
def PointOp.saves (hostID : GoString) (timestamp : Int) : PointOp → Option MetricsData
  | .save data attempts =>
    if data.hostID = hostID ∧ data.timestamp = timestamp ∧ attempts.sent then some data else none
  | .delete _ _ _ => none

/-- Whether a call deletes the record of a host and a timestamp. -/
def PointOp.deletes (hostID : GoString) (timestamp : Int) : PointOp → Bool
  | .save _ _ => false
  | .delete hostID' timestamp' clientErr =>
    decide (hostID' = hostID ∧ timestamp' = timestamp ∧ clientErr = none)

/-- The keys of a map are different, and the values of the metrics are what their encodings decode
    to. -/
def PointOp.Proper (fl : Floats) : PointOp → Prop
  | .save data _ =>
    (data.metrics.map (·.1)).Nodup ∧ (data.tags.map (·.1)).Nodup ∧
      ∀ m ∈ data.metrics, (parse (marshal fl m.2)).bind (decode fl) = some m.2
  | .delete _ _ _ => True

/-- The latest save of exactly this host and timestamp, since its last delete, for which `pick`
    gives something gives `v`. -/
def LastMention {β : Type} (ops : List PointOp) (hostID : GoString) (timestamp : Int)
    (pick : MetricsData → Option β) (v : β) : Prop :=
  ∃ earlier op later data, ops = earlier ++ op :: later ∧ op.saves hostID timestamp = some data ∧
    pick data = some v ∧ ∀ other ∈ later, other.deletes hostID timestamp = false ∧
      ∀ data', other.saves hostID timestamp = some data' → pick data' = none

variable {op : PointOp} {data : MetricsData}

section Mentions

variable {β : Type} {hostID : GoString} {timestamp : Int} {pick : MetricsData → Option β}

def mentionStep (hostID : GoString) (timestamp : Int) (pick : MetricsData → Option β)
    (last : Option β) (op : PointOp) : Option β :=
  if op.deletes hostID timestamp then none
  else ((op.saves hostID timestamp).bind pick) <|> last

def lastMention (ops : List PointOp) (hostID : GoString) (timestamp : Int)
    (pick : MetricsData → Option β) : Option β :=
  ops.foldl (mentionStep hostID timestamp pick) none

theorem lastMention_concat (ops : List PointOp) (op : PointOp) :
    lastMention (ops ++ [op]) hostID timestamp pick =
      mentionStep hostID timestamp pick (lastMention ops hostID timestamp pick) op := by
  rw [lastMention, foldl_append]
  rfl

theorem mentionStep_other (noSave : op.saves hostID timestamp = none)
    (noDelete : op.deletes hostID timestamp = false) (last : Option β) :
    mentionStep hostID timestamp pick last op = last := by
  simp only [mentionStep, noDelete, Bool.false_eq_true, if_false, noSave, Option.bind_none]
  rfl

theorem PointOp.deletes_of_saves
    (saved : op.saves hostID timestamp = some data) : op.deletes hostID timestamp = false := by
  cases op with
  | save data attempts => rfl
  | delete hostID' timestamp' clientErr => cases saved

theorem lastMention_eq_some_iff (ops : List PointOp) (v : β) :
    lastMention ops hostID timestamp pick = some v ↔ LastMention ops hostID timestamp pick v := by
  induction ops using reverseRecOn with
  | nil =>
    refine iff_of_false (fun none_ => by cases none_) ?_
    rintro ⟨earlier, op, later, data, shape, _⟩
    simp at shape
  | append_singleton ops op ih =>
    rw [lastMention_concat, mentionStep]
    constructor
    · intro found
      split at found
      · cases found
      · rename_i kept
        rw [Bool.not_eq_true] at kept
        cases here : (op.saves hostID timestamp).bind pick with
        | some w =>
          rw [here] at found
          cases found
          obtain ⟨data, saved, picked⟩ := Option.bind_eq_some_iff.mp here
          exact ⟨ops, op, [], data, rfl, saved, picked, fun _ mem => by cases mem⟩
        | none =>
          rw [here] at found
          obtain ⟨earlier, first, later, data, shape, saved, picked, silent⟩ := ih.mp found
          refine ⟨earlier, first, later ++ [op], data, by simp [shape], saved, picked, ?_⟩
          intro other mem
          rcases mem_append.mp mem with old | new
          · exact silent other old
          · obtain rfl := mem_singleton.mp new
            exact ⟨kept, Option.bind_eq_none_iff.mp here⟩
    · rintro ⟨earlier, first, later, data, shape, saved, picked, silent⟩
      rcases eq_nil_or_concat later with rfl | ⟨later, last, rfl⟩
      · -- the last call is the one that mentions it
        obtain ⟨_, same⟩ := append_inj' shape rfl
        cases same
        simp only [PointOp.deletes_of_saves saved, Bool.false_eq_true, if_false, saved,
          Option.bind_some, picked]
        rfl
      · rw [concat_eq_append, ← cons_append, ← append_assoc] at shape
        obtain ⟨before, same⟩ := append_inj' shape rfl
        cases same
        rw [concat_eq_append] at silent
        obtain ⟨kept, quiet⟩ := silent op (mem_append_right _ mem_cons_self)
        simp only [kept, Bool.false_eq_true, if_false, Option.bind_eq_none_iff.mpr quiet]
        exact ih.mpr ⟨earlier, first, later, data, before, saved, picked,
          fun other mem => silent other (mem_append_left _ mem)⟩

end Mentions

section Fields

variable {fl : Floats} {data : MetricsData}

theorem append_injective (front : GoString) : Function.Injective (front ++ ·) :=
  fun _ _ => append_cancel_left

theorem fieldsOf_names (data : MetricsData) :
    (fieldsOf fl data).map (·.1) = ascii "host_id" :: ascii "timestamp" ::
      ((data.metrics.map (·.1)).map (ascii "metric:" ++ ·) ++
        (data.tags.map (·.1)).map (ascii "tag:" ++ ·)) := by
  simp only [fieldsOf, map_cons, map_append, map_map]
  rfl

theorem fieldsOf_nodup (metrics : (data.metrics.map (·.1)).Nodup)
    (tags : (data.tags.map (·.1)).Nodup) : ((fieldsOf fl data).map (·.1)).Nodup := by
  rw [fieldsOf_names, nodup_cons, nodup_cons]
  refine ⟨?_, ?_, (metrics.map (append_injective _)).append (tags.map (append_injective _)) ?_⟩
  · intro mem
    simp only [mem_cons, mem_append, mem_map] at mem
    rcases mem with same | ⟨_, _, same⟩ | ⟨_, _, same⟩
    · exact absurd same (by decide)
    · cases congrArg head? same
    · cases congrArg head? same
  · intro mem
    simp only [mem_append, mem_map] at mem
    rcases mem with ⟨_, _, same⟩ | ⟨_, _, same⟩
    · cases congrArg head? same
    · cases congrArg (·[1]?) same
  · intro name metric tag
    obtain ⟨_, _, rfl⟩ := mem_map.mp metric
    obtain ⟨_, _, same⟩ := mem_map.mp tag
    cases congrArg head? same

theorem getKey_fieldsOf_host (data : MetricsData) :
    getKey (ascii "host_id") (fieldsOf fl data) = some data.hostID := by
  rw [fieldsOf, getKey_cons, if_pos rfl]

theorem getKey_fieldsOf_metric (data : MetricsData) (name : GoString) :
    getKey (ascii "metric:" ++ name) (fieldsOf fl data) =
      (getKey name data.metrics).map (marshal fl) := by
  have noTag : getKey (ascii "metric:" ++ name)
      (data.tags.map fun t => (ascii "tag:" ++ t.1, t.2)) = none := by
    refine getKey_of_not_mem fun mem => ?_
    simp only [map_map, mem_map] at mem
    obtain ⟨_, _, same⟩ := mem
    cases congrArg head? same
  have notHost : ascii "host_id" ≠ ascii "metric:" ++ name := fun same => by
    cases congrArg head? same
  have notTime : ascii "timestamp" ≠ ascii "metric:" ++ name := fun same => by
    cases congrArg head? same
  rw [fieldsOf, getKey_cons, if_neg notHost, getKey_cons, if_neg notTime, getKey_append, noTag,
    getKey_map (append_injective _)]
  cases getKey name data.metrics with
  | none | some v => rfl

theorem getKey_fieldsOf_tag (data : MetricsData) (name : GoString) :
    getKey (ascii "tag:" ++ name) (fieldsOf fl data) = getKey name data.tags := by
  have noMetric : getKey (ascii "tag:" ++ name)
      (data.metrics.map fun m => (ascii "metric:" ++ m.1, marshal fl m.2)) = none := by
    refine getKey_of_not_mem fun mem => ?_
    simp only [map_map, mem_map] at mem
    obtain ⟨_, _, same⟩ := mem
    cases congrArg head? same
  have notHost : ascii "host_id" ≠ ascii "tag:" ++ name := fun same => by
    cases congrArg head? same
  have notTime : ascii "timestamp" ≠ ascii "tag:" ++ name := fun same => by
    cases congrArg (·[1]?) same
  have tags : getKey (ascii "tag:" ++ name) (data.tags.map fun t => (ascii "tag:" ++ t.1, t.2)) =
      getKey name data.tags :=
    (getKey_map (append_injective _) id name data.tags).trans (congrFun Option.map_id _)
  rw [fieldsOf, getKey_cons, if_neg notHost, getKey_cons, if_neg notTime, getKey_append, noMetric, tags]
  rfl

end Fields

/-- The fields of a record are the last mentions of its host, metrics and tags. -/
structure Merged (fl : Floats) (ops : List PointOp) (hostID : GoString) (timestamp : Int)
    (fields : List (GoString × GoString)) : Prop where
  ordered : KeysOrdered fields
  host : getKey (ascii "host_id") fields =
    lastMention ops hostID timestamp fun data => some data.hostID
  metric : ∀ name, getKey (ascii "metric:" ++ name) fields =
    (lastMention ops hostID timestamp fun data => getKey name data.metrics).map (marshal fl)
  tag : ∀ name, getKey (ascii "tag:" ++ name) fields =
    lastMention ops hostID timestamp fun data => getKey name data.tags
  empty : (lastMention ops hostID timestamp fun data => some data.hostID) = none → fields = []

/-- Under the key of every record there are its fields, none for a record that is not there, and
    under the key of every index there is nothing of another type. -/
structure Stored (fl : Floats) (s : RedisStorage) (ops : List PointOp) : Prop where
  index : ∀ hostID, ∃ members, asSortedSet (s.client (s.keyPrefix ++ indexKey hostID)) = some members
  record : ∀ hostID timestamp, ∃ fields,
    asHash (s.client (s.keyPrefix ++ dataKey hostID timestamp)) = some fields ∧
      Merged fl ops hostID timestamp fields

section Stores

variable {fl : Floats} {s : RedisStorage} {ops : List PointOp} {hostID : GoString}
  {timestamp : Int} {fields : List (GoString × GoString)}

theorem Merged.nil (fl : Floats) (hostID : GoString) (timestamp : Int) :
    Merged fl [] hostID timestamp [] :=
  ⟨.nil, rfl, fun _ => rfl, fun _ => rfl, fun _ => rfl⟩

theorem stored_init (fl : Floats) (keyPrefix : GoString) : Stored fl (init keyPrefix) [] where
  index _ := ⟨[], rfl⟩
  record hostID timestamp := ⟨[], rfl, .nil fl hostID timestamp⟩

theorem Merged.other (merged : Merged fl ops hostID timestamp fields)
    (noSave : op.saves hostID timestamp = none) (noDelete : op.deletes hostID timestamp = false) :
    Merged fl (ops ++ [op]) hostID timestamp fields := by
  refine ⟨merged.ordered, ?_, fun name => ?_, fun name => ?_, ?_⟩
  · rw [lastMention_concat, mentionStep_other noSave noDelete]
    exact merged.host
  · rw [lastMention_concat, mentionStep_other noSave noDelete]
    exact merged.metric name
  · rw [lastMention_concat, mentionStep_other noSave noDelete]
    exact merged.tag name
  · rw [lastMention_concat, mentionStep_other noSave noDelete]
    exact merged.empty

theorem Merged.saved (merged : Merged fl ops hostID timestamp fields) (save : op.saves hostID timestamp = some data)
    (metrics : (data.metrics.map (·.1)).Nodup) (tags : (data.tags.map (·.1)).Nodup) :
    Merged fl (ops ++ [op]) hostID timestamp (setFields (fieldsOf fl data) fields) := by
  have distinct : ((fieldsOf fl data).map (·.1)).Nodup := fieldsOf_nodup metrics tags
  have mention {β : Type} (pick : MetricsData → Option β) :
      lastMention (ops ++ [op]) hostID timestamp pick =
        (pick data <|> lastMention ops hostID timestamp pick) := by
    rw [lastMention_concat, mentionStep, if_neg (by rw [PointOp.deletes_of_saves save]; simp), save]
    rfl
  refine ⟨setFields_ordered merged.ordered _, ?_, fun name => ?_, fun name => ?_, ?_⟩
  · rw [getKey_setFields_or distinct, getKey_fieldsOf_host, mention]
    rfl
  · rw [getKey_setFields_or distinct, getKey_fieldsOf_metric, merged.metric, mention]
    cases getKey name data.metrics with
    | none | some v => rfl
  · rw [getKey_setFields_or distinct, getKey_fieldsOf_tag, merged.tag, mention]
  · intro none_
    rw [mention] at none_
    cases none_

theorem Merged.deleted (delete : op.deletes hostID timestamp = true) :
    Merged fl (ops ++ [op]) hostID timestamp [] := by
  have mention {β : Type} (pick : MetricsData → Option β) :
      lastMention (ops ++ [op]) hostID timestamp pick = none := by
    rw [lastMention_concat, mentionStep, if_pos delete]
  exact ⟨.nil, (mention _).symm, fun _ => by rw [mention]; rfl, fun _ => (mention _).symm,
    fun _ => rfl⟩

theorem Stored.unsent (stored : Stored fl s ops)
    (noSave : ∀ hostID timestamp, op.saves hostID timestamp = none)
    (noDelete : ∀ hostID timestamp, op.deletes hostID timestamp = false) :
    Stored fl s (ops ++ [op]) where
  index := stored.index
  record hostID timestamp := by
    obtain ⟨fields, found, merged⟩ := stored.record hostID timestamp
    exact ⟨fields, found, merged.other (noSave hostID timestamp) (noDelete hostID timestamp)⟩

theorem Stored.write (stored : Stored fl s ops) (hostID : GoString) (timestamp : Int)
    {entry indexed : Option Entry} {members : List (Int × GoString)}
    (others : ∀ hostID' timestamp', ¬ (hostID' = hostID ∧ timestamp' = timestamp) →
      op.saves hostID' timestamp' = none ∧ op.deletes hostID' timestamp' = false)
    (index : asSortedSet indexed = some members) (record : asHash entry = some fields)
    (merged : Merged fl (ops ++ [op]) hostID timestamp fields) : Stored fl ⟨s.keyPrefix,
        update (update s.client (s.keyPrefix ++ dataKey hostID timestamp) entry)
          (s.keyPrefix ++ indexKey hostID) indexed⟩ (ops ++ [op]) where
  index hostID' := by
    by_cases host : hostID' = hostID
    · subst host
      exact ⟨members, by simp only [update_self, index]⟩
    · obtain ⟨members', old⟩ := stored.index hostID'
      refine ⟨members', ?_⟩
      simp only
      rw [update_of_ne fun same => host (indexKey_injective (append_cancel_left same)),
        update_of_ne fun same =>
          dataKey_ne_indexKey hostID hostID' timestamp (append_cancel_left same).symm]
      exact old
  record hostID' timestamp' := by
    simp only [update_dataKey]
    by_cases same : hostID' = hostID ∧ timestamp' = timestamp
    · obtain ⟨rfl, rfl⟩ := same
      exact ⟨fields, by simp only [and_self, if_true, record], merged⟩
    · obtain ⟨old, found, before⟩ := stored.record hostID' timestamp'
      obtain ⟨noSave, noDelete⟩ := others hostID' timestamp' same
      exact ⟨old, by simp only [if_neg same, found], before.other noSave noDelete⟩

theorem Stored.step (stored : Stored fl s ops) (proper : op.Proper fl) :
    Stored fl (s.pointStep fl op) (ops ++ [op]) ∧ (s.pointStep fl op).keyPrefix = s.keyPrefix := by
  cases op with
  | save data attempts =>
    obtain ⟨metrics, tags, _⟩ := proper
    obtain ⟨fields, found, merged⟩ := stored.record data.hostID data.timestamp
    obtain ⟨members, index⟩ := stored.index data.hostID
    simp only [pointStep, saveMetricsData_eq (exec_saveCommands fl found index)]
    by_cases sent : attempts.sent
    · rw [if_pos sent]
      have save : (PointOp.save data attempts).saves data.hostID data.timestamp = some data :=
        if_pos ⟨rfl, rfl, sent⟩
      refine ⟨stored.write data.hostID data.timestamp ?_ rfl rfl (merged.saved save metrics tags), rfl⟩
      intro hostID' timestamp' other
      exact ⟨if_neg fun same => other ⟨same.1.symm, same.2.1.symm⟩, rfl⟩
    · rw [if_neg sent]
      exact ⟨stored.unsent (fun _ _ => if_neg fun same => sent same.2.2) fun _ _ => rfl, rfl⟩
  | delete hostID timestamp clientErr =>
    obtain ⟨members, index⟩ := stored.index hostID
    simp only [pointStep, deleteMetricsData_eq (exec_deleteCommands hostID timestamp index)]
    by_cases sent : clientErr = none
    · rw [if_pos sent]
      have delete : (PointOp.delete hostID timestamp clientErr).deletes hostID timestamp = true :=
        decide_eq_true ⟨rfl, rfl, sent⟩
      refine ⟨stored.write hostID timestamp ?_ (asSortedSet_left _) rfl (.deleted delete), rfl⟩
      intro hostID' timestamp' other
      exact ⟨rfl, decide_eq_false fun same => other ⟨same.1.symm, same.2.1.symm⟩⟩
    · rw [if_neg sent]
      exact ⟨stored.unsent (fun _ _ => rfl) fun _ _ => decide_eq_false fun same => sent same.2.2, rfl⟩

theorem stored_run (fl : Floats) (keyPrefix : GoString) (ops : List PointOp) :
    (∀ op ∈ ops, op.Proper fl) → Stored fl ((init keyPrefix).pointRun fl ops) ops := by
  induction ops using reverseRecOn with
  | nil => exact fun _ => stored_init fl keyPrefix
  | append_singleton ops op ih =>
    intro proper
    rw [pointRun, foldl_append]
    exact ((ih fun other mem => proper other (mem_append_left _ mem)).step
      (proper op (mem_append_right _ mem_cons_self))).1

end Stores

section Reads

variable {fl : Floats}

theorem drop_eq_iff {front field name : GoString} (starts : front.isPrefixOf field = true) :
    field.drop front.length = name ↔ field = front ++ name := by
  obtain ⟨rest, rfl⟩ := List.isPrefixOf_iff_prefix.mp starts
  rw [drop_left, append_cancel_left_eq]

theorem readField_metrics (data : MetricsData) (field : GoString × GoString) (name : GoString) :
    getKey name (readField fl data field).metrics =
      if field.1 = ascii "metric:" ++ name then
        ((parse field.2).bind (decode fl) <|> getKey name data.metrics)
      else getKey name data.metrics := by
  unfold readField
  by_cases metric : (ascii "metric:").isPrefixOf field.1 = true
  · rw [if_pos metric]
    cases (parse field.2).bind (decode fl) with
    | none => simp
    | some value =>
      simp only [getKey_setKey, drop_eq_iff metric]
      split <;> rfl
  · have other : field.1 ≠ ascii "metric:" ++ name := fun same =>
      metric (List.isPrefixOf_iff_prefix.mpr ⟨name, same.symm⟩)
    rw [if_neg metric, if_neg other]
    split <;> rfl

theorem readField_tags (data : MetricsData) (field : GoString × GoString) (name : GoString) :
    getKey name (readField fl data field).tags =
      if field.1 = ascii "tag:" ++ name then some field.2 else getKey name data.tags := by
  unfold readField
  by_cases metric : (ascii "metric:").isPrefixOf field.1 = true
  · have other : field.1 ≠ ascii "tag:" ++ name := by
      obtain ⟨rest, shape⟩ := List.isPrefixOf_iff_prefix.mp metric
      intro same
      rw [← shape] at same
      cases congrArg head? same
    rw [if_pos metric, if_neg other]
    split <;> rfl
  · rw [if_neg metric]
    by_cases tag : (ascii "tag:").isPrefixOf field.1 = true
    · simp only [if_pos tag, getKey_setKey, drop_eq_iff tag]
    · have other : field.1 ≠ ascii "tag:" ++ name := fun same =>
        tag (List.isPrefixOf_iff_prefix.mpr ⟨name, same.symm⟩)
      rw [if_neg tag, if_neg other]

-- Since no name comes twice, a field is read once, and the fields behind it change nothing.
variable {fields : List (GoString × GoString)}

theorem readFields_metrics : KeysOrdered fields →
    ∀ (data : MetricsData) (name : GoString), getKey name (fields.foldl (readField fl) data).metrics =
        (((getKey (ascii "metric:" ++ name) fields).bind fun text => (parse text).bind (decode fl)) <|>
          getKey name data.metrics) := by
  induction fields with
  | nil => exact fun _ _ _ => rfl
  | cons field fields ih =>
    intro ordered data name
    rw [foldl_cons, ih (pairwise_cons.mp ordered).2, readField_metrics, getKey_cons]
    split
    · rename_i same
      rw [← same, ordered.getKey_tail]
      rfl
    · rfl

theorem readFields_tags : KeysOrdered fields →
    ∀ (data : MetricsData) (name : GoString), getKey name (fields.foldl (readField fl) data).tags =
        (getKey (ascii "tag:" ++ name) fields <|> getKey name data.tags) := by
  induction fields with
  | nil => exact fun _ _ _ => rfl
  | cons field fields ih =>
    intro ordered data name
    rw [foldl_cons, ih (pairwise_cons.mp ordered).2, readField_tags, getKey_cons]
    split
    · rename_i same
      rw [← same, ordered.getKey_tail]
      rfl
    · rfl

variable {ops : List PointOp} {timestamp : Int}

theorem LastMention.survives (proper : ∀ op ∈ ops, op.Proper fl)
    {hostID name : GoString} {v : Value}
    (mentioned : LastMention ops hostID timestamp (fun data => getKey name data.metrics) v) :
    (parse (marshal fl v)).bind (decode fl) = some v := by
  obtain ⟨earlier, op, later, data, rfl, saved, picked, _⟩ := mentioned
  cases op with
  | save data' attempts =>
    simp only [PointOp.saves] at saved
    split at saved
    · cases saved
      obtain ⟨_, _, survive⟩ := proper _ (mem_append_right _ mem_cons_self)
      exact survive _ (mem_of_getKey picked)
    · cases saved
  | delete hostID' timestamp' clientErr => cases saved

theorem LastMention.hostID {hostID host : GoString}
    (mentioned : LastMention ops hostID timestamp (fun data => some data.hostID) host) :
    host = hostID := by
  obtain ⟨earlier, op, later, data, _, saved, picked, _⟩ := mentioned
  cases op with
  | save data' attempts =>
    simp only [PointOp.saves] at saved
    split at saved
    · rename_i same
      cases saved
      cases picked
      exact same.1
    · cases saved
  | delete hostID' timestamp' clientErr => cases saved

end Reads

/-- After a sequence of saves and deletes, reading a host and a timestamp gives each metric and each
    tag the value of the last save of exactly this host and timestamp, since its last delete, that
    mentions it, and gives nothing else; without such a save there is no record. -/
theorem getMetricsData_last_mention (fl : Floats) (keyPrefix : GoString) (ops : List PointOp)
    (proper : ∀ op ∈ ops, op.Proper fl) (hostID : GoString) (timestamp : Int) :
    (LastMention ops hostID timestamp (fun data => some data.hostID) hostID →
      ∃ data, ((init keyPrefix).pointRun fl ops).getMetricsData fl hostID timestamp = .ok data ∧
        data.hostID = hostID ∧ data.timestamp = timestamp ∧
        (∀ name v, getKey name data.metrics = some v ↔
          LastMention ops hostID timestamp (fun data => getKey name data.metrics) v) ∧
        (∀ name v, getKey name data.tags = some v ↔
          LastMention ops hostID timestamp (fun data => getKey name data.tags) v)) ∧
      (¬ LastMention ops hostID timestamp (fun data => some data.hostID) hostID →
        ((init keyPrefix).pointRun fl ops).getMetricsData fl hostID timestamp =
          .error (ascii "metrics data not found")) := by
  have stored := stored_run fl keyPrefix ops proper
  generalize (init keyPrefix).pointRun fl ops = s at stored
  obtain ⟨fields, found, merged⟩ := stored.record hostID timestamp
  have read : hgetall s.client (s.formatKey (dataKey hostID timestamp)) = .ok fields := by
    rw [hgetall, formatKey, found]
  constructor
  · intro live
    have host := merged.host
    rw [(lastMention_eq_some_iff ops hostID).mpr live] at host
    have some_ : fields.isEmpty = false := by
      cases fields with
      | nil => cases host
      | cons field fields => rfl
    obtain ⟨sameHost, sameTime⟩ := readFields_identity fl fields ⟨hostID, timestamp, [], []⟩
    refine ⟨_, ?_, sameHost, sameTime, fun name v => ?_, fun name v => ?_⟩
    · rw [getMetricsData, read]
      simp only [some_, host, Bool.false_eq_true, if_false, Option.getD_some]
    · rw [readFields_metrics merged.ordered, merged.metric, ← lastMention_eq_some_iff]
      cases last : lastMention ops hostID timestamp fun data => getKey name data.metrics with
      | none => simp [getKey]
      | some w =>
        have survives := LastMention.survives proper ((lastMention_eq_some_iff ops w).mp last)
        rw [Option.map_some, Option.bind_some, survives]
        rfl
    · rw [readFields_tags merged.ordered, merged.tag, ← lastMention_eq_some_iff]
      cases lastMention ops hostID timestamp fun data => getKey name data.tags with
      | none => simp [getKey]
      | some w => rfl
  · intro gone
    have none_ : (lastMention ops hostID timestamp fun data => some data.hostID) = none := by
      cases last : lastMention ops hostID timestamp fun data => some data.hostID with
      | none => rfl
      | some host =>
        have mentioned := (lastMention_eq_some_iff ops host).mp last
        rw [mentioned.hostID] at mentioned
        exact absurd mentioned gone
    rw [getMetricsData, read, merged.empty none_]
    rfl

/-- Two saves of one record of a host with a port, a save of a host whose name goes on like the first
    key, and a delete of another timestamp. -/
def portSaves : List PointOp :=
  [.save ⟨portHost, 5, [(ascii "cpu", .bool true)], [(ascii "env", ascii "a")]⟩ ⟨none, none⟩,
    .save ⟨portHost, 5, [(ascii "mem", .string (ascii "low"))], [(ascii "env", ascii "b")]⟩ ⟨none, none⟩,
    .save ⟨ascii "10.0.0.1", 9100, [(ascii "cpu", .bool false)], []⟩ ⟨none, none⟩,
    .delete portHost 6 none]

theorem portSaves_proper : ∀ op ∈ portSaves, op.Proper noFloats := by
  intro op mem
  simp only [portSaves, mem_cons, not_mem_nil, or_false] at mem
  rcases mem with rfl | rfl | rfl | rfl
  iterate 3
    · refine ⟨by decide, by decide, fun m lt => ?_⟩
      rw [mem_singleton.mp lt]
      rfl
  · trivial

theorem getMetricsData_last_mention_port :
    ∃ data, ((init (ascii "monitor:")).pointRun noFloats portSaves).getMetricsData noFloats
        portHost 5 = .ok data ∧
      getKey (ascii "cpu") data.metrics = some (.bool true) ∧
      getKey (ascii "env") data.tags = some (ascii "b") := by
  have live : LastMention portSaves portHost 5 (fun data => some data.hostID) portHost :=
    (lastMention_eq_some_iff portSaves portHost).mp (by decide +kernel)
  obtain ⟨data, found, _, _, metrics, tags⟩ :=
    (getMetricsData_last_mention noFloats (ascii "monitor:") portSaves portSaves_proper portHost 5).1
      live
  refine ⟨data, found, (metrics _ _).mpr ((lastMention_eq_some_iff portSaves _).mp ?_),
    (tags _ _).mpr ((lastMention_eq_some_iff portSaves _).mp ?_)⟩
  · rfl
  · rfl

end RedisStorage

end Monitor.Storage
