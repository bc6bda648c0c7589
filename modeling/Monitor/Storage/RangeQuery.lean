import Monitor.Storage.RedisStorage

/-! # Range queries over the index

The abstract content of the store is the set of live timestamps of each host. Keys of
different records and indexes never meet, so the store represents that content after
every sequence of calls. A range query splits the members of the index at colons,
which finds the timestamp exactly when the host has no colon.
-/

namespace Monitor.Storage

open GoText Json Redis List Function
open Raft (MetricsData)

/-- The live timestamps of each host. -/
abbrev Live := GoString → Finset Int

namespace RedisStorage

/-- Whether one of the attempts of a save reaches the server. -/
def Attempts.sent (attempts : Attempts) : Prop :=
  match attempts.first with
  | none => True
  | some err => ascii "tx closed" <:+: err ∧ attempts.second = none

instance (attempts : Attempts) : Decidable attempts.sent := by
  unfold Attempts.sent
  split <;> infer_instance

def liveStep (live : Live) : Op → Live
  | .save data _ attempts =>
    if attempts.sent then
      update live data.hostID (insert data.timestamp (live data.hostID))
    else
      live
  | .delete hostID timestamp clientErr =>
    if clientErr = none then
      update live hostID ((live hostID).erase timestamp)
    else
      live

def live (ops : List Op) : Live := ops.foldl liveStep fun _ => ∅

section Keys

theorem splitOn_colon (front back : GoString) :
    (front ++ 58 :: back).splitOn 58 = front.splitOn 58 ++ back.splitOn 58 :=
  splitOnP_append_cons front back rfl

theorem splitOn_dataKey (hostID : GoString) (timestamp : Int) : (dataKey hostID timestamp).splitOn 58 =
      ascii "metrics" :: (hostID.splitOn 58 ++ [itoa timestamp]) := by
  have shape : dataKey hostID timestamp =
      ascii "metrics" ++ 58 :: (hostID ++ 58 :: itoa timestamp) := by
    simp only [dataKey, append_assoc]
    rfl
  rw [shape, splitOn_colon, splitOn_colon, splitOn_eq_singleton (colon_not_mem_itoa timestamp)]
  rfl

theorem dataKey_injective {hostID hostID' : GoString} {timestamp timestamp' : Int}
    (same : dataKey hostID timestamp = dataKey hostID' timestamp') :
    hostID = hostID' ∧ timestamp = timestamp' := by
  simp only [dataKey, append_assoc, append_cancel_left_eq] at same
  exact append_colon_itoa_inj same

theorem indexKey_injective {hostID hostID' : GoString} (same : indexKey hostID = indexKey hostID') :
    hostID = hostID' :=
  append_cancel_left same

theorem dataKey_ne_indexKey (hostID hostID' : GoString) (timestamp : Int) :
    dataKey hostID timestamp ≠ indexKey hostID' := by
  intro same
  have first := congrArg head? same
  cases first

end Keys

def indexEntry (hostID : GoString) (timestamp : Int) : Int × GoString :=
  (timestamp, dataKey hostID timestamp)

/-- The server holds the live timestamps: a hash for each record and a sorted set for each host,
    under the keys with prefix `p`. -/
structure Represents (p : GoString) (db : Store) (live : Live) : Prop where
  exact_ : ∀ hostID, ∀ timestamp ∈ live hostID, Exact timestamp
  index : ∀ hostID, asSortedSet (db (p ++ indexKey hostID)) =
    some (((live hostID).sort (· ≤ ·)).map (indexEntry hostID))
  kept : ∀ hostID, ∀ timestamp ∈ live hostID, ∃ fields,
    db (p ++ dataKey hostID timestamp) = some (.hash fields) ∧
      getKey (ascii "host_id") fields = some hostID
  absent : ∀ hostID timestamp, timestamp ∉ live hostID → db (p ++ dataKey hostID timestamp) = none

theorem empty_represents (p : GoString) : Represents p (fun _ => none) fun _ => ∅ where
  exact_ _ _ mem := absurd mem (Finset.notMem_empty _)
  index _ := by
    rw [Finset.sort_empty]
    rfl
  kept _ _ mem := absurd mem (Finset.notMem_empty _)
  absent _ _ _ := rfl

theorem update_dataKey (p : GoString) (db : Store) (hostID : GoString) (timestamp : Int)
    (entry indexed : Option Entry) (hostID' : GoString) (t : Int) :
    update (update db (p ++ dataKey hostID timestamp) entry)
        (p ++ indexKey hostID) indexed (p ++ dataKey hostID' t) =
      if hostID' = hostID ∧ t = timestamp then entry else db (p ++ dataKey hostID' t) := by
  rw [update_of_ne fun same =>
    dataKey_ne_indexKey hostID' hostID t (append_cancel_left same)]
  split
  · rename_i same
    rw [same.1, same.2, update_self]
  · rename_i other
    rw [update_of_ne fun same => other (dataKey_injective (append_cancel_left same))]

variable {timestamps : Finset Int}

theorem mem_update_live {live : Live} (hostID : GoString) {timestamp : Int}
    (others : ∀ t ≠ timestamp, t ∈ timestamps ↔ t ∈ live hostID) (hostID' : GoString) (t : Int) :
    t ∈ update live hostID timestamps hostID' ↔
      if hostID' = hostID ∧ t = timestamp then timestamp ∈ timestamps else t ∈ live hostID' := by
  by_cases host : hostID' = hostID
  · subst host
    rw [update_self]
    by_cases same : t = timestamp
    · simp only [same, and_self, if_true]
    · simp only [same, and_false, if_false, others t same]
  · simp only [update_of_ne host, host, false_and, if_false]

theorem Represents.write {p : GoString} {db : Store} {live : Live} (rep : Represents p db live)
    (hostID : GoString) (timestamp : Int) {entry indexed : Option Entry}
    (others : ∀ t ≠ timestamp, t ∈ timestamps ↔ t ∈ live hostID)
    (saved : timestamp ∈ timestamps → Exact timestamp ∧ ∃ fields, entry = some (.hash fields) ∧
      getKey (ascii "host_id") fields = some hostID)
    (deleted : timestamp ∉ timestamps → entry = none)
    (index : asSortedSet indexed = some ((timestamps.sort (· ≤ ·)).map (indexEntry hostID))) :
    Represents p (update (update db (p ++ dataKey hostID timestamp) entry)
        (p ++ indexKey hostID) indexed) (update live hostID timestamps) := by
  have record := update_dataKey p db hostID timestamp entry indexed
  have mem := mem_update_live hostID others
  constructor
  · intro hostID' t live'
    rw [mem] at live'
    split at live'
    · rename_i same
      exact same.2 ▸ (saved live').1
    · exact rep.exact_ hostID' t live'
  · intro hostID'
    by_cases host : hostID' = hostID
    · subst host
      rw [update_self, update_self, index]
    · rw [update_of_ne fun same => host (indexKey_injective (append_cancel_left same)),
        update_of_ne fun same =>
          dataKey_ne_indexKey hostID hostID' timestamp (append_cancel_left same).symm,
        update_of_ne host, rep.index]
  · intro hostID' t live'
    rw [mem] at live'
    rw [record]
    split at live'
    · rename_i same
      rw [if_pos same, same.1]
      exact (saved live').2
    · rename_i other
      rw [if_neg other]
      exact rep.kept hostID' t live'
  · intro hostID' t gone
    rw [mem] at gone
    rw [record]
    split at gone
    · rename_i same
      rw [if_pos same, deleted gone]
    · rename_i other
      rw [if_neg other, rep.absent hostID' t gone]

variable {hostID : GoString}

section Index

theorem sort_increasing (timestamps : Finset Int) (hostID : GoString) :
    Increasing ((timestamps.sort (· ≤ ·)).map (indexEntry hostID)) := by
  rw [Increasing, pairwise_map]
  exact (Finset.sortedLT_sort timestamps).pairwise

theorem mem_index {e : Int × GoString} :
    e ∈ (timestamps.sort (· ≤ ·)).map (indexEntry hostID) ↔
      ∃ t ∈ timestamps, indexEntry hostID t = e := by
  simp only [mem_map, Finset.mem_sort]

theorem filter_index (timestamps : Finset Int) (hostID : GoString) (timestamp : Int) :
    ((timestamps.sort (· ≤ ·)).map (indexEntry hostID)).filter (·.2 ≠ dataKey hostID timestamp) =
      ((timestamps.erase timestamp).sort (· ≤ ·)).map (indexEntry hostID) := by
  refine Increasing.ext ((sort_increasing _ _).filter _) (sort_increasing _ _) fun e => ?_
  simp only [mem_filter, mem_index, Finset.mem_erase, decide_eq_true_eq]
  constructor
  · rintro ⟨⟨t, mem, rfl⟩, other⟩
    exact ⟨t, ⟨fun same => other (by rw [same]; rfl), mem⟩, rfl⟩
  · rintro ⟨t, ⟨other, mem⟩, rfl⟩
    exact ⟨⟨t, mem, rfl⟩, fun same => other (dataKey_injective same).2⟩

theorem putMember_index (timestamps : Finset Int) (hostID : GoString) (timestamp : Int) :
    putMember timestamp (dataKey hostID timestamp) ((timestamps.sort (· ≤ ·)).map (indexEntry hostID)) =
      ((insert timestamp timestamps).sort (· ≤ ·)).map (indexEntry hostID) := by
  rw [putMember, filter_index]
  refine Increasing.ext ((sort_increasing _ _).insertMember ?_) (sort_increasing _ _) fun e => ?_
  · intro e mem
    obtain ⟨t, remaining, rfl⟩ := mem_index.mp mem
    exact Finset.ne_of_mem_erase remaining
  · rw [mem_insertMember, mem_index, mem_index]
    constructor
    · rintro (rfl | ⟨t, mem, rfl⟩)
      · exact ⟨timestamp, Finset.mem_insert_self _ _, rfl⟩
      · exact ⟨t, Finset.mem_insert_of_mem (Finset.mem_of_mem_erase mem), rfl⟩
    · rintro ⟨t, mem, rfl⟩
      by_cases same : t = timestamp
      · exact .inl (by rw [same]; rfl)
      · exact .inr ⟨t, Finset.mem_erase.mpr ⟨same, Finset.mem_of_mem_insert_of_ne mem same⟩, rfl⟩

end Index

section Steps

variable {fl : Floats} {s : RedisStorage} {live : Live}

theorem fieldsOf_hostID (data : MetricsData) (fields : List (GoString × GoString)) :
    getKey (ascii "host_id") (setFields (fieldsOf fl data) fields) = some data.hostID := by
  have others : ascii "host_id" ∉ ((ascii "timestamp", itoa data.timestamp) ::
      (data.metrics.map (fun m => (ascii "metric:" ++ m.1, marshal fl m.2)) ++
        data.tags.map fun t => (ascii "tag:" ++ t.1, t.2))).map (·.1) := by
    intro mem
    simp only [map_cons, map_append, map_map, mem_cons, mem_append, mem_map, comp] at mem
    rcases mem with same | ⟨_, _, same⟩ | ⟨_, _, same⟩
    · exact absurd same (by decide)
    · cases congrArg head? same
    · cases congrArg head? same
  rw [fieldsOf, setFields, foldl_cons, ← setFields, getKey_setFields others, getKey_setKey, if_pos rfl]

variable {db : Store} {data : MetricsData}

theorem Represents.asHash {p : GoString} (rep : Represents p db live)
    (hostID : GoString) (timestamp : Int) :
    ∃ fields, asHash (db (p ++ dataKey hostID timestamp)) = some fields := by
  by_cases mem : timestamp ∈ live hostID
  · obtain ⟨fields, found, _⟩ := rep.kept hostID timestamp mem
    exact ⟨fields, by rw [found, Redis.asHash]⟩
  · exact ⟨[], by rw [rep.absent hostID timestamp mem, Redis.asHash]⟩

theorem update_indexKey (s : RedisStorage) (hostID : GoString) (timestamp : Int)
    (entry : Option Entry) (hostID' : GoString) :
    update s.client (s.formatKey (dataKey hostID timestamp)) entry
        (s.formatKey (indexKey hostID')) = s.client (s.formatKey (indexKey hostID')) :=
  update_of_ne (fun same =>
    dataKey_ne_indexKey _ _ _ (append_cancel_left same).symm) _ _

variable {members : List (Int × GoString)}

theorem exec_saveCommands (fl : Floats) {fields : List (GoString × GoString)}
    (record : Redis.asHash (s.client (s.keyPrefix ++ dataKey data.hostID data.timestamp)) = some fields)
    (index : asSortedSet (s.client (s.keyPrefix ++ indexKey data.hostID)) = some members) :
    exec (s.saveCommands fl data) s.client = (update
        (update s.client (s.keyPrefix ++ dataKey data.hostID data.timestamp)
          (some (.hash (setFields (fieldsOf fl data) fields)))) (s.keyPrefix ++ indexKey data.hostID)
        (some (.sortedSet (putMember (double data.timestamp) (dataKey data.hostID data.timestamp)
          members))), none) := by
  have hashed : exec ((fieldsOf fl data).map fun field =>
      .hset (s.formatKey (dataKey data.hostID data.timestamp)) field.1 field.2) s.client =
        (update s.client (s.formatKey (dataKey data.hostID data.timestamp))
          (some (.hash (setFields (fieldsOf fl data) fields))), none) :=
    exec_hset (fieldsOf fl data).tail (ascii "host_id", data.hostID) record
  have kept : asSortedSet (update s.client (s.formatKey (dataKey data.hostID data.timestamp))
      (some (.hash (setFields (fieldsOf fl data) fields))) (s.formatKey (indexKey data.hostID))) =
        some members := by
    rw [update_indexKey]
    exact index
  rw [saveCommands, exec_append, hashed]
  simp only [exec, Command.run, kept]
  rfl

theorem exec_deleteCommands (hostID : GoString) (timestamp : Int)
    (index : asSortedSet (s.client (s.keyPrefix ++ indexKey hostID)) = some members) :
    exec [.del (s.formatKey (dataKey hostID timestamp)),
        .zrem (s.formatKey (indexKey hostID)) (dataKey hostID timestamp)] s.client =
      (update (update s.client (s.keyPrefix ++ dataKey hostID timestamp) none)
        (s.keyPrefix ++ indexKey hostID)
        (if (members.filter (·.2 ≠ dataKey hostID timestamp)).isEmpty then none
          else some (.sortedSet (members.filter (·.2 ≠ dataKey hostID timestamp)))), none) := by
  have kept : asSortedSet (update s.client (s.formatKey (dataKey hostID timestamp)) none
      (s.formatKey (indexKey hostID))) = some members := by
    rw [update_indexKey]
    exact index
  simp only [exec, Command.run, kept]
  rfl

theorem saveMetricsData_eq
    (written : exec (s.saveCommands fl data) s.client = (db, none)) (attempts : Attempts) :
    (s.saveMetricsData fl data attempts).1 = if attempts.sent then { s with client := db } else s := by
  obtain ⟨first, second⟩ := attempts
  simp only [saveMetricsData, Attempts.sent]
  cases first with
  | none =>
    simp only [pipeExec, written]
    exact (if_pos trivial).symm
  | some err =>
    simp only [pipeExec]
    by_cases closed : ascii "tx closed" <:+: err
    · cases second with
      | none => simp only [closed, if_true, true_and, written]
      | some message => simp only [closed, if_true, true_and, reduceCtorEq, if_false]
    · simp only [closed, if_false, false_and]

theorem deleteMetricsData_eq {timestamp : Int}
    (written : exec [.del (s.formatKey (dataKey hostID timestamp)),
      .zrem (s.formatKey (indexKey hostID)) (dataKey hostID timestamp)] s.client = (db, none))
    (clientErr : Option GoString) : (s.deleteMetricsData hostID timestamp clientErr).1 =
      if clientErr = none then { s with client := db } else s := by
  simp only [deleteMetricsData]
  cases clientErr with
  | none => simp only [pipeExec, written, if_true]
  | some message => rfl

theorem saveCommands_represents (fl : Floats) (rep : Represents s.keyPrefix s.client live)
    (exact_ : Exact data.timestamp) : ∃ db, exec (s.saveCommands fl data) s.client = (db, none) ∧
      Represents s.keyPrefix db
        (update live data.hostID (insert data.timestamp (live data.hostID))) := by
  obtain ⟨fields, found⟩ := rep.asHash data.hostID data.timestamp
  refine ⟨_, exec_saveCommands fl found (rep.index data.hostID),
    rep.write data.hostID data.timestamp ?_ ?_ ?_ ?_⟩
  · intro t other
    rw [Finset.mem_insert, or_iff_right other]
  · exact fun _ => ⟨exact_, _, rfl, fieldsOf_hostID data fields⟩
  · exact fun gone => absurd (Finset.mem_insert_self _ _) gone
  · rw [double_of_exact exact_, putMember_index, asSortedSet]

theorem deleteCommands_represents (rep : Represents s.keyPrefix s.client live)
    (hostID : GoString) (timestamp : Int) : ∃ db, exec [.del (s.formatKey (dataKey hostID timestamp)),
        .zrem (s.formatKey (indexKey hostID)) (dataKey hostID timestamp)] s.client = (db, none) ∧
      Represents s.keyPrefix db (update live hostID ((live hostID).erase timestamp)) := by
  refine ⟨_, exec_deleteCommands hostID timestamp (rep.index hostID),
    rep.write hostID timestamp ?_ ?_ (fun _ => rfl) ?_⟩
  · intro t other
    rw [Finset.mem_erase, and_iff_right other]
  · exact fun live' => absurd live' (Finset.notMem_erase _ _)
  · rw [asSortedSet_left, filter_index]

theorem step_represents (fl : Floats) (rep : Represents s.keyPrefix s.client live) (op : Op) :
    (s.step fl op).1.keyPrefix = s.keyPrefix ∧
      Represents s.keyPrefix (s.step fl op).1.client (liveStep live op) := by
  cases op with
  | save data exact_ attempts =>
    obtain ⟨db, written, after⟩ := saveCommands_represents fl rep exact_
    simp only [step, saveMetricsData_eq written, liveStep]
    split
    · exact ⟨rfl, after⟩
    · exact ⟨rfl, rep⟩
  | delete hostID timestamp clientErr =>
    obtain ⟨db, written, after⟩ := deleteCommands_represents rep hostID timestamp
    simp only [step, deleteMetricsData_eq written, liveStep]
    split
    · exact ⟨rfl, after⟩
    · exact ⟨rfl, rep⟩

theorem run_represents_live (fl : Floats) : ∀ (ops : List Op) {s : RedisStorage} {live : Live},
    Represents s.keyPrefix s.client live →
      Represents (s.run fl ops).keyPrefix (s.run fl ops).client (ops.foldl liveStep live) := by
  intro ops
  induction ops with
  | nil => exact fun rep => rep
  | cons op ops ih =>
    intro s live rep
    obtain ⟨same, after⟩ := step_represents fl rep op
    exact ih (same ▸ after)

end Steps

section Reading

variable (fl : Floats) {s : RedisStorage} {live : Live} (fields : List (GoString × GoString))

theorem readFields_identity : ∀ data : MetricsData,
    (fields.foldl (readField fl) data).hostID = data.hostID ∧
      (fields.foldl (readField fl) data).timestamp = data.timestamp := by
  induction fields with
  | nil => exact fun _ => ⟨rfl, rfl⟩
  | cons field fields ih =>
    intro data
    rw [foldl_cons, (ih _).1, (ih _).2, readField]
    split
    · split <;> exact ⟨rfl, rfl⟩
    · split <;> exact ⟨rfl, rfl⟩

variable {data : MetricsData} {timestamp : Int}

theorem readField_ordered (ordered : KeysOrdered data.metrics)
    (field : GoString × GoString) : KeysOrdered (readField fl data field).metrics := by
  unfold readField
  split
  · split
    · exact ordered.setKey _ _
    · exact ordered
  · split
    · exact ordered
    · exact ordered

theorem readFields_ordered
    (ordered : KeysOrdered data.metrics) : KeysOrdered (fields.foldl (readField fl) data).metrics := by
  induction fields generalizing data with
  | nil => exact ordered
  | cons field fields ih => exact ih (readField_ordered fl ordered field)

theorem getMetricsData_ordered
    (read : s.getMetricsData fl hostID timestamp = .ok data) : KeysOrdered data.metrics := by
  unfold getMetricsData at read
  split at read
  · cases read
  · split at read
    · cases read
    · cases read
      exact readFields_ordered fl _ List.Pairwise.nil

theorem readMember_ordered {hostID key : GoString}
    (read : s.readMember fl hostID key = some data) : KeysOrdered data.metrics := by
  unfold readMember at read
  split at read
  · split at read
    · rename_i timestamp _
      cases found : s.getMetricsData fl hostID timestamp with
      | error err => simp [found, Except.toOption] at read
      | ok data' =>
        simp only [found, Except.toOption, Option.some.injEq] at read
        subst read
        exact getMetricsData_ordered fl found
    · cases read
  · cases read

theorem getMetricsDataRange_ordered {first last : Int}
    {records : List MetricsData} (read : s.getMetricsDataRange fl hostID first last = .ok records) :
    ∀ data ∈ records, KeysOrdered data.metrics := by
  unfold getMetricsDataRange at read
  split at read
  · cases read
  · cases read
    intro data mem
    obtain ⟨key, _, found⟩ := mem_filterMap.mp mem
    exact readMember_ordered fl found

theorem getMetricsData_live (rep : Represents s.keyPrefix s.client live)
    (mem : timestamp ∈ live hostID) : ∃ data, s.getMetricsData fl hostID timestamp = .ok data ∧
      (data.hostID, data.timestamp) = (hostID, timestamp) := by
  obtain ⟨fields, found, host⟩ := rep.kept hostID timestamp mem
  have some_ : fields.isEmpty = false := by
    cases fields with
    | nil => cases host
    | cons field fields => rfl
  obtain ⟨sameHost, sameTime⟩ := readFields_identity fl fields ⟨hostID, timestamp, [], []⟩
  refine ⟨_, ?_, Prod.ext sameHost sameTime⟩
  rw [getMetricsData, hgetall, formatKey, found, asHash]
  simp only [some_, host, Bool.false_eq_true, if_false, Option.getD_some]

theorem getMetricsData_absent (rep : Represents s.keyPrefix s.client live) (gone : timestamp ∉ live hostID) :
    s.getMetricsData fl hostID timestamp = .error (ascii "metrics data not found") := by
  rw [getMetricsData, hgetall, formatKey, rep.absent hostID timestamp gone, asHash]
  rfl

/-- What a range query takes for the timestamp of every record of a host with a colon: the number
    that stands between its first and its second colon. -/
def misread (hostID : GoString) : Option Int := ((hostID.splitOn 58)[1]?).bind parseInt64

theorem readMember_plain (rep : Represents s.keyPrefix s.client live)
    (plain : 58 ∉ hostID) (mem : timestamp ∈ live hostID) :
    s.readMember fl hostID (dataKey hostID timestamp) =
      (s.getMetricsData fl hostID timestamp).toOption := by
  obtain ⟨low, high⟩ := rep.exact_ hostID timestamp mem
  have part : ((dataKey hostID timestamp).splitOn 58)[2]? = some (itoa timestamp) := by
    rw [splitOn_dataKey, splitOn_eq_singleton plain]
    rfl
  simp only [readMember, part, parseInt64_itoa (z := timestamp) (by omega) (by omega)]

theorem readMember_colon (colon : 58 ∈ hostID) (timestamp : Int) :
    s.readMember fl hostID (dataKey hostID timestamp) =
      (misread hostID).bind fun t => (s.getMetricsData fl hostID t).toOption := by
  obtain ⟨first, rest, rfl⟩ := append_of_mem colon
  have two : 1 < ((first ++ 58 :: rest).splitOn 58).length := by
    have := length_pos_of_ne_nil (splitOnP_ne_nil (· == 58) first)
    have := length_pos_of_ne_nil (splitOnP_ne_nil (· == 58) rest)
    rw [splitOn_colon, length_append, splitOn, splitOn]
    omega
  have part : ((dataKey (first ++ 58 :: rest) timestamp).splitOn 58)[2]? =
      ((first ++ 58 :: rest).splitOn 58)[1]? := by
    rw [splitOn_dataKey, getElem?_cons_succ, getElem?_append_left two]
  rw [readMember, part, misread]
  cases ((first ++ 58 :: rest).splitOn 58)[1]? with
  | none => rfl
  | some text =>
    simp only [Option.bind_some]
    cases parseInt64 text with
    | none | some t => rfl

/-- The live timestamps of a host in a range, in ascending order. -/
def inRange (live : Live) (hostID : GoString) (first last : Int) : List Int :=
  ((live hostID).filter fun t => first ≤ t ∧ t ≤ last).sort (· ≤ ·)

theorem mem_inRange {first last t : Int} :
    t ∈ inRange live hostID first last ↔ t ∈ live hostID ∧ first ≤ t ∧ t ≤ last := by
  rw [inRange, Finset.mem_sort, Finset.mem_filter]

theorem filter_sort (timestamps : Finset Int) (P : Int → Prop) [DecidablePred P] :
    (timestamps.sort (· ≤ ·)).filter (fun t => P t) = (timestamps.filter P).sort (· ≤ ·) := by
  refine ((Finset.sortedLT_sort timestamps).pairwise.filter _).eq_of_mem_iff
    (Finset.sortedLT_sort _).pairwise fun t => ?_
  rw [mem_filter, Finset.mem_sort, Finset.mem_sort, Finset.mem_filter, decide_eq_true_eq]

theorem getMetricsDataRange_eq (rep : Represents s.keyPrefix s.client live)
    (hostID : GoString) (first last : Int) : s.getMetricsDataRange fl hostID first last =
      .ok ((inRange live hostID first last).filterMap fun t =>
        s.readMember fl hostID (dataKey hostID t)) := by
  have keys : zrangeByScore s.client (s.formatKey (indexKey hostID)) first last =
      .ok ((inRange live hostID first last).map (dataKey hostID)) := by
    rw [zrangeByScore, formatKey, rep.index]
    simp only [filter_map, map_map]
    rw [inRange, ← filter_sort]
    congr 2
    refine filter_congr fun t mem => ?_
    have exact_ := rep.exact_ hostID t ((Finset.mem_sort _).mp mem)
    simp only [comp, indexEntry, double_le_iff first exact_, le_double_iff last exact_]
  rw [getMetricsDataRange, keys]
  simp only [filterMap_map]
  rfl

/-- The query answers with one record for each of the timestamps, in their order. -/
def Answers (s : RedisStorage) (hostID : GoString) (first last : Int) (timestamps : List Int) :
    Prop :=
  ∃ result, s.getMetricsDataRange fl hostID first last = .ok result ∧
    result.map (fun data => (data.hostID, data.timestamp)) = timestamps.map fun t => (hostID, t)

theorem answers_plain (rep : Represents s.keyPrefix s.client live)
    (plain : 58 ∉ hostID) (first last : Int) :
    Answers fl s hostID first last (inRange live hostID first last) := by
  refine ⟨_, getMetricsDataRange_eq fl rep hostID first last, ?_⟩
  rw [map_filterMap, ← filterMap_eq_map]
  refine filterMap_congr fun t mem => ?_
  have live' := (mem_inRange.mp mem).1
  obtain ⟨data, found, identity⟩ := getMetricsData_live fl rep live'
  rw [readMember_plain fl rep plain live', found]
  exact congrArg some identity

theorem all_equal_iff {timestamps : List Int} (distinct : timestamps.Nodup) (taken : Int) :
    (∀ t ∈ timestamps, taken = t) ↔ timestamps = [] ∨ ∃ t, timestamps = [t] ∧ taken = t := by
  constructor
  · intro same
    cases timestamps with
    | nil => exact .inl rfl
    | cons t rest =>
      cases rest with
      | nil => exact .inr ⟨t, rfl, same t mem_cons_self⟩
      | cons next rest =>
        have first := same t mem_cons_self
        have second := same next (mem_cons_of_mem _ mem_cons_self)
        obtain rfl : t = next := first.symm.trans second
        exact absurd mem_cons_self (nodup_cons.mp distinct).1
  · rintro (rfl | ⟨t, rfl, rfl⟩) t' mem
    · cases mem
    · exact (mem_singleton.mp mem).symm

theorem answers_colon_iff (rep : Represents s.keyPrefix s.client live)
    (colon : 58 ∈ hostID) (first last : Int) :
    Answers fl s hostID first last (inRange live hostID first last) ↔
      inRange live hostID first last = [] ∨
        ∃ t, inRange live hostID first last = [t] ∧ misread hostID = some t := by
  have range := getMetricsDataRange_eq fl rep hostID first last
  have distinct : (inRange live hostID first last).Nodup := Finset.sort_nodup _ _
  have lt (t : Int) (mem : t ∈ inRange live hostID first last) : t ∈ live hostID :=
    (mem_inRange.mp mem).1
  simp only [readMember_colon fl colon] at range
  simp only [Answers, range, Except.ok.injEq, exists_eq_left', map_filterMap]
  cases misread hostID with
  | none =>
    simp only [Option.bind_none, Option.map_none, filterMap_none, reduceCtorEq, and_false,
      exists_false, or_false, eq_comm (a := ([] : List (GoString × Int))), map_eq_nil_iff]
  | some taken =>
    by_cases found : taken ∈ live hostID
    · obtain ⟨data, read, identity⟩ := getMetricsData_live fl rep found
      simp only [Option.bind_some, read, Except.toOption, Option.map_some, identity]
      rw [filterMap_eq_map', map_inj_left]
      simp only [Prod.mk.injEq, true_and, Option.some.injEq]
      exact all_equal_iff distinct taken
    · have unread := getMetricsData_absent fl rep found
      simp only [Option.bind_some, unread, Except.toOption, Option.map_none, filterMap_none,
        Option.some.injEq, eq_comm (a := ([] : List (GoString × Int))), map_eq_nil_iff]
      refine ⟨.inl, ?_⟩
      rintro (none_ | ⟨t, single, rfl⟩)
      · exact none_
      · exact absurd (lt taken (single ▸ mem_singleton_self _)) found

end Reading

/-- When a range query is right after a sequence of calls: the host has no colon, or there is
    nothing to find, or the one record to find is the one every member is mistaken for. -/
theorem rangeQuery_iff (fl : Floats) (keyPrefix : GoString) (ops : List Op) (hostID : GoString)
    (first last : Int) :
    Answers fl ((init keyPrefix).run fl ops) hostID first last
        (inRange (live ops) hostID first last) ↔
      58 ∉ hostID ∨ inRange (live ops) hostID first last = [] ∨
        ∃ t, inRange (live ops) hostID first last = [t] ∧ misread hostID = some t := by
  have represents := run_represents_live fl ops (s := init keyPrefix) (empty_represents keyPrefix)
  by_cases colon : 58 ∈ hostID
  · rw [live, answers_colon_iff fl represents colon, or_iff_right (not_not_intro colon)]
  · exact iff_of_true (answers_plain fl represents colon first last) (.inl colon)

def portHost : GoString := ascii "10.0.0.1:9100"

/-- One record of a host that is named with its port. -/
def portOps : List Op := [.save ⟨portHost, 5, [], []⟩ (by decide) ⟨none, none⟩]

/-- The record is live, and the query over its time finds nothing. -/
theorem rangeQuery_loses_port : inRange (live portOps) portHost 0 10 = [5] ∧
    ((init (ascii "monitor:")).run noFloats portOps).getMetricsDataRange noFloats portHost 0 10 =
      .ok [] ∧
    ¬ Answers noFloats ((init (ascii "monitor:")).run noFloats portOps) portHost 0 10
      (inRange (live portOps) portHost 0 10) := by
  have content : inRange (live portOps) portHost 0 10 = [5] := by decide +kernel
  have answer : ((init (ascii "monitor:")).run noFloats portOps).getMetricsDataRange noFloats
      portHost 0 10 = .ok [] := by
    rfl
  refine ⟨content, answer, ?_⟩
  rintro ⟨result, found, same⟩
  cases found
  rw [content] at same
  cases same

end RedisStorage

end Monitor.Storage
