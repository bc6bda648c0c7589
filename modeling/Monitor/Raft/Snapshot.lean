import Monitor.Lib.JsonStrings
import Monitor.Raft.Determinism

/-! # Snapshots of the state machine

`Snapshot`, `Persist` and `Restore` of `fsm.go`. A snapshot is a copy of the map, so
later entries do not reach it; its text is JSON. Every key that an entry can create
comes from decoded strings and is valid UTF-8, so the text keeps the keys apart and
a replica restored from it goes on like the original (`restored_agrees`).
-/

namespace Monitor.Raft

open GoText Json List Function Option Fsm

structure FSMSnapshot where
  data : List (GoString × GoString)

/-- A loop over the map goes through the keys in any order. -/
structure Fsm.Ranges (f : Fsm) (order : List GoString) : Prop where
  nodup : order.Nodup
  keys : ∀ k, k ∈ order ↔ (f.data k).isSome

def Fsm.snapshot (f : Fsm) (order : List GoString) : FSMSnapshot where
  data := order.foldl (fun data k =>
    match f.data k with
    | some v => setKey k v data
    | none => data) []

/-- A byte slice in a text. The model has the bytes only, so whether an empty slice is nil is a
    parameter. -/
def bytesTree (isNil : Bool) (v : GoString) : Tree :=
  if v.isEmpty ∧ isNil then .null else .string (encodeBase64 v)

/-- What an `Encoder` writes for a map of byte slices; a line end follows the text. -/
def encodeBytesMap (nils : GoString → Bool) (m : List (GoString × GoString)) : GoString :=
  write (.object (m.map fun (k, v) => (k, bytesTree (nils k) v))) ++ [10]

inductive Sink where
  | cancelled
  | closed (written : GoString)
  deriving DecidableEq

/-- `Persist`, with the errors of writing and closing the sink; it returns an error or none. -/
def FSMSnapshot.persist (s : FSMSnapshot) (nils : GoString → Bool)
    (writeErr closeErr : Option GoString) : Sink × Option GoString :=
  match writeErr with
  | some err => (.cancelled, some err)
  | none => (.closed (encodeBytesMap nils s.data), closeErr)

/-- A `Decoder` reads the first value of a stream. -/
def decodeFirst (s : GoString) : Option Tree := (parseValue (2 * s.length + 2) 0 s).map (·.1)

def decodeBytesMembers : List (GoString × Tree) → List (GoString × GoString) →
    Option (List (GoString × GoString))
  | [], m => some m
  | (k, t) :: members, m => do
      let v ← decodeBytes [] t
      decodeBytesMembers members (setKey k v m)

/-- What `Restore` leaves: the old state with an error, a nil map, or a new state. -/
inductive Restored where
  | error
  | nilMap
  | ok (f : Fsm)

def Fsm.restore (f : Fsm) (rc : GoString) : Restored :=
  match decodeFirst rc with
  | none => .error
  | some .null => .nilMap
  | some (.object members) =>
    match decodeBytesMembers members [] with
    | none => .error
    | some data => .ok { f with data := fun k => getKey k data }
  | some _ => .error

/-- Entries applied one after the other, all storage calls succeeding; a panic ends the process. -/
def Fsm.applyAll (fl : Floats) (f : Fsm) : List LogEntry → Option Fsm
  | [] => some f
  | entry :: entries =>
    match f.apply fl (fun _ => .ok) entry with
    | (_, .panic) => none
    | (f, _) => f.applyAll fl entries

/-- A replica with a snapshot that is not persisted yet, and the snapshot that it has stored. -/
structure Node where
  fsm : Fsm
  pending : Option FSMSnapshot
  stored : Option GoString

namespace Node

inductive Event where
  | apply (entry : LogEntry)
  | snapshot (order : List GoString)
  | persist (nils : GoString → Bool) (writeErr closeErr : Option GoString)

def start (storage : Bool) : Node := ⟨newFSM storage, none, none⟩

def step (fl : Floats) (n : Node) : Event → Option Node
  | .apply entry => (n.fsm.applyAll fl [entry]).map fun fsm => { n with fsm }
  | .snapshot order => some { n with pending := some (n.fsm.snapshot order) }
  | .persist nils writeErr closeErr =>
    match n.pending with
    | none => none
    | some s =>
      match s.persist nils writeErr closeErr with
      | (.closed written, none) => some { n with pending := none, stored := some written }
      | _ => some { n with pending := none }

def run (fl : Floats) (n : Node) (events : List Event) : Option Node := events.foldlM (step fl) n

end Node

section Keys

/-- A map with finitely many keys, all of them valid UTF-8. -/
structure Keyed (data : GoString → Option GoString) : Prop where
  valid : ∀ k, data k ≠ none → Utf8.Valid k
  finite : {k | data k ≠ none}.Finite

theorem keyed_empty : Keyed fun _ => none := ⟨fun _ some_ => absurd rfl some_, by simp⟩

variable {data : GoString → Option GoString}

theorem Keyed.put (keyed : Keyed data) {key : GoString} (valid : Utf8.Valid key) (value : GoString) :
    Keyed (update data key (some value)) where
  valid := by
    intro k some_
    by_cases same : k = key
    · rwa [same]
    · rw [update_of_ne same] at some_
      exact keyed.valid k some_
  finite := by
    refine (keyed.finite.insert key).subset fun k some_ => ?_
    by_cases same : k = key
    · exact .inl same
    · refine .inr ?_
      change data k ≠ none
      rwa [← update_of_ne same (some value) data]

theorem Keyed.delete (keyed : Keyed data) (key : GoString) : Keyed (update data key none) := by
  have less : ∀ k, update data key none k ≠ none → data k ≠ none := by
    intro k some_
    by_cases same : k = key
    · rw [same, update_self] at some_
      exact absurd rfl some_
    · rwa [update_of_ne same] at some_
  exact ⟨fun k some_ => keyed.valid k (less k some_), keyed.finite.subset less⟩

theorem ascii_valid {s : String} (small : (ascii s).all (· < 0x80)) : Utf8.Valid (ascii s) :=
  .of_ascii fun c mem => of_decide_eq_true (all_eq_true.mp small c mem)

theorem itoa_valid (z : Int) : Utf8.Valid (itoa z) := by
  refine .of_ascii fun c mem => ?_
  have small : ∀ c : UInt8, c = 45 ∨ isDigit c = true → c < 0x80 := by decide +kernel
  exact small c (mem_itoa mem)

theorem metricsKey_valid {hostID : GoString} (valid : Utf8.Valid hostID) (timestamp : Int) :
    Utf8.Valid (metricsKey hostID timestamp) := by
  have front := ascii_valid (s := "monitor:metrics:") (by decide +kernel)
  have colon := ascii_valid (s := ":") (by decide +kernel)
  exact ((front.append valid).append colon).append (itoa_valid timestamp)

theorem hostIDOf_valid {m : Fields} (valid : Value.ValidMembers m) : Utf8.Valid (hostIDOf m) := by
  simp only [hostIDOf]
  split
  · exact stringField_valid valid _
  · exact stringField_valid valid _

theorem mem_objects {m : Fields} {items : List Value} (mem : m ∈ objects items) : .map m ∈ items := by
  induction items with
  | nil => cases mem
  | cons item items ih =>
    cases item with
    | map m' =>
      rcases mem_cons.mp mem with rfl | later
      · exact mem_cons_self
      · exact mem_cons_of_mem _ (ih later)
    | nil | bool b | float x | string s | slice xs => exact mem_cons_of_mem _ (ih mem)

variable {fl : Floats}

theorem Keyed.writeItems {ms : List Fields} (valid : ∀ m ∈ ms, Value.ValidMembers m)
    (keyed : Keyed data) : Keyed (ms.foldl (writeItem fl) data) := by
  induction ms generalizing data with
  | nil => exact keyed
  | cons m ms ih =>
    refine ih (fun m' mem => valid m' (mem_cons_of_mem m mem)) ?_
    exact keyed.put (metricsKey_valid (hostIDOf_valid (valid m mem_cons_self)) _) _

end Keys

variable {entries : List LogEntry} (outcome : Nat → SaveOutcome)

namespace Fsm

variable {fl : Floats} {f g : Fsm}

theorem applyBatchMetrics_keyed {cmd : Fields}
    (valid : Value.ValidMembers cmd) (keyed : Keyed f.data) :
    Keyed (f.applyBatchMetrics fl outcome cmd).1.data := by
  simp only [applyBatchMetrics]
  split
  · rename_i batch found
    have items : ∀ v ∈ batch, v.Valid :=
      (Value.validItems_iff batch).mp ((Value.validMembers_iff cmd).mp valid _ (mem_of_getKey found))
    rw [applyItems_data]
    refine keyed.writeItems fun m mem => ?_
    exact items _ (mem_objects (mem_of_mem_take mem))
  · exact keyed

theorem applyGenericCommand_keyed (keyed : Keyed f.data)
    (rawData : GoString) : Keyed (f.applyGenericCommand fl outcome rawData).1.data := by
  simp only [applyGenericCommand]
  split
  · exact keyed
  · rename_i cmd decoded
    have valid := decodeMap_valid decoded
    split
    · split
      · exact applyBatchMetrics_keyed outcome valid keyed
      · split
        · have host := ascii_valid (s := "host:") (by decide +kernel)
          exact keyed.put (host.append (stringField_valid valid _)) _
        · split
          · have config := ascii_valid (s := "config:current") (by decide +kernel)
            exact keyed.put config _
          · exact keyed
    · exact keyed

variable {cmd : Command}

theorem increment_keyed (keyed : Keyed f.data) (valid : Utf8.Valid cmd.key) :
    Keyed (f.increment cmd).data := by
  simp only [increment]
  split
  · exact keyed
  · split
    · exact keyed
    · split
      · exact keyed
      · exact keyed.put valid _

theorem applyCommand_keyed (keyed : Keyed f.data)
    (valid : Utf8.Valid cmd.key) (rawData : GoString) :
    Keyed (f.applyCommand fl outcome cmd rawData).1.data := by
  simp only [applyCommand]
  split
  · exact keyed.put valid _
  split
  · exact keyed.delete _
  split
  · simp only
    split
    · exact keyed.put valid _
    · exact keyed
  split
  · exact increment_keyed keyed valid
  split
  · exact keyed.delete _
  · exact applyGenericCommand_keyed outcome keyed rawData

theorem decodeMember_key_valid {cmd' : Command} {name : GoString} {t : Tree} (valid : t.Valid)
    (old : Utf8.Valid cmd.key) (decoded : Command.decodeMember fl cmd (name, t) = some cmd') :
    Utf8.Valid cmd'.key := by
  simp only [Command.decodeMember] at decoded
  split at decoded
  · obtain ⟨_, _, rfl⟩ := map_eq_some_iff.mp decoded
    exact old
  split at decoded
  · obtain ⟨key, read, rfl⟩ := map_eq_some_iff.mp decoded
    cases t with
    | null =>
      cases read
      exact old
    | string s =>
      cases read
      exact valid
    | bool b | number n | array items | object members => cases read
  iterate 3
    split at decoded
    · obtain ⟨_, _, rfl⟩ := map_eq_some_iff.mp decoded
      exact old
  · cases decoded
    exact old

theorem decode_key_valid {data : GoString}
    (decoded : (parse data).bind (Command.decode fl) = some cmd) : Utf8.Valid cmd.key := by
  obtain ⟨t, parsed, decoded⟩ := bind_eq_some_iff.mp decoded
  have valid := parse_valid parsed
  cases t with
  | null =>
    cases decoded
    exact Utf8.valid_nil
  | object members =>
    have general : ∀ start : Command, Utf8.Valid start.key → Tree.ValidMembers members →
        members.foldlM (Command.decodeMember fl) start = some cmd → Utf8.Valid cmd.key := by
      clear decoded valid parsed
      induction members with
      | nil =>
        intro start old _ decoded
        cases decoded
        exact old
      | cons mem members ih =>
        intro start old valid decoded
        rw [foldlM_cons] at decoded
        obtain ⟨next, first, later⟩ := bind_eq_some_iff.mp decoded
        exact ih next (decodeMember_key_valid valid.2.1 old first) valid.2.2 later
    exact general Command.zero Utf8.valid_nil valid decoded
  | bool b | number n | string s | array items => cases decoded

theorem apply_keyed (keyed : Keyed f.data) (logEntry : LogEntry) :
    Keyed (f.apply fl outcome logEntry).1.data := by
  have touched : Keyed
      ({ f with lastIndex := logEntry.index, lastTerm := logEntry.term } : Fsm).data := keyed
  simp only [apply]
  split
  · exact applyGenericCommand_keyed outcome touched logEntry.data
  · split
    · exact keyed
    · rename_i cmd decoded
      exact applyCommand_keyed outcome touched (decode_key_valid decoded) logEntry.data

theorem applyAll_keyed (keyed : Keyed f.data)
    (applied : f.applyAll fl entries = some g) : Keyed g.data := by
  induction entries generalizing f with
  | nil =>
    cases applied
    exact keyed
  | cons entry entries ih =>
    have kept : Keyed (f.apply fl (fun _ => .ok) entry).1.data := apply_keyed _ keyed entry
    rw [applyAll] at applied
    split at applied
    · cases applied
    · rename_i result
      rw [result] at kept
      exact ih kept applied

theorem exists_ranges (keyed : Keyed f.data) : ∃ order, f.Ranges order := by
  refine ⟨keyed.finite.toFinset.toList, Finset.nodup_toList _, fun k => ?_⟩
  rw [Finset.mem_toList, Set.Finite.mem_toFinset, isSome_iff_ne_none]
  rfl

end Fsm

section RoundTrip

variable {m : List (GoString × GoString)} (nils : GoString → Bool)

def membersOf (m : List (GoString × GoString)) : List (GoString × Tree) :=
  m.map fun (k, v) => (k, bytesTree (nils k) v)

theorem decodeBytes_bytesTree (isNil : Bool) (v : GoString) :
    decodeBytes [] (bytesTree isNil v) = some v := by
  rw [bytesTree]
  split
  · rename_i empty
    rw [List.isEmpty_iff.mp empty.1]
    rfl
  · exact decodeBase64_encodeBase64 v

theorem bytesTree_plain (room : Nat) (isNil : Bool) (v : GoString) :
    Plain room (bytesTree isNil v) ∧ clean (bytesTree isNil v) = bytesTree isNil v := by
  rw [bytesTree]
  split
  · exact ⟨by cases room <;> trivial, rfl⟩
  · exact ⟨by cases room <;> trivial, by rw [clean, sanitize_of_valid (encodeBase64_valid v)]⟩

theorem membersOf_plain (room : Nat) (valid : ∀ entry ∈ m, Utf8.Valid entry.1) :
    PlainMembers room (membersOf nils m) ∧ cleanMembers (membersOf nils m) = membersOf nils m := by
  induction m with
  | nil => exact ⟨trivial, rfl⟩
  | cons entry m ih =>
    obtain ⟨k, v⟩ := entry
    obtain ⟨plain, same⟩ := ih fun other mem => valid other (mem_cons_of_mem _ mem)
    obtain ⟨plain', same'⟩ := bytesTree_plain room (nils k) v
    refine ⟨⟨plain', plain⟩, ?_⟩
    change (sanitize k, clean (bytesTree (nils k) v)) :: cleanMembers (membersOf nils m) = _
    rw [sanitize_of_valid (valid (k, v) mem_cons_self), same', same]
    rfl

theorem decodeBytesMembers_membersOf (start : List (GoString × GoString)) :
    decodeBytesMembers (membersOf nils m) start =
      some (m.foldl (fun data entry => setKey entry.1 entry.2 data) start) := by
  induction m generalizing start with
  | nil => rfl
  | cons entry m ih =>
    obtain ⟨k, v⟩ := entry
    change (decodeBytes [] (bytesTree (nils k) v)).bind _ = _
    rw [decodeBytes_bytesTree]
    exact ih (setKey k v start)

theorem decodeFirst_encodeBytesMap (valid : ∀ entry ∈ m, Utf8.Valid entry.1) :
    decodeFirst (encodeBytesMap nils m) = some (.object (membersOf nils m)) := by
  obtain ⟨plain, same⟩ := membersOf_plain nils (maxNestingDepth - 1) valid
  have enough : (write (.object (membersOf nils m))).length ≤
      2 * (encodeBytesMap nils m).length + 1 := by
    change _ ≤ 2 * (write (.object (membersOf nils m)) ++ [10]).length + 1
    rw [length_append]
    omega
  have read := parseValue_write_object plain enough [10]
  rw [clean, same] at read
  rw [decodeFirst]
  exact congrArg (Option.map (·.1)) read

end RoundTrip

section Copies

variable {data : GoString → Option GoString} {entries : List (GoString × GoString)}

/-- The entries written into an empty map one after the other. -/
def copy (entries : List (GoString × GoString)) : List (GoString × GoString) :=
  entries.foldl (fun data entry => setKey entry.1 entry.2 data) []

variable {e : GoString × GoString}

theorem mem_foldl_setKey {start : List (GoString × GoString)}
    (mem : e ∈ entries.foldl (fun data entry => setKey entry.1 entry.2 data) start) :
    e ∈ entries ∨ e ∈ start := by
  induction entries generalizing start with
  | nil => exact .inr mem
  | cons entry entries ih =>
    rcases ih mem with later | written
    · exact .inl (mem_cons_of_mem entry later)
    · rcases mem_setKey written with rfl | old
      · exact .inl mem_cons_self
      · exact .inr old

theorem getKey_foldl_setKey (agree : ∀ e ∈ entries, data e.1 = some e.2)
    (start : List (GoString × GoString)) (k : GoString) :
    getKey k (entries.foldl (fun data entry => setKey entry.1 entry.2 data) start) =
      if k ∈ entries.map (·.1) then data k else getKey k start := by
  induction entries generalizing start with
  | nil => simp
  | cons entry entries ih =>
    obtain ⟨k', v'⟩ := entry
    have here := agree (k', v') mem_cons_self
    rw [foldl_cons, ih fun e mem => agree e (mem_cons_of_mem _ mem), getKey_setKey]
    by_cases same : k' = k
    · subst same
      simp [here]
    · simp only [if_neg same, map_cons, mem_cons, Ne.symm same, false_or]

theorem getKey_copy (agree : ∀ e ∈ entries, data e.1 = some e.2)
    (complete : ∀ k v, data k = some v → (k, v) ∈ entries) (k : GoString) :
    getKey k (copy entries) = data k := by
  rw [copy, getKey_foldl_setKey agree]
  split
  · rfl
  · rename_i absent
    cases found : data k with
    | none => rfl
    | some v => exact absurd (mem_map_of_mem (complete k v found)) absent

variable {f : Fsm} {order : List GoString}

theorem snapshot_data (f : Fsm) (order : List GoString) : (f.snapshot order).data =
      copy (order.filterMap fun k => (f.data k).map fun v => (k, v)) := by
  rw [snapshot, copy, foldl_filterMap]
  refine congrArg (fun body => order.foldl body []) ?_
  funext data k
  cases f.data k <;> rfl

theorem getKey_snapshot (ranges : f.Ranges order) (k : GoString) :
    getKey k (f.snapshot order).data = f.data k := by
  rw [snapshot_data]
  refine getKey_copy (fun e mem => ?_) (fun k v found => ?_) k
  · obtain ⟨k', _, entry⟩ := mem_filterMap.mp mem
    obtain ⟨v, found, rfl⟩ := map_eq_some_iff.mp entry
    exact found
  · refine mem_filterMap.mpr ⟨k, ?_, by rw [found]; rfl⟩
    rw [ranges.keys, found]
    rfl

theorem mem_snapshot (mem : e ∈ (f.snapshot order).data) :
    f.data e.1 = some e.2 := by
  rw [snapshot_data] at mem
  rcases mem_foldl_setKey mem with listed | none_
  · obtain ⟨k, _, entry⟩ := mem_filterMap.mp listed
    obtain ⟨v, found, rfl⟩ := map_eq_some_iff.mp entry
    exact found
  · cases none_

theorem restore_persisted (keyed : Keyed f.data) (ranges : f.Ranges order) (nils : GoString → Bool)
    (fresh : Fsm) : fresh.restore (encodeBytesMap nils (f.snapshot order).data) =
      .ok { fresh with data := f.data } := by
  have agree : ∀ e ∈ (f.snapshot order).data, f.data e.1 = some e.2 := fun _ => mem_snapshot
  have valid : ∀ e ∈ (f.snapshot order).data, Utf8.Valid e.1 := by
    intro e mem
    exact keyed.valid e.1 (by rw [agree e mem]; exact some_ne_none _)
  have complete : ∀ k v, f.data k = some v → (k, v) ∈ (f.snapshot order).data := by
    intro k v found
    refine mem_of_getKey ?_
    rw [getKey_snapshot ranges, found]
  have data : (fun k => getKey k (copy (f.snapshot order).data)) = f.data :=
    funext (getKey_copy agree complete)
  simp only [restore, decodeFirst_encodeBytesMap nils valid, decodeBytesMembers_membersOf]
  exact congrArg (fun data => Restored.ok { fresh with data }) data

end Copies

section GoingOn

variable {fl : Floats} {f g : Fsm}

theorem applyItems_ne_panic :
    ∀ (items : List Value) (call : Nat) (f : Fsm), (f.applyItems fl outcome call items).2 ≠ .panic := by
  intro items
  induction items with
  | nil => intro call f panics; cases panics
  | cons item items ih =>
    intro call f
    cases item with
    | map m =>
      simp only [applyItems]
      split
      · split
        · intro panics
          cases panics
        · exact ih _ _
      · exact ih _ _
    | nil | bool b | float x | string s | slice xs => exact ih call f

/-- A text that decodes to a map without a type name. -/
def Untyped (fl : Floats) (rawData : GoString) : Prop :=
  ∃ cmd, (parse rawData).bind (decodeMap fl) = some cmd ∧
    ∀ cmdType, getKey (ascii "type") cmd ≠ some (.string cmdType)

theorem applyGenericCommand_panic_iff (f : Fsm) (rawData : GoString) :
    (f.applyGenericCommand fl outcome rawData).2 = .panic ↔ Untyped fl rawData := by
  simp only [applyGenericCommand, Untyped]
  cases decoded : (parse rawData).bind (decodeMap fl) with
  | none => simp
  | some cmd =>
    simp only [some.injEq, exists_eq_left']
    split
    · rename_i cmdType found
      refine iff_of_false ?_ fun untyped => untyped cmdType found
      split
      · simp only [applyBatchMetrics]
        split
        · exact applyItems_ne_panic outcome _ 0 f
        · intro panics
          cases panics
      · split
        · intro panics
          cases panics
        · split
          · intro panics
            cases panics
          · intro panics
            cases panics
    · rename_i untyped
      exact ⟨fun _ => untyped, fun _ => rfl⟩

theorem applyCommand_panic_iff {first second : Nat → SaveOutcome} (cmd : Command)
    (rawData : GoString) : (f.applyCommand fl first cmd rawData).2 = .panic ↔
      (g.applyCommand fl second cmd rawData).2 = .panic := by
  simp only [applyCommand]
  iterate 5
    split
    · rfl
  · rw [applyGenericCommand_panic_iff, applyGenericCommand_panic_iff]

theorem apply_panic_iff (f g : Fsm) (first second : Nat → SaveOutcome) (entry : LogEntry) :
    (f.apply fl first entry).2 = .panic ↔ (g.apply fl second entry).2 = .panic := by
  simp only [apply]
  split
  · rw [applyGenericCommand_panic_iff, applyGenericCommand_panic_iff]
  · split
    · rfl
    · exact applyCommand_panic_iff _ entry.data

theorem reach_ok (storage : Bool) (call count : Nat) :
    reach storage (fun _ => .ok) call count = count := by
  induction count generalizing call with
  | zero => rfl
  | succ count ih => simp [reach, SaveOutcome.storageErr, ih]

theorem applyAll_cons_iff (f f' : Fsm) (entry : LogEntry) (entries : List LogEntry) :
    f.applyAll fl (entry :: entries) = some f' ↔ (f.apply fl (fun _ => .ok) entry).2 ≠ .panic ∧
        (f.apply fl (fun _ => .ok) entry).1.applyAll fl entries = some f' := by
  rw [applyAll]
  split
  · rename_i result
    simp [result]
  · rename_i response other result
    rw [result]
    exact ⟨fun applied => ⟨other, applied⟩, fun applied => applied.2⟩

theorem applyAll_alike (same : f.data = g.data) {f' : Fsm}
    (applied : f.applyAll fl entries = some f') :
    ∃ g', g.applyAll fl entries = some g' ∧ f'.data = g'.data := by
  induction entries generalizing f g with
  | nil =>
    cases applied
    exact ⟨g, rfl, same⟩
  | cons entry entries ih =>
    obtain ⟨quiet, later⟩ := (applyAll_cons_iff f f' entry entries).mp applied
    have alike : Fsm.Alike fl entry.data (fun _ => .ok) (fun _ => .ok) f g :=
      ⟨same, by rw [reach_ok, reach_ok]⟩
    obtain ⟨g', applied', same'⟩ := ih (apply_alike entry alike) later
    refine ⟨g', (applyAll_cons_iff g g' entry entries).mpr ⟨fun panics => ?_, applied'⟩, same'⟩
    exact quiet ((apply_panic_iff f g _ _ entry).mpr panics)

theorem applyAll_append (f : Fsm) (first second : List LogEntry) :
    f.applyAll fl (first ++ second) = (f.applyAll fl first).bind fun f => f.applyAll fl second := by
  induction first generalizing f with
  | nil => rfl
  | cons entry first ih =>
    rw [cons_append, applyAll, applyAll]
    split
    · rfl
    · exact ih _

namespace Node

theorem run_cons (n : Node) (event : Event) (events : List Event) :
    n.run fl (event :: events) = (n.step fl event).bind fun n => n.run fl events :=
  foldlM_cons ..

theorem run_append (n : Node) (first second : List Event) :
    n.run fl (first ++ second) = (n.run fl first).bind fun n => n.run fl second :=
  foldlM_append ..

theorem run_apply {n : Node} (applied : n.fsm.applyAll fl entries = some f) :
    n.run fl (entries.map .apply) = some { n with fsm := f } := by
  induction entries generalizing n with
  | nil =>
    cases applied
    rfl
  | cons entry entries ih =>
    obtain ⟨quiet, later⟩ := (applyAll_cons_iff n.fsm f entry entries).mp applied
    have one : n.fsm.applyAll fl [entry] = some (n.fsm.apply fl (fun _ => .ok) entry).1 :=
      (applyAll_cons_iff _ _ entry []).mpr ⟨quiet, rfl⟩
    rw [map_cons, run_cons, step, one, map_some, bind_some]
    exact ih later

end Node

/-- A replica that takes a snapshot behind some entries, applies further ones and then persists the
    snapshot: whoever restores what it stored and goes on with other entries gets to the map that
    applying the entries directly leads to. -/
theorem restored_agrees (storage storage' : Bool) {first between second : List LogEntry}
    {order : List GoString} (nils : GoString → Bool) {f₁ f₂ f₃ : Fsm}
    (taken : (newFSM storage).applyAll fl first = some f₁) (ranges : f₁.Ranges order)
    (further : (newFSM storage).applyAll fl (first ++ between) = some f₂)
    (direct : (newFSM storage).applyAll fl (first ++ second) = some f₃) :
    ∃ n bytes g g',
      (Node.start storage).run fl (first.map Node.Event.apply ++ Node.Event.snapshot order ::
        (between.map Node.Event.apply ++ [Node.Event.persist nils none none])) = some n ∧
      n.fsm = f₂ ∧ n.stored = some bytes ∧
      (newFSM storage').restore bytes = .ok g ∧
      g.applyAll fl second = some g' ∧ g'.data = f₃.data := by
  rw [applyAll_append, taken, Option.bind_some] at further direct
  have keyed : Keyed f₁.data := Fsm.applyAll_keyed keyed_empty taken
  have restored := restore_persisted keyed ranges nils (newFSM storage')
  obtain ⟨g', applied, same⟩ := applyAll_alike (f := f₁)
    (g := { newFSM storage' with data := f₁.data }) rfl direct
  refine ⟨⟨f₂, none, some (encodeBytesMap nils (f₁.snapshot order).data)⟩, _, _, g', ?_, rfl, rfl,
    restored, applied, same.symm⟩
  have start := Node.run_apply (n := Node.start storage) taken
  have more := Node.run_apply
    (n := { Node.start storage with fsm := f₁, pending := some (f₁.snapshot order) }) further
  rw [Node.run_append, start, Option.bind_some, Node.run_cons, Node.step, Option.bind_some,
    Node.run_append]
  rw [more]
  rfl

/-- Entries that set a counter, delete it and increase it. -/
def setCounter : LogEntry where
  index := 1
  term := 1
  data := ascii "\x7b\"type\":0,\"key\":\"a\",\"value\":\"MQ==\"\x7d"

def deleteCounter : LogEntry where
  index := 2
  term := 1
  data := ascii "\x7b\"type\":1,\"key\":\"a\"\x7d"

def increaseCounter : LogEntry where
  index := 3
  term := 1
  data := ascii "\x7b\"type\":3,\"key\":\"a\",\"value\":\"MQ==\"\x7d"

/-- The counter is deleted before the snapshot is persisted, and still increased from one to two on
    the restored replica. -/
theorem restored_agrees_counter :
    ∃ order n bytes g g',
      (Node.start true).run noFloats [.apply setCounter, .snapshot order, .apply deleteCounter,
        .persist (fun _ => true) none none] = some n ∧
      n.fsm.data (ascii "a") = none ∧ n.stored = some bytes ∧
      (newFSM false).restore bytes = .ok g ∧ g.applyAll noFloats [increaseCounter] = some g' ∧
      g'.data (ascii "a") = some (ascii "2") := by
  have taken : ((newFSM true).applyAll noFloats [setCounter]).isSome := by decide +kernel
  have further : ((newFSM true).applyAll noFloats ([setCounter] ++ [deleteCounter])).isSome := by
    decide +kernel
  have direct : ((newFSM true).applyAll noFloats ([setCounter] ++ [increaseCounter])).isSome := by
    decide +kernel
  obtain ⟨order, ranges⟩ := Fsm.exists_ranges
    (Fsm.applyAll_keyed keyed_empty (Option.some_get taken).symm)
  obtain ⟨n, bytes, g, g', ran, state, stored, restored, applied, same⟩ :=
    restored_agrees true false (fun _ => true) (Option.some_get taken).symm ranges
      (Option.some_get further).symm (Option.some_get direct).symm
  refine ⟨order, n, bytes, g, g', ran, ?_, stored, restored, applied, ?_⟩
  · rw [state]
    clear ran state stored restored applied same
    decide +kernel +revert
  · rw [same]
    clear ran state stored restored applied same
    decide +kernel +revert

end GoingOn

end Monitor.Raft
