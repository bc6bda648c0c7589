import Monitor.Raft.Fsm

/-! # When replicas agree

A log entry changes the in-memory map by a list of writes that depends on the entry
and, for a batch, on how many of its items the replica reaches before its own storage
fails. `apply_data` says so, and replicas that reach equally far at every entry hold
equal maps after every entry.
-/

namespace Monitor.Raft

open GoText Json List

def objects : List Value → List Fields
  | [] => []
  | .map m :: items => m :: objects items
  | _ :: items => objects items

/-- How many of `count` objects a replica writes when its storage answers calls from `call` on
    with `outcome`: it stops behind the first failure. -/
def reach (storage : Bool) (outcome : Nat → SaveOutcome) : Nat → Nat → Nat
  | _, 0 => 0
  | call, count + 1 =>
    if storage ∧ (outcome call).storageErr.isSome then
      1
    else
      reach storage outcome (call + 1) count + 1

variable (outcome : Nat → SaveOutcome)

theorem reach_unstored (call count : Nat) :
    reach false outcome call count = count := by
  induction count generalizing call with
  | zero => rfl
  | succ count ih => simp only [reach, Bool.false_eq_true, false_and, if_false, ih]

/-- The objects an entry writes if nothing fails; only a batch can stop early. -/
def batchObjects (fl : Floats) (data : GoString) : List Fields :=
  match (parse data).bind (decodeMap fl) with
  | none => []
  | some cmd =>
    if stringField cmd (ascii "type") = ascii "batch_metrics" then
      objects (sliceField cmd (ascii "batch"))
    else
      []

def writeItem (fl : Floats) (data : GoString → Option GoString) (m : Fields) :
    GoString → Option GoString :=
  Function.update data (metricsKey (hostIDOf m) (timestampOf fl m)) (some (marshal fl (.map m)))

namespace Fsm

variable {fl : Floats}

theorem applyItems_data :
    ∀ (items : List Value) (call : Nat) (f : Fsm), (f.applyItems fl outcome call items).1.data =
      ((objects items).take (reach f.storage outcome call (objects items).length)).foldl
        (writeItem fl) f.data := by
  intro items
  induction items with
  | nil => exact fun _ _ => rfl
  | cons item items ih =>
    intro call f
    cases item with
    | map m =>
      simp only [applyItems, objects, length_cons, reach]
      cases attached : f.storage with
      | false =>
        have unstored : (f.putItem fl m).storage = false := attached
        simp only [unstored, Bool.false_eq_true, false_and, if_false, take_succ_cons, foldl_cons]
        rw [ih, unstored, reach_unstored, reach_unstored]
        rfl
      | true =>
        have stored : (f.putItem fl m).storage = true := attached
        simp only [stored, if_true, true_and]
        cases failed : (outcome call).storageErr with
        | some message => rfl
        | none =>
          rw [ih]
          rfl
    | nil | bool b | float x | string s | slice xs => exact ih call f

theorem applyItems_storage :
    ∀ (items : List Value) (call : Nat) (f : Fsm),
      (f.applyItems fl outcome call items).1.storage = f.storage := by
  intro items
  induction items with
  | nil => exact fun _ _ => rfl
  | cons item items ih =>
    intro call f
    cases item with
    | map m =>
      simp only [applyItems]
      split
      · split
        · rfl
        · exact ih _ _
      · exact ih _ _
    | nil | bool b | float x | string s | slice xs => exact ih call f

structure Alike (fl : Floats) (data : GoString) (first second : Nat → SaveOutcome) (f g : Fsm) :
    Prop where
  same : f.data = g.data
  reached : reach f.storage first 0 (batchObjects fl data).length =
    reach g.storage second 0 (batchObjects fl data).length

variable {data : GoString} {first second : Nat → SaveOutcome} {f g : Fsm}

theorem put_alike (same : f.data = g.data) (key value : GoString) :
    (f.put key value).data = (g.put key value).data := by
  simp only [put, same]

theorem delete_alike (same : f.data = g.data) (key : GoString) :
    (f.delete key).data = (g.delete key).data := by
  simp only [delete, same]

theorem increment_alike (same : f.data = g.data) (cmd : Command) :
    (f.increment cmd).data = (g.increment cmd).data := by
  simp only [increment, same]
  cases g.data cmd.key with
  | none => exact same
  | some val =>
    simp only
    cases readInt val with
    | none => exact same
    | some current =>
      cases readInt cmd.value with
      | none => exact same
      | some amount => exact put_alike same _ _

theorem applyBatchMetrics_alike (same : f.data = g.data) {cmd : Fields}
    (reached : reach f.storage first 0 (objects (sliceField cmd (ascii "batch"))).length =
      reach g.storage second 0 (objects (sliceField cmd (ascii "batch"))).length) :
    (f.applyBatchMetrics fl first cmd).1.data = (g.applyBatchMetrics fl second cmd).1.data := by
  simp only [sliceField] at reached
  simp only [applyBatchMetrics]
  split
  · simp only [*] at reached
    rw [applyItems_data, applyItems_data, reached, same]
  · exact same

theorem applyGenericCommand_alike (alike : Alike fl data first second f g) :
    (f.applyGenericCommand fl first data).1.data = (g.applyGenericCommand fl second data).1.data := by
  have reached := alike.reached
  simp only [batchObjects] at reached
  simp only [applyGenericCommand]
  cases decoded : (parse data).bind (decodeMap fl) with
  | none => exact alike.same
  | some cmd =>
    simp only [decoded, stringField] at reached
    simp only
    cases kind : getKey (ascii "type") cmd with
    | none => exact alike.same
    | some value =>
      cases value with
      | string cmdType =>
        simp only [kind] at reached ⊢
        split
        · rename_i isBatch
          rw [if_pos isBatch] at reached
          exact applyBatchMetrics_alike alike.same reached
        · split
          · exact put_alike alike.same _ _
          · split
            · exact put_alike alike.same _ _
            · exact alike.same
      | nil | bool b | float x | slice xs | map m => exact alike.same

theorem applyCommand_alike (alike : Alike fl data first second f g) (cmd : Command) :
    (f.applyCommand fl first cmd data).1.data = (g.applyCommand fl second cmd data).1.data := by
  have same := alike.same
  simp only [applyCommand]
  split
  · exact put_alike same _ _
  · split
    · exact delete_alike same _
    · split
      · simp only [same]
        split
        · exact put_alike same _ _
        · exact same
      · split
        · exact increment_alike same cmd
        · split
          · exact delete_alike same _
          · exact applyGenericCommand_alike alike

theorem apply_alike (logEntry : LogEntry) (alike : Alike fl logEntry.data first second f g) :
    (f.apply fl first logEntry).1.data = (g.apply fl second logEntry).1.data := by
  simp only [apply]
  have touched : Alike fl logEntry.data first second
      { f with lastIndex := logEntry.index, lastTerm := logEntry.term }
      { g with lastIndex := logEntry.index, lastTerm := logEntry.term } :=
    ⟨alike.same, alike.reached⟩
  split
  · exact applyGenericCommand_alike touched
  · split
    · exact alike.same
    · exact applyCommand_alike touched _

theorem applyGenericCommand_storage (f : Fsm) (rawData : GoString) :
    (f.applyGenericCommand fl outcome rawData).1.storage = f.storage := by
  simp only [applyGenericCommand]
  split
  · rfl
  · split
    · split
      · simp only [applyBatchMetrics]
        split
        · exact applyItems_storage outcome _ 0 f
        · rfl
      · split
        · rfl
        · split
          · rfl
          · rfl
    · rfl

theorem increment_storage (f : Fsm) (cmd : Command) : (f.increment cmd).storage = f.storage := by
  simp only [increment]
  split
  · rfl
  · split
    · rfl
    · split
      · rfl
      · rfl

theorem apply_storage (f : Fsm) (logEntry : LogEntry) :
    (f.apply fl outcome logEntry).1.storage = f.storage := by
  simp only [apply]
  split
  · exact applyGenericCommand_storage outcome _ _
  · split
    · rfl
    · simp only [applyCommand]
      split
      · rfl
      · split
        · rfl
        · split
          · simp only
            split
            · rfl
            · rfl
          · split
            · exact increment_storage _ _
            · split
              · rfl
              · exact applyGenericCommand_storage outcome _ _

end Fsm

/-- A log entry with what the storages of two replicas answer while it is applied. -/
structure Step where
  entry : LogEntry
  first : Nat → SaveOutcome
  second : Nat → SaveOutcome

/-- Both replicas write the same number of the entry's objects. -/
def Step.SameReach (fl : Floats) (firstStorage secondStorage : Bool) (step : Step) : Prop :=
  reach firstStorage step.first 0 (batchObjects fl step.entry.data).length =
    reach secondStorage step.second 0 (batchObjects fl step.entry.data).length

instance (fl : Floats) (firstStorage secondStorage : Bool) (step : Step) :
    Decidable (step.SameReach fl firstStorage secondStorage) :=
  inferInstanceAs (Decidable (_ = _))

def Step.onFirst (step : Step) : LogEntry × (Nat → SaveOutcome) := (step.entry, step.first)

def Step.onSecond (step : Step) : LogEntry × (Nat → SaveOutcome) := (step.entry, step.second)

theorem replay_alike (fl : Floats) (steps : List Step) {f g : Fsm} (same : f.data = g.data)
    (reached : ∀ step ∈ steps, step.SameReach fl f.storage g.storage) :
    (f.replay fl (steps.map Step.onFirst)).data = (g.replay fl (steps.map Step.onSecond)).data := by
  induction steps generalizing f g with
  | nil => exact same
  | cons step steps ih =>
    apply ih
    · exact Fsm.apply_alike step.entry ⟨same, reached step mem_cons_self⟩
    · intro later mem
      simp only [Step.onFirst, Step.onSecond, Fsm.apply_storage]
      exact reached later (mem_cons_of_mem step mem)

/-- Replicas that start empty and reach equally far in every batch hold equal maps after every
    entry, whatever their storages answer otherwise. -/
theorem replicas_agree (fl : Floats) (firstStorage secondStorage : Bool) (steps : List Step)
    (reached : ∀ step ∈ steps, step.SameReach fl firstStorage secondStorage) (n : Nat) :
    ((newFSM firstStorage).replay fl ((steps.take n).map Step.onFirst)).data =
      ((newFSM secondStorage).replay fl ((steps.take n).map Step.onSecond)).data :=
  replay_alike fl (steps.take n) rfl fun step member => reached step (mem_of_mem_take member)

/-- A batch of two items for the hosts `a` and `b`. -/
def twoItems : LogEntry where
  index := 1
  term := 1
  data := ascii "\x7b\"type\":\"batch_metrics\",\"batch\":[\x7b\"hostId\":\"a\"\x7d,\x7b\"hostId\":\"b\"\x7d]\x7d"

/-- One storage fails, but only at the last item, and the other replica has none. -/
theorem replicas_agree_last :
    let late : Nat → SaveOutcome := fun call => if call = 1 then .error [] else .ok
    ((newFSM true).replay noFloats [(twoItems, late)]).data =
      ((newFSM false).replay noFloats [(twoItems, fun _ => .ok)]).data :=
  replicas_agree noFloats true false [⟨twoItems, fun call => if call = 1 then .error [] else .ok,
    fun _ => .ok⟩] (by decide +kernel) 1

/-- The first storage fails at the first item and the second one does not. -/
theorem replicas_diverge :
    let failing : Nat → SaveOutcome := fun _ => .error (ascii "connection refused")
    let key := metricsKey (ascii "b") 0
    ((newFSM true).replay noFloats [(twoItems, failing)]).data key = none ∧
      ((newFSM true).replay noFloats [(twoItems, fun _ => .ok)]).data key =
        some (ascii "\x7b\"hostId\":\"b\"\x7d") := by
  decide +kernel

end Monitor.Raft
