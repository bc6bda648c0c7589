import Monitor.Lib.JsonText
import Monitor.Raft.Fsm

/-! # Counters of the replicated state machine

`CommandIncrement` decodes the stored bytes and the value of the command, and writes their sum
back in decimal. An entry whose value is no integer changes nothing, and neither does any
entry when the stored bytes are none. What a list of increments leaves behind depends on
their sum alone (`replay_increments`), and so not on their order.
-/

namespace Monitor.Raft

open GoText Json List Function Option Fsm

/-- The value of an entry that is a `CommandIncrement` for the key. -/
def incrementValue (fl : Floats) (key : GoString) (logEntry : LogEntry) : Option GoString :=
  if Fsm.isGeneric fl logEntry.data then
    none
  else
    ((parse logEntry.data).bind (Command.decode fl)).bind fun cmd =>
      if cmd.type = Command.commandIncrement ∧ cmd.key = key then some cmd.value else none

def amounts (fl : Floats) (key : GoString) (entries : List (LogEntry × (Nat → SaveOutcome))) : List Int :=
  entries.filterMap fun entry => (incrementValue fl key entry.1).bind Fsm.readInt

/-- What increments leave of the stored bytes. -/
def counted (stored : GoString) (increments : List Int) : GoString :=
  match Fsm.readInt stored with
  | none => stored
  | some current => if increments.isEmpty then stored else itoa (wrap64 (current + increments.sum))

theorem readInt_itoa_wrap64 (z : Int) : readInt (itoa (wrap64 z)) = some (wrap64 z) := by
  have text : parse (itoa (wrap64 z)) = some (.number (itoa (wrap64 z))) :=
    parse_write (t := .number (itoa (wrap64 z))) (itoa_isLiteral (wrap64 z))
  obtain ⟨low, high⟩ := wrap64_range z
  unfold readInt
  rw [text]
  exact parseInt64_itoa low high

section Counted

variable (stored : GoString) (amount : Int) (increments : List Int)

@[simp] theorem counted_nil : counted stored [] = stored := by
  unfold counted
  split <;> rfl

theorem counted_of_none {stored : GoString} (unread : readInt stored = none) :
    counted stored increments = stored := by
  simp only [counted, unread]

theorem counted_cons :
    counted stored (amount :: increments) = counted (counted stored [amount]) increments := by
  cases read : readInt stored with
  | none => simp only [counted_of_none _ read]
  | some current =>
    have one : counted stored [amount] = itoa (wrap64 (current + amount)) := by
      simp [counted, read]
    rw [one]
    cases increments with
    | nil =>
      rw [counted_nil]
      exact one
    | cons next rest =>
      simp only [counted, read, readInt_itoa_wrap64, wrap64_add, isEmpty_cons, Bool.false_eq_true,
        if_false, sum_cons, add_assoc]

theorem counted_perm {increments' : List Int} (order : increments.Perm increments') :
    counted stored increments = counted stored increments' := by
  have empty : increments.isEmpty = increments'.isEmpty := by
    rw [Bool.eq_iff_iff, List.isEmpty_iff, List.isEmpty_iff]
    exact ⟨fun none => (none ▸ order).nil_eq.symm, fun none => (none ▸ order).eq_nil⟩
  unfold counted
  rw [empty, order.sum_eq]

end Counted

section Entries

variable {fl : Floats} {f : Fsm} {key stored : GoString}

theorem increment_data {cmd : Command} (present : f.data cmd.key = some stored) :
    (f.increment cmd).data =
      update f.data cmd.key (some (counted stored (readInt cmd.value).toList)) := by
  have same : update f.data cmd.key (some stored) = f.data := by
    rw [← present, update_eq_self]
  unfold increment
  simp only [present]
  cases read : readInt stored with
  | none => simp only [counted_of_none _ read, same]
  | some current =>
    cases readInt cmd.value with
    | none => simp only [toList_none, counted_nil, same]
    | some amount => simp [counted, read, put]

theorem apply_increment (present : f.data key = some stored) {logEntry : LogEntry} {value : GoString}
    (increment : incrementValue fl key logEntry = some value) (outcome : Nat → SaveOutcome) :
    (f.apply fl outcome logEntry).1.data =
      update f.data key (some (counted stored (readInt value).toList)) := by
  unfold incrementValue at increment
  split at increment
  · cases increment
  · rename_i standard
    obtain ⟨cmd, decoded, command⟩ := bind_eq_some_iff.mp increment
    simp only [ite_none_right_eq_some, some.injEq] at command
    obtain ⟨⟨type, rfl⟩, rfl⟩ := command
    unfold apply applyCommand
    simp only [standard, Bool.false_eq_true, if_false, decoded, type, Command.commandIncrement,
      Command.commandSet, Command.commandDelete, Command.commandUpdate, if_true]
    exact increment_data present

theorem replay_increments {entries : List (LogEntry × (Nat → SaveOutcome))}
    (increments : ∀ entry ∈ entries, (incrementValue fl key entry.1).isSome) :
    ∀ {f : Fsm} {stored : GoString}, f.data key = some stored → (f.replay fl entries).data =
        update f.data key (some (counted stored (amounts fl key entries))) := by
  induction entries with
  | nil =>
    intro f stored present
    have same : amounts fl key [] = [] := rfl
    rw [same, counted_nil, ← present, update_eq_self]
    rfl
  | cons entry entries ih =>
    intro f stored present
    obtain ⟨value, first⟩ := isSome_iff_exists.mp (increments entry mem_cons_self)
    have applied := apply_increment present first entry.2
    have next : (f.apply fl entry.2 entry.1).1.data key =
        some (counted stored (readInt value).toList) := by
      rw [applied, update_self]
    have split : counted stored (amounts fl key (entry :: entries)) =
        counted (counted stored (readInt value).toList) (amounts fl key entries) := by
      unfold amounts
      cases read : readInt value with
      | none =>
        rw [filterMap_cons_none (by rw [first]; exact read), toList_none, counted_nil]
      | some amount =>
        rw [filterMap_cons_some (by rw [first]; exact read)]
        exact counted_cons _ _ _
    have later := ih (fun e mem => increments e (mem_cons_of_mem _ mem)) next
    rw [applied, update_idem, ← split] at later
    exact later

/-- Increments of an existing key commute; once the stored bytes and an increment are integers, the
    sum modulo 2^64 is stored in decimal. -/
theorem increments_commute (fl : Floats) {f : Fsm} {key stored : GoString}
    (present : f.data key = some stored) {entries entries' : List (LogEntry × (Nat → SaveOutcome))}
    (increments : ∀ entry ∈ entries, (incrementValue fl key entry.1).isSome)
    (order : entries.Perm entries') :
    (f.replay fl entries).data = (f.replay fl entries').data ∧
      ∀ current, Fsm.readInt stored = some current → amounts fl key entries ≠ [] →
        (f.replay fl entries).data key =
          some (itoa (wrap64 (current + (amounts fl key entries).sum))) := by
  have increments' : ∀ entry ∈ entries', (incrementValue fl key entry.1).isSome :=
    fun entry member => increments entry (order.mem_iff.mpr member)
  have same : (amounts fl key entries).Perm (amounts fl key entries') := order.filterMap _
  rw [replay_increments increments present, replay_increments increments' present, counted_perm _ _ same]
  refine ⟨rfl, fun current read some_ => ?_⟩
  rw [← counted_perm _ _ same, update_self]
  simp [counted, read, some_]

end Entries

/-- A counter at 40, and the increments 2, null, text and the largest integer. -/
def counter : Fsm := (newFSM false).put (ascii "k") (ascii "40")

def incrementEntry (value : String) : LogEntry × (Nat → SaveOutcome) :=
  (⟨1, 1, ascii ("\x7b\"type\":3,\"key\":\"k\",\"value\":\"" ++ value ++ "\"\x7d")⟩, fun _ => .ok)

def incrementEntries : List (LogEntry × (Nat → SaveOutcome)) :=
  [incrementEntry "Mg==", incrementEntry "bnVsbA==", incrementEntry "eA==",
    incrementEntry "OTIyMzM3MjAzNjg1NDc3NTgwNw=="]

theorem increments_commute_wrapped :
    amounts noFloats (ascii "k") incrementEntries = [2, 0, 9223372036854775807] ∧
    (counter.replay noFloats incrementEntries).data =
      (counter.replay noFloats incrementEntries.reverse).data ∧
    (counter.replay noFloats incrementEntries).data (ascii "k") = some (ascii "-9223372036854775767") := by
  have listed : amounts noFloats (ascii "k") incrementEntries = [2, 0, 9223372036854775807] := by
    decide +kernel
  have present : counter.data (ascii "k") = some (ascii "40") := by decide +kernel
  have increments : ∀ entry ∈ incrementEntries,
      (incrementValue noFloats (ascii "k") entry.1).isSome := by decide +kernel
  have commute := increments_commute noFloats present increments
    (reverse_perm incrementEntries).symm
  refine ⟨listed, commute.1, ?_⟩
  rw [commute.2 40 (by decide +kernel) (by simp [listed]), listed]
  decide +kernel

end Monitor.Raft
