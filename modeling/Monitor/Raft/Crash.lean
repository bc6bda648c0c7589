import Monitor.Raft.Snapshot

/-! # Payloads that crash a replica

`Apply` decodes a payload up to three times. The only unchecked step is the type assertion
of `applyGenericCommand`, and it is reached with a type that is no string when the payload
is a command with a number that `Apply` does not know. The map itself is never nil on a
replica that was started fresh or restored from a snapshot of another one.
-/

namespace Monitor.Raft

open GoText Json List Option

variable {members : List (GoString × Tree)}

section Types

variable {fl : Floats}

/-- The `type` field of a command after one more member of the object. -/
def typeAfter (type : Int) (member : GoString × Tree) : Int :=
  if isField member.1 "type" then
    match member.2 with
    | .number literal => (parseInt64 literal).getD type
    | _ => type
  else
    type

/-- The number under the last member named `type`, in any case; null does not count. -/
def commandType (members : List (GoString × Tree)) : Int := members.foldl typeAfter 0

theorem decodeMember_type {cmd cmd' : Command} {mem : GoString × Tree}
    (decoded : Command.decodeMember fl cmd mem = some cmd') : cmd'.type = typeAfter cmd.type mem ∧
      (isField mem.1 "type" = true → ∀ s, mem.2 ≠ .string s) := by
  obtain ⟨name, t⟩ := mem
  unfold Command.decodeMember at decoded
  unfold typeAfter
  by_cases named : isField name "type" = true
  · simp only [named, if_true, map_eq_some_iff] at decoded ⊢
    obtain ⟨type, read, same⟩ := decoded
    subst same
    cases t with
    | null =>
      cases read
      exact ⟨rfl, fun _ s => nofun⟩
    | number literal =>
      have value : parseInt64 literal = some type := read
      exact ⟨by simp [value], fun _ s => nofun⟩
    | bool b | string s | array items | object members => cases read
  · simp only [named, Bool.false_eq_true, if_false] at decoded ⊢
    simp only [false_implies, and_true]
    split at decoded
    · obtain ⟨key, _, same⟩ := map_eq_some_iff.mp decoded
      subst same
      rfl
    split at decoded
    · obtain ⟨value, _, same⟩ := map_eq_some_iff.mp decoded
      subst same
      rfl
    split at decoded
    · obtain ⟨ttl, _, same⟩ := map_eq_some_iff.mp decoded
      subst same
      rfl
    split at decoded
    · obtain ⟨metaData, _, same⟩ := map_eq_some_iff.mp decoded
      subst same
      rfl
    · cases decoded
      rfl

theorem decodeMembers_type :
    ∀ {start cmd : Command}, members.foldlM (Command.decodeMember fl) start = some cmd →
      cmd.type = members.foldl typeAfter start.type ∧
        ∀ mem ∈ members, isField mem.1 "type" = true → ∀ s, mem.2 ≠ .string s := by
  induction members with
  | nil =>
    intro start cmd decoded
    cases decoded
    exact ⟨rfl, fun _ mem => nomatch mem⟩
  | cons mem members ih =>
    intro start cmd decoded
    simp only [foldlM_cons, bind_eq_bind, bind_eq_some_iff] at decoded
    obtain ⟨next, first, later⟩ := decoded
    obtain ⟨type, notString⟩ := decodeMember_type first
    obtain ⟨types, notStrings⟩ := ih later
    exact ⟨by simp only [types, type, foldl_cons], fun m listed => by
      cases listed with
      | head => exact notString
      | tail _ listed => exact notStrings m listed⟩

theorem decodeMembers_string {k s : GoString} :
    ∀ {m m' : List (GoString × Value)}, Json.decodeMembers fl members m = some m' →
      getKey k m' = some (.string s) → getKey k m = some (.string s) ∨ (k, .string s) ∈ members := by
  induction members with
  | nil =>
    intro m m' decoded found
    cases decoded
    exact .inl found
  | cons mem members ih =>
    intro m m' decoded found
    obtain ⟨name, t⟩ := mem
    simp only [Json.decodeMembers, bind_eq_bind, bind_eq_some_iff] at decoded
    obtain ⟨v, read, later⟩ := decoded
    cases ih later found with
    | inr listed => exact .inr (mem_cons_of_mem _ listed)
    | inl before =>
      simp only [getKey_setKey] at before
      split at before
      · rename_i same
        subst same
        cases before
        cases t with
        | string s' =>
          cases read
          exact .inr mem_cons_self
        | null | bool b | number n | array items | object members =>
          simp [Json.decode, map_eq_some_iff] at read
      · exact .inl before

end Types

/-- A JSON object that decodes both as a command and as a map, with a numeric type that is none
    of the five commands. -/
def Unhandled (fl : Floats) (data : GoString) : Prop :=
  ∃ members, parse data = some (.object members) ∧
    (Command.decode fl (.object members)).isSome = true ∧
    (decodeMap fl (.object members)).isSome = true ∧
    ¬ (0 ≤ commandType members ∧ commandType members ≤ 4)

section Panics

variable {fl : Floats} {f : Fsm}

theorem decode_object {cmd : Command}
    (decoded : Command.decode fl (.object members) = some cmd) : cmd.type = commandType members ∧
      ∀ generic, decodeMap fl (.object members) = some generic →
        ∀ s, getKey (ascii "type") generic ≠ some (.string s) := by
  have read : members.foldlM (Command.decodeMember fl) Command.zero = some cmd := decoded
  obtain ⟨type, notStrings⟩ := decodeMembers_type read
  exact ⟨type, fun generic read s found => by
    cases decodeMembers_string (m := []) read found with
    | inl before => cases before
    | inr listed => exact notStrings _ listed rfl s rfl⟩

theorem applyCommand_panic (outcome : Nat → SaveOutcome) (cmd : Command) (rawData : GoString) :
    (f.applyCommand fl outcome cmd rawData).2 = .panic ↔
      ¬ (0 ≤ cmd.type ∧ cmd.type ≤ 4) ∧ Untyped fl rawData := by
  unfold Fsm.applyCommand Command.commandSet Command.commandDelete Command.commandUpdate
    Command.commandIncrement Command.commandExpire
  iterate 5
    split
    · exact iff_of_false nofun fun h => h.1 (by omega)
  · simp only [applyGenericCommand_panic_iff]
    exact ⟨fun untyped => ⟨by omega, untyped⟩, fun h => h.2⟩

theorem untyped_not_generic {data : GoString} (untyped : Untyped fl data) :
    Fsm.isGeneric fl data = false := by
  obtain ⟨generic, decoded, noString⟩ := untyped
  simp [Fsm.isGeneric, decoded, stringField]

theorem apply_panic (f : Fsm) (outcome : Nat → SaveOutcome) (entry : LogEntry) :
    (f.apply fl outcome entry).2 = .panic ↔ Unhandled fl entry.data := by
  unfold Fsm.apply
  constructor
  · intro panics
    cases named : Fsm.isGeneric fl entry.data with
    | true =>
      simp only [named, if_true, applyGenericCommand_panic_iff] at panics
      exact absurd (untyped_not_generic panics) (by simp [named])
    | false =>
      simp only [named, Bool.false_eq_true, if_false] at panics
      cases decoded : (parse entry.data).bind (Command.decode fl) with
      | none => simp [decoded] at panics
      | some cmd =>
        simp only [decoded, applyCommand_panic] at panics
        obtain ⟨unknown, generic, map, _⟩ := panics
        obtain ⟨t, parsed, command⟩ := bind_eq_some_iff.mp decoded
        simp only [parsed, bind_some] at map
        cases t with
        | object members =>
          rw [(decode_object command).1] at unknown
          exact ⟨members, parsed, by simp [command], by simp [map], unknown⟩
        | null =>
          cases command
          exact absurd ⟨le_rfl, by decide⟩ unknown
        | bool b | number n | string s | array items => cases command
  · intro unhandled
    obtain ⟨members, parsed, command, map, unknown⟩ := unhandled
    obtain ⟨cmd, command⟩ := isSome_iff_exists.mp command
    obtain ⟨generic, map⟩ := isSome_iff_exists.mp map
    obtain ⟨type, noString⟩ := decode_object command
    have untyped : Untyped fl entry.data :=
      ⟨generic, by simp only [parsed, bind_some, map], noString generic map⟩
    simp only [untyped_not_generic untyped, Bool.false_eq_true, if_false, parsed, bind_some,
      command, applyCommand_panic, type]
    exact ⟨unknown, untyped⟩

end Panics

/-- The states of a replica; there is no state machine when its map is nil. A replica applies
    entries, with any answers of its storage, and is restored from what a replica persisted. -/
inductive Reachable (fl : Floats) : Option Fsm → Prop where
  | start (storage : Bool) : Reachable fl (some (newFSM storage))
  | apply {f : Fsm} (outcome : Nat → SaveOutcome) (entry : LogEntry) :
      Reachable fl (some f) → (f.apply fl outcome entry).2 ≠ .panic →
      Reachable fl (some (f.apply fl outcome entry).1)
  | restore {f source : Fsm} {order : List GoString} {nils : GoString → Bool} {text : GoString}
      {err : Option GoString} :
      Reachable fl (some f) → Reachable fl (some source) → source.Ranges order →
      (source.snapshot order).persist nils none err = (.closed text, err) →
      Reachable fl
        (match f.restore text with
          | .error => some f
          | .nilMap => none
          | .ok f' => some f')

theorem Reachable.keyed {fl : Floats} {state : Option Fsm} (reachable : Reachable fl state) :
    ∃ f, state = some f ∧ Keyed f.data := by
  induction reachable with
  | start storage => exact ⟨_, rfl, keyed_empty⟩
  | apply outcome entry _ _ ih =>
    obtain ⟨f, same, keyed⟩ := ih
    cases same
    exact ⟨_, rfl, Fsm.apply_keyed outcome keyed entry⟩
  | @restore f source order nils text err _ _ ranges persisted ih ihSource =>
    obtain ⟨g, same, keyed⟩ := ihSource
    cases same
    have written : text = encodeBytesMap nils (source.snapshot order).data := by
      simp only [FSMSnapshot.persist, Prod.mk.injEq, Sink.closed.injEq, and_true] at persisted
      exact persisted.symm
    subst written
    simp only [restore_persisted keyed ranges]
    exact ⟨_, rfl, keyed⟩

/-- On a reachable replica `Apply` returns a value exactly for the payloads that are handled,
    whatever the storage answers. -/
theorem apply_returns_iff {fl : Floats} {state : Option Fsm} (reachable : Reachable fl state) :
    ∃ f, state = some f ∧ ∀ (outcome : Nat → SaveOutcome) (entry : LogEntry),
      ((f.apply fl outcome entry).2 ≠ .panic ↔ ¬ Unhandled fl entry.data) := by
  obtain ⟨f, same, _⟩ := reachable.keyed
  exact ⟨f, same, fun outcome entry => not_congr (apply_panic f outcome entry)⟩

def setEntry : LogEntry := ⟨1, 1, ascii "\x7b\"type\":0,\"key\":\"k\"\x7d"⟩

theorem apply_returns_iff_twice :
    (((newFSM false).apply integerFloats (fun _ => .ok) setEntry).1.apply integerFloats
      (fun _ => .error (ascii "down")) setEntry).2 ≠ .panic := by
  have returns : ((newFSM false).apply integerFloats (fun _ => .ok) setEntry).2 ≠ .panic := by decide +kernel
  have known : (parse setEntry.data).all (fun
      | .object members => decide (0 ≤ commandType members ∧ commandType members ≤ 4)
      | _ => true) = true := by decide +kernel
  obtain ⟨f, same, returns_iff⟩ := apply_returns_iff (.apply (fun _ => .ok) setEntry (.start false) returns)
  rw [Option.some.inj same]
  refine (returns_iff _ setEntry).mpr ?_
  rintro ⟨members, object, _, _, unknown⟩
  rw [object] at known
  exact unknown (of_decide_eq_true known)

/-- A command with the unknown type 7 crashes a fresh replica. -/
theorem unknown_command_panics :
    Reachable integerFloats (some (newFSM false)) ∧
      ((newFSM false).apply integerFloats (fun _ => .ok)
        ⟨1, 1, ascii "\x7b\"type\":7\x7d"⟩).2 = .panic := by
  exact ⟨.start false, by decide +kernel⟩

end Monitor.Raft
