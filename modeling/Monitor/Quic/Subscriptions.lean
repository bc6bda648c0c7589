import Monitor.Lib.Json
import Monitor.Lib.Runs
import Monitor.Quic.Protocol

/-! # The subscription table of the server

`handleSubscribeMessage` and `handleUnsubscribeMessage` of `server.go`. The table is changed
before the data handler is called and stays changed when the handler fails, and its key is
the text of host and stream with a colon between them, which other pairs can have too. The
answer of the data handler, the clock and the outcome of the write come with each message.
-/

namespace Monitor.Quic

open GoText Json Runs Function Option

section Decoding

/-- `T` is `time.Time`, and `unmarshal` its `UnmarshalJSON`. -/
structure TimeFormat (T : Type) where
  zero : T
  unmarshal : T → Tree → Option T

structure Subscription (T : Type) where
  hostID : GoString
  streamID : GoString
  createdAt : T
  lastSeen : T
  deriving DecidableEq

variable {T : Type} (tf : TimeFormat T)

def Subscription.decodeMember (sub : Subscription T) (member : GoString × Tree) :
    Option (Subscription T) :=
  if isField member.1 "host_id" then
    (decodeString sub.hostID member.2).map fun hostID => { sub with hostID }
  else if isField member.1 "stream_id" then
    (decodeString sub.streamID member.2).map fun streamID => { sub with streamID }
  else if isField member.1 "created_at" then
    (tf.unmarshal sub.createdAt member.2).map fun createdAt => { sub with createdAt }
  else if isField member.1 "last_seen" then
    (tf.unmarshal sub.lastSeen member.2).map fun lastSeen => { sub with lastSeen }
  else
    some sub

def decodeSubscription (data : GoString) : Option (Subscription T) :=
  (parse data).bind (decodeStruct ⟨[], [], tf.zero, tf.zero⟩ (Subscription.decodeMember tf))

end Decoding

def MessageTypeAck : UInt8 := 8

def createAckMessage (id : GoString) (now : Int64) : Message := ⟨MessageTypeAck, id, now, some (ascii "ok")⟩

/-- The two requests; their message types are 3 and 4. -/
inductive Request where
  | subscribe
  | unsubscribe
  deriving DecidableEq

inductive HandleError where
  | decode
  | handler (request : Request) (cause : GoString)
  | write (cause : WriteError)

/-- What the handling of a message meets. -/
structure Circumstances where
  handlerErr : Option GoString
  now : Int64
  write : WriteOutcome

structure Server (T : Type) where
  protocol : ProtocolHandler
  subscriptions : GoString → Option (Subscription T)

def subKey (hostID streamID : GoString) : GoString := hostID ++ ascii ":" ++ streamID

def Subscription.key {T : Type} (sub : Subscription T) : GoString := subKey sub.hostID sub.streamID

def Subscription.isOf {T : Type} (sub : Subscription T) (hostID streamID : GoString) : Bool :=
  sub.hostID = hostID ∧ sub.streamID = streamID

def Request.entry {T : Type} : Request → Subscription T → Option (Subscription T)
  | .subscribe, sub => some sub
  | .unsubscribe, _ => none

namespace Server

variable {T : Type} (tf : TimeFormat T)

def change (s : Server T) (request : Request) (sub : Subscription T) : Server T :=
  { s with subscriptions := update s.subscriptions sub.key (request.entry sub) }

def acknowledge (s : Server T) (stream : GoString) (msg : Message) (c : Circumstances) :
    Server T × GoString × Option HandleError :=
  let (stream, err) := s.protocol.writeMessage c.write stream (createAckMessage msg.id c.now)
  (s, stream, err.map .write)

/-- The two handlers differ in the change of the table and in the text of an error. -/
def handleRequest (request : Request) (s : Server T) (stream : GoString) (msg : Message)
    (c : Circumstances) : Server T × GoString × Option HandleError :=
  match decodeSubscription tf msg.bytes with
  | none => (s, stream, some .decode)
  | some sub =>
    let s := s.change request sub
    match c.handlerErr with
    | some cause => (s, stream, some (.handler request cause))
    | none => s.acknowledge stream msg c

def handleSubscribeMessage (s : Server T) (stream : GoString) (msg : Message) (c : Circumstances) :
    Server T × GoString × Option HandleError :=
  s.handleRequest tf .subscribe stream msg c

def handleUnsubscribeMessage (s : Server T) (stream : GoString) (msg : Message) (c : Circumstances) :
    Server T × GoString × Option HandleError :=
  s.handleRequest tf .unsubscribe stream msg c

/-- The entry of a pair: the subscription under its key, when it is one of this pair. -/
def entry (s : Server T) (hostID streamID : GoString) : Option (Subscription T) :=
  (s.subscriptions (subKey hostID streamID)).filter (·.isOf hostID streamID)

end Server

/-- A message on a stream, with what its handling meets. -/
structure Arrival where
  request : Request
  stream : GoString
  msg : Message
  circumstances : Circumstances

structure Session (T : Type) where
  server : Server T
  history : List Arrival

section Runs

variable {T : Type} (tf : TimeFormat T)

def Server.handle (s : Server T) (a : Arrival) : Server T :=
  match a.request with
  | .subscribe => (s.handleSubscribeMessage tf a.stream a.msg a.circumstances).1
  | .unsubscribe => (s.handleUnsubscribeMessage tf a.stream a.msg a.circumstances).1

def Session.start (protocol : ProtocolHandler) : Session T := ⟨⟨protocol, fun _ => none⟩, []⟩

def Session.step (s : Session T) (a : Arrival) : Option (Session T) :=
  some ⟨s.server.handle tf a, s.history ++ [a]⟩

/-- The request of a message whose handler succeeded. -/
def Arrival.succeeded (a : Arrival) : Option (Request × Subscription T) :=
  match a.circumstances.handlerErr with
  | some _ => none
  | none => (decodeSubscription tf a.msg.bytes).map fun sub => (a.request, sub)

/-- The last request for a pair whose handler succeeded. -/
def latest (history : List Arrival) (hostID streamID : GoString) : Option (Request × Subscription T) :=
  ((history.filterMap (Arrival.succeeded tf)).filter fun r => r.2.isOf hostID streamID).getLast?

def wanted (history : List Arrival) (hostID streamID : GoString) : Option (Subscription T) :=
  (latest tf history hostID streamID).bind fun r => r.1.entry r.2

/-- Every pair has the entry that the last of its requests with a successful handler asked for. -/
def Session.Faithful (s : Session T) : Prop :=
  ∀ hostID streamID, s.server.entry hostID streamID = wanted tf s.history hostID streamID

/-- A request whose handler succeeds finds no entry of another pair under its key; one whose
    handler fails finds there what it would leave. -/
def Session.Harmless (s : Session T) (a : Arrival) : Prop :=
  ∀ sub, decodeSubscription tf a.msg.bytes = some sub →
    match a.circumstances.handlerErr with
    | none => ∀ other, s.server.subscriptions sub.key = some other → other.isOf sub.hostID sub.streamID
    | some _ => s.server.subscriptions sub.key = a.request.entry sub

end Runs

variable {T : Type} {tf : TimeFormat T}

variable {s : Server T} {a : Arrival} {sub : Subscription T}

theorem Server.handle_none (invalid : decodeSubscription tf a.msg.bytes = none) : s.handle tf a = s := by
  unfold handle handleSubscribeMessage handleUnsubscribeMessage handleRequest
  rw [invalid]
  cases a.request <;> rfl

theorem Server.handle_some
    (valid : decodeSubscription tf a.msg.bytes = some sub) : s.handle tf a = s.change a.request sub := by
  unfold handle handleSubscribeMessage handleUnsubscribeMessage handleRequest acknowledge
  rw [valid]
  cases a.request <;> cases a.circumstances.handlerErr <;> rfl

theorem Subscription.isOf_iff {hostID streamID : GoString} :
    sub.isOf hostID streamID ↔ sub.hostID = hostID ∧ sub.streamID = streamID := decide_eq_true_iff

theorem Subscription.isOf_self (sub : Subscription T) : sub.isOf sub.hostID sub.streamID :=
  isOf_iff.mpr ⟨rfl, rfl⟩

section Wanted

variable (history : List Arrival) {a : Arrival} {request : Request} {sub : Subscription T}
  {hostID streamID : GoString}

theorem latest_concat (a : Arrival) (hostID streamID : GoString) :
    latest tf (history ++ [a]) hostID streamID =
      ((a.succeeded tf).filter fun r => r.2.isOf hostID streamID).or
        (latest tf history hostID streamID) := by
  unfold latest
  cases done : a.succeeded tf with
  | none => simp [done]
  | some r =>
    cases same : r.2.isOf hostID streamID <;> simp [done, same, filter_some]

theorem wanted_idle (idle : a.succeeded tf = none) (hostID streamID : GoString) :
    wanted tf (history ++ [a]) hostID streamID = wanted tf history hostID streamID := by
  rw [wanted, latest_concat, idle]
  rfl

theorem wanted_own (done : a.succeeded tf = some (request, sub)) :
    wanted tf (history ++ [a]) sub.hostID sub.streamID = request.entry sub := by
  rw [wanted, latest_concat, done]
  simp [filter_some, sub.isOf_self]

theorem wanted_other (done : a.succeeded tf = some (request, sub))
    (other : sub.isOf hostID streamID = false) :
    wanted tf (history ++ [a]) hostID streamID = wanted tf history hostID streamID := by
  rw [wanted, latest_concat, done]
  simp [filter_some, other, wanted]

end Wanted

@[simp] theorem Server.change_own (s : Server T) (request : Request) (sub : Subscription T) :
    (s.change request sub).subscriptions sub.key = request.entry sub := update_self ..

theorem Server.change_apart (s : Server T) (request : Request) {k : GoString}
    (other : k ≠ sub.key) : (s.change request sub).subscriptions k = s.subscriptions k :=
  update_of_ne other ..

def Server.Keyed (s : Server T) : Prop := ∀ k sub, s.subscriptions k = some sub → sub.key = k

theorem Server.Keyed.change (keyed : s.Keyed) (request : Request) (sub : Subscription T) :
    (s.change request sub).Keyed := by
  intro k other found
  by_cases same : k = sub.key
  · subst same
    rw [Server.change_own] at found
    cases request with
    | subscribe =>
      cases found
      rfl
    | unsubscribe => cases found
  · rw [Server.change_apart s request same] at found
    exact keyed k other found

theorem Server.Keyed.handle (keyed : s.Keyed) (a : Arrival) : (s.handle tf a).Keyed := by
  cases decoded : decodeSubscription tf a.msg.bytes with
  | none => rwa [handle_none decoded]
  | some sub =>
    rw [handle_some decoded]
    exact keyed.change a.request sub

theorem Server.Keyed.entry_of (keyed : s.Keyed) {k : GoString}
    (found : s.subscriptions k = some sub) : s.entry sub.hostID sub.streamID = some sub := by
  have same := keyed k sub found
  rw [entry, show subKey sub.hostID sub.streamID = k from same, found]
  exact filter_some_pos sub.isOf_self

theorem Server.entry_change_self (s : Server T) (request : Request) (sub : Subscription T) :
    (s.change request sub).entry sub.hostID sub.streamID = request.entry sub := by
  rw [entry, show subKey sub.hostID sub.streamID = sub.key from rfl, change_own]
  cases request with
  | subscribe => exact filter_some_pos sub.isOf_self
  | unsubscribe => rfl

theorem Server.entry_change_other (s : Server T) (request : Request)
    {hostID streamID : GoString} (other : sub.isOf hostID streamID = false) :
    (s.change request sub).entry hostID streamID =
      if subKey hostID streamID = sub.key then none else s.entry hostID streamID := by
  rw [entry]
  split
  · rename_i same
    rw [same, change_own]
    cases request with
    | subscribe => exact filter_some_neg other
    | unsubscribe => rfl
  · rename_i different
    rw [change_apart s request different]
    rfl

theorem Server.change_same {request : Request}
    (same : s.subscriptions sub.key = request.entry sub) : s.change request sub = s := by
  rw [change, ← same, update_eq_self]

theorem Server.Keyed.same_of_entries (keyed : s.Keyed) {request : Request}
    (entries : ∀ hostID streamID, (s.change request sub).entry hostID streamID = s.entry hostID streamID) :
    s.subscriptions sub.key = request.entry sub := by
  cases request with
  | subscribe =>
    have own := entries sub.hostID sub.streamID
    rw [entry_change_self] at own
    exact (filter_eq_some_iff.mp own.symm).1
  | unsubscribe =>
    cases found : s.subscriptions sub.key with
    | none => rfl
    | some other =>
      have lost := entries other.hostID other.streamID
      have key : subKey other.hostID other.streamID = sub.key := keyed _ _ found
      rw [keyed.entry_of found, entry, key, change_own] at lost
      cases lost

theorem Server.Keyed.apart_iff (keyed : s.Keyed) (request : Request) (sub : Subscription T) :
    (∀ hostID streamID, sub.isOf hostID streamID = false →
      (s.change request sub).entry hostID streamID = s.entry hostID streamID) ↔
    ∀ other, s.subscriptions sub.key = some other → other.isOf sub.hostID sub.streamID := by
  constructor
  · intro kept other found
    by_contra different
    have apart : sub.isOf other.hostID other.streamID = false := by
      rw [Bool.eq_false_iff]
      intro same
      obtain ⟨host, stream⟩ := Subscription.isOf_iff.mp same
      exact different (Subscription.isOf_iff.mpr ⟨host.symm, stream.symm⟩)
    have key : subKey other.hostID other.streamID = sub.key := keyed _ _ found
    have lost := kept other.hostID other.streamID apart
    rw [entry_change_other s request apart, if_pos key, keyed.entry_of found] at lost
    cases lost
  · intro own hostID streamID other
    rw [entry_change_other _ _ other]
    split
    · rename_i same
      rw [entry, same]
      cases found : s.subscriptions sub.key with
      | none => rfl
      | some sub' =>
        obtain ⟨host, stream⟩ := Subscription.isOf_iff.mp (own sub' found)
        have none_ : sub'.isOf hostID streamID = false := by
          rw [Subscription.isOf, host, stream]
          exact other
        rw [filter_some, if_neg (Bool.eq_false_iff.mp none_)]
    · rfl

theorem Session.step_faithful_iff {s s' : Session T} (keyed : s.server.Keyed)
    (faithful : s.Faithful tf) (taken : s.step tf a = some s') : s'.Faithful tf ↔ s.Harmless tf a := by
  cases taken
  unfold Faithful Harmless
  cases decoded : decodeSubscription tf a.msg.bytes with
  | none =>
    have idle : a.succeeded tf = none := by
      unfold Arrival.succeeded
      rw [decoded]
      cases a.circumstances.handlerErr <;> rfl
    simp only [Server.handle_none decoded, wanted_idle s.history idle]
    exact iff_of_true faithful fun sub none_ => by cases none_
  | some sub =>
    rw [Server.handle_some decoded]
    cases failed : a.circumstances.handlerErr with
    | some cause =>
      have idle : a.succeeded tf = none := by
        unfold Arrival.succeeded
        rw [failed]
      simp only [wanted_idle s.history idle]
      constructor
      · intro entries sub' same
        cases same
        refine keyed.same_of_entries fun hostID streamID => ?_
        exact (entries hostID streamID).trans (faithful hostID streamID).symm
      · intro harmless
        rw [Server.change_same (harmless sub rfl)]
        exact faithful
    | none =>
      have done : a.succeeded tf = some (a.request, sub) := by
        unfold Arrival.succeeded
        rw [failed, decoded]
        rfl
      constructor
      · intro entries sub' same
        cases same
        refine (keyed.apart_iff a.request sub).mp fun hostID streamID other => ?_
        rw [entries hostID streamID, faithful hostID streamID, wanted_other s.history done other]
      · intro harmless hostID streamID
        cases own : sub.isOf hostID streamID with
        | true =>
          obtain ⟨rfl, rfl⟩ := Subscription.isOf_iff.mp own
          rw [Server.entry_change_self, wanted_own s.history done]
        | false =>
          rw [(keyed.apart_iff a.request sub).mpr (harmless sub rfl) hostID streamID own,
            faithful hostID streamID, wanted_other s.history done own]

/-- The table says behind every message which pairs are subscribed exactly when every message is
    harmless to the entries of the others and, if its handler fails, to its own. -/
theorem run_faithful_iff (tf : TimeFormat T) (protocol : ProtocolHandler) (arrivals : List Arrival) :
    Throughout (Session.step tf) (Session.Faithful tf) (.start protocol) arrivals ↔
      EachStep (Session.step tf) (Session.Harmless tf) (.start protocol) arrivals := by
  refine throughout_iff (fun s => s.server.Keyed) ?_ ?_ arrivals ?_ ?_
  · intro s a s' keyed _ taken _
    cases taken
    exact keyed.handle a
  · intro s a s' keyed faithful taken
    exact Session.step_faithful_iff keyed faithful taken
  · intro k sub found
    cases found
  · intro hostID streamID
    rfl

section Example

def noTimes : TimeFormat Unit := ⟨(), fun _ _ => none⟩

def arrival (request : Request) (data : String) (handlerErr : Option GoString) : Arrival :=
  ⟨request, [], ⟨3, ascii "id", 0, some (ascii data)⟩, ⟨handlerErr, 0, .ok⟩⟩

def refused : List Arrival :=
  [arrival .subscribe "\x7b\"host_id\":\"a\",\"stream_id\":\"b\"\x7d" (some (ascii "down"))]

/-- Two pairs with the same key, of which the first is subscribed and the second is not. -/
def shared : List Arrival :=
  [arrival .subscribe "\x7b\"host_id\":\"a:b\",\"stream_id\":\"c\"\x7d" none,
    arrival .unsubscribe "\x7b\"host_id\":\"a\",\"stream_id\":\"b:c\"\x7d" none]

theorem unfaithful {s : Session T} (hostID streamID : GoString)
    (differ : (s.server.entry hostID streamID).isSome ≠ (wanted tf s.history hostID streamID).isSome) :
    ¬ s.Faithful tf :=
  fun faithful => differ (congrArg isSome (faithful hostID streamID))

/-- The refused subscription is in the table, and the second of the two pairs takes the entry of the
    first away. -/
theorem entries_wrong :
    (∃ s, refused.foldlM (Session.step noTimes) (.start ⟨64⟩) = some s ∧
      (s.server.entry (ascii "a") (ascii "b")).isSome = true ∧
      (wanted noTimes s.history (ascii "a") (ascii "b")).isSome = false) ∧
    (∃ s, shared.foldlM (Session.step noTimes) (.start ⟨64⟩) = some s ∧
      (s.server.entry (ascii "a:b") (ascii "c")).isSome = false ∧
      (wanted noTimes s.history (ascii "a:b") (ascii "c")).isSome = true) ∧
    ¬ Throughout (Session.step noTimes) (Session.Faithful noTimes) (.start ⟨64⟩) refused ∧
    ¬ Throughout (Session.step noTimes) (Session.Faithful noTimes) (.start ⟨64⟩) shared := by
  refine ⟨⟨_, rfl, ?_, ?_⟩, ⟨_, rfl, ?_, ?_⟩, not_throughout rfl (unfaithful (ascii "a") (ascii "b") ?_),
    not_throughout rfl (unfaithful (ascii "a:b") (ascii "c") ?_)⟩
  all_goals decide +kernel

end Example

end Monitor.Quic
