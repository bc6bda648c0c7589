import Monitor.Lib.Runs
import Monitor.Websocket.Server

/-! # The send channels of the WebSocket clients

Only the hub closes the send channel of a client or sends to it, and only for a client in its
map; closing takes the client out of the map. The registrations and unregistrations that the
hub has processed are recorded beside the server, and every call of `close` on a send channel.
Most steps are `Quiet`: they touch neither the map nor whether a channel is closed.
-/

namespace Monitor.Websocket

open Runs List Option Server

section

variable {Msg : Type}

/-- The request that the hub has received and not processed. -/
def HubPc.op : HubPc Msg → Option Op
  | .received op | .locking op => some op
  | _ => none

/-- The clients that a loop of the hub still visits. -/
def HubPc.rest : HubPc Msg → List Nat
  | .looping _ rest | .calling _ rest _ _ => rest
  | _ => []

def HubPc.isCrashed : HubPc Msg → Bool
  | .crashed => true
  | _ => false

/-- The clients that a call of `Stop` still closes. -/
def StopPc.rest : StopPc → List Nat
  | .looping rest => rest
  | .closing rest c _ => c :: rest
  | .rlock | .finished => []

end

/-- What the hub has processed, and the send channels it has closed. -/
structure Processed where
  registrations : List Nat
  unregistrations : List Nat
  closes : List Nat

def Processed.note {Msg : Type} (r : Processed) (s : Server Msg) : Server.Event Msg → Processed
  | .hub .update =>
    match s.hub with
    | .locking (.register c) => { r with registrations := r.registrations ++ [c] }
    | .locking (.unregister c) =>
      { r with
        unregistrations := r.unregistrations ++ [c]
        closes := if s.clients.contains c then r.closes ++ [c] else r.closes }
    | _ => r
  | _ => r

structure Observed (Msg : Type) where
  server : Server Msg
  record : Processed

namespace Observed

variable {Msg : Type}

def start : Observed Msg := ⟨.start, ⟨[], [], []⟩⟩

def step (cfg : Config) (s : Observed Msg) (e : Server.Event Msg) : Option (Observed Msg) :=
  (s.server.step cfg e).map fun server => ⟨server, s.record.note s.server e⟩

/-- No channel is closed twice; a send on a closed channel, which would end the program as a second
    close would, has not happened; and the map has the registered clients. -/
structure Safe (s : Observed Msg) : Prop where
  once : ∀ c, s.record.closes.count c ≤ 1
  runs : s.server.hub.isCrashed = false
  exactly : ∀ c, c ∈ s.server.clients ↔ c ∈ s.record.registrations ∧ c ∉ s.record.unregistrations

end Observed

namespace Server

variable {Msg : Type}

def sendClosed (s : Server Msg) (c : Nat) : Bool := (s.client c).send.closed

/-- The hub has received the registration of the client. -/
def Started (s : Server Msg) (c : Nat) : Prop := (s.client c).reader ≠ .notStarted

def Stopping (s : Server Msg) (c : Nat) : Prop :=
  ∃ (k : Nat) (pc : StopPc), s.stops[k]? = some pc ∧ c ∈ pc.rest

structure Quiet (s s' : Server Msg) : Prop where
  clients : s'.clients = s.clients
  closed : ∀ c, s'.sendClosed c = s.sendClosed c
  started : ∀ c, s'.Started c ↔ s.Started c
  op : s'.hub.op = s.hub.op
  runs : s'.hub.isCrashed = s.hub.isCrashed
  visiting : ∀ c ∈ s'.hub.rest, c ∈ s.hub.rest ∨ c ∈ s.clients
  stopping : ∀ c, s'.Stopping c → s.Stopping c ∨ c ∈ s.clients

/-- The invariant. A client starts when its registration is received; what is received next is
    processed next; and only registered clients are visited or unregistered. -/
structure Kept (s : Server Msg) (r : Processed) : Prop where
  runs : s.hub.isCrashed = false
  nodup : s.clients.Nodup
  exactly : ∀ c, c ∈ s.clients ↔ c ∈ r.registrations ∧ c ∉ r.unregistrations
  closed : ∀ c, s.sendClosed c = true → c ∈ r.unregistrations
  closes : ∀ c, r.closes.count c = if s.sendClosed c then 1 else 0
  started : ∀ c, s.Started c ↔ c ∈ r.registrations ∨ s.hub.op = some (.register c)
  fresh : ∀ c, s.hub.op = some (.register c) → c ∉ r.registrations
  leaving : ∀ c, s.hub.op = some (.unregister c) → c ∈ r.registrations
  left : ∀ c ∈ r.unregistrations, c ∈ r.registrations
  visiting : ∀ c ∈ s.hub.rest, c ∈ s.clients
  stopping : ∀ c, s.Stopping c → c ∈ r.registrations

section Quiet

variable {s s' s'' : Server Msg}

theorem Quiet.trans (first : Quiet s s') (second : Quiet s' s'') : Quiet s s'' where
  clients := second.clients.trans first.clients
  closed := fun c => (second.closed c).trans (first.closed c)
  started := fun c => (second.started c).trans (first.started c)
  op := second.op.trans first.op
  runs := second.runs.trans first.runs
  visiting := fun c mem => by
    cases second.visiting c mem with
    | inl visiting => exact first.visiting c visiting
    | inr listed => exact .inr (first.clients ▸ listed)
  stopping := fun c stopping => by
    cases second.stopping c stopping with
    | inl stopping => exact first.stopping c stopping
    | inr listed => exact .inr (first.clients ▸ listed)

theorem quiet_same (hub : s'.hub = s.hub) (stops : s'.stops = s.stops) (clients : s'.clients = s.clients)
    (client : s'.client = s.client) : Quiet s s' where
  clients := clients
  closed := fun c => by rw [sendClosed, client, sendClosed]
  started := fun c => by rw [Started, client, Started]
  op := by rw [hub]
  runs := by rw [hub]
  visiting := fun c mem => .inl (hub ▸ mem)
  stopping := by
    rintro c ⟨k, pc, found, mem⟩
    exact .inl ⟨k, pc, stops ▸ found, mem⟩

theorem sendClosed_setClient {c : Nat} {cl : Client Msg}
    (closed : cl.send.closed = (s.client c).send.closed) (d : Nat) :
    (s.setClient c cl).sendClosed d = s.sendClosed d := by
  unfold sendClosed setClient
  by_cases same : d = c
  · subst same
    simpa using closed
  · simp [same]

theorem quiet_client (s : Server Msg) (c : Nat) {cl : Client Msg}
    (closed : cl.send.closed = (s.client c).send.closed)
    (started : cl.reader = .notStarted ↔ (s.client c).reader = .notStarted) :
    Quiet s (s.setClient c cl) where
  clients := rfl
  closed := sendClosed_setClient closed
  started := fun d => by
    unfold Started setClient
    by_cases same : d = c
    · subst same
      simpa using not_congr started
    · simp [same]
  op := rfl
  runs := rfl
  visiting := fun _ => .inl
  stopping := fun _ => .inl

theorem quiet_hub (s : Server Msg) {h : HubPc Msg} (op : h.op = s.hub.op)
    (runs : h.isCrashed = s.hub.isCrashed) (visiting : ∀ c ∈ h.rest, c ∈ s.hub.rest ∨ c ∈ s.clients) :
    Quiet s { s with hub := h } where
  clients := rfl
  closed := fun _ => rfl
  started := fun _ => Iff.rfl
  op := op
  runs := runs
  visiting := visiting
  stopping := fun _ => .inl

theorem quiet_stop (s : Server Msg) {k : Nat} {next : StopPc}
    (stopping : ∀ c ∈ next.rest, s.Stopping c ∨ c ∈ s.clients) :
    Quiet s { s with stops := s.stops.set k next } where
  clients := rfl
  closed := fun _ => rfl
  started := fun _ => Iff.rfl
  op := rfl
  runs := rfl
  visiting := fun _ => .inl
  stopping := by
    rintro c ⟨j, pc, found, mem⟩
    simp only [getElem?_set] at found
    split at found
    · split at found
      · cases found
        exact stopping c mem
      · cases found
    · exact .inl ⟨j, pc, found, mem⟩

theorem Quiet.kept (quiet : Quiet s s') {r : Processed} (kept : s.Kept r) : s'.Kept r where
  runs := quiet.runs.trans kept.runs
  nodup := quiet.clients ▸ kept.nodup
  exactly := fun c => quiet.clients ▸ kept.exactly c
  closed := fun c closed => kept.closed c (quiet.closed c ▸ closed)
  closes := fun c => by rw [quiet.closed c, kept.closes c]
  started := fun c => by rw [quiet.started c, quiet.op, kept.started c]
  fresh := fun c op => kept.fresh c (quiet.op ▸ op)
  leaving := fun c op => kept.leaving c (quiet.op ▸ op)
  left := kept.left
  visiting := fun c mem => by
    rw [quiet.clients]
    cases quiet.visiting c mem with
    | inl visiting => exact kept.visiting c visiting
    | inr listed => exact listed
  stopping := fun c stopping => by
    cases quiet.stopping c stopping with
    | inl stopping => exact kept.stopping c stopping
    | inr listed => exact ((kept.exactly c).mp listed).1

end Quiet

section Steps

variable {cfg : Config} {s s' : Server Msg} {c : Nat}

theorem readerStep_quiet {e : ReaderEvent} (taken : s.readerStep c e = some s') : Quiet s s' := by
  unfold readerStep at taken
  simp only at taken
  split at taken
  · rename_i reading
    cases taken
    exact quiet_client s c rfl (by simp [reading])
  · rename_i now pong
    split at taken
    · cases taken
    · cases taken
      exact quiet_client s c rfl (by simp [pong])
  · rename_i reading
    cases taken
    exact quiet_client s c rfl (by simp [reading])
  · rename_i closing
    cases taken
    exact quiet_client s c rfl (by simp [closing])
  · cases taken

variable {cl : Client Msg} {t : Thread} {r : Client Msg × Option PingPc}

theorem lockPing_keeps (taken : cl.lockPing t = some r) :
    r.1.send = cl.send ∧ r.1.reader = cl.reader := by
  obtain ⟨_, rfl | rfl⟩ := Client.lockPing_cases taken <;> exact ⟨rfl, rfl⟩

theorem writePing_keeps {ok : Bool} (taken : cl.writePing ok = some r) :
    r.1.send = cl.send ∧ r.1.reader = cl.reader := by
  obtain ⟨_, rfl⟩ | ⟨_, rfl⟩ := Client.writePing_cases taken <;> exact ⟨rfl, rfl⟩

theorem lockClose_keeps {r : Client Msg × Option ClosePc} (taken : cl.lockClose t = some r) :
    r.1.send = cl.send ∧ r.1.reader = cl.reader := by
  obtain ⟨_, ⟨_, rfl⟩ | ⟨_, rfl⟩⟩ := Client.lockClose_cases taken <;> exact ⟨rfl, rfl⟩

theorem quiet_keeps
    (keeps : cl.send = (s.client c).send ∧ cl.reader = (s.client c).reader) : Quiet s (s.setClient c cl) :=
  quiet_client s c (by rw [keeps.1]) (by rw [keeps.2])

theorem writerStep_quiet {e : WriterEvent} (taken : s.writerStep c e = some s') : Quiet s s' := by
  unfold writerStep at taken
  simp only at taken
  split at taken
  case h_1 =>
    split at taken
    · split at taken
      · cases taken
        exact quiet_client s c rfl Iff.rfl
      · cases taken
    · cases taken
      exact quiet_client s c rfl Iff.rfl
  case h_2 ok _ =>
    cases taken
    cases ok <;> exact quiet_client s c rfl Iff.rfl
  case h_3 =>
    split at taken
    · cases taken
      exact quiet_client s c rfl Iff.rfl
    · cases taken
  case h_4 ok _ =>
    cases taken
    cases ok <;> exact quiet_client s c rfl Iff.rfl
  case h_5 =>
    cases taken
    exact quiet_client s c rfl Iff.rfl
  case h_6 =>
    obtain ⟨r, locked, rfl⟩ := map_eq_some_iff.mp taken
    exact quiet_keeps (lockPing_keeps locked)
  case h_7 =>
    obtain ⟨r, written, rfl⟩ := map_eq_some_iff.mp taken
    exact quiet_keeps (writePing_keeps written)
  case h_8 =>
    cases taken
    exact quiet_client s c rfl Iff.rfl
  case h_9 => cases taken

variable {rest : List Nat}

theorem stopping_of_rest {k : Nat} {pc : StopPc} (found : s.stops[k]? = some pc)
    (fewer : ∀ d ∈ rest, d ∈ pc.rest) : ∀ d ∈ rest, s.Stopping d ∨ d ∈ s.clients :=
  fun d mem => .inl ⟨k, pc, found, fewer d mem⟩

theorem stopStep_quiet {k : Nat} {e : StopEvent} (taken : s.stopStep k e = some s') : Quiet s s' := by
  unfold stopStep at taken
  cases e with
  | rlock order =>
    simp only at taken
    split at taken
    · split at taken
      · cases taken
      · split at taken
        · rename_i perm
          cases taken
          exact quiet_stop s fun d mem => .inr ((isPerm_iff.mp perm).mem_iff.mp mem)
        · cases taken
    · cases taken
  | visit =>
    simp only at taken
    split at taken
    · rename_i found
      cases taken
      exact quiet_stop s (stopping_of_rest found fun _ => id)
    · cases taken
  | acquire =>
    simp only at taken
    split at taken
    · rename_i rest d found
      obtain ⟨⟨cl, next⟩, locked, rfl⟩ := map_eq_some_iff.mp taken
      refine (quiet_keeps (lockClose_keeps locked)).trans (quiet_stop (s.setClient d cl) ?_)
      refine stopping_of_rest found fun other mem => ?_
      cases next with
      | none => exact mem_cons_of_mem _ mem
      | some pc => exact mem
    · cases taken
  | finish =>
    simp only at taken
    split at taken
    · cases taken
      exact quiet_stop s nofun
    · cases taken

theorem hubNext_quiet {loop : Loop Msg} {call : CallPc}
    (calling : s.hub = .calling loop rest c call)
    (keeps : cl.send = (s.client c).send ∧ cl.reader = (s.client c).reader) (next : Option CallPc) :
    Quiet s (s.hubNext loop rest c cl next) := by
  refine (quiet_keeps keeps).trans (quiet_hub (s.setClient c cl) ?_ ?_ ?_)
  · cases next <;> simp [setClient, calling, HubPc.op]
  · cases next <;> simp [setClient, calling, HubPc.isCrashed]
  · cases next <;> simp [setClient, calling, HubPc.rest] <;> exact fun _ => .inl

theorem quiet_loop {order : List Nat} (select : s.hub = .select) (perm : order.isPerm s.clients = true)
    (loop : Loop Msg) (queue : List Msg) :
    Quiet s { s with hub := .looping loop order, broadcast := queue } where
  clients := rfl
  closed := fun _ => rfl
  started := fun _ => Iff.rfl
  op := by simp [select, HubPc.op]
  runs := by simp [select, HubPc.isCrashed]
  visiting := fun _ mem => .inr ((isPerm_iff.mp perm).mem_iff.mp mem)
  stopping := fun _ => .inl

theorem visit_quiet {loop : Loop Msg} (looping : s.hub = .looping loop (c :: rest))
    (isOpen : s.sendClosed c = false) (now : Int) (parked : Bool) :
    Quiet s (visit cfg s loop rest c now parked) := by
  have sends : s.sendPanics loop c = false := by
    cases loop with
    | broadcast message => exact isOpen
    | heartbeat => rfl
  have visiting : ∀ d ∈ rest, d ∈ s.hub.rest ∨ d ∈ s.clients := by
    intro d mem
    rw [looping]
    exact .inl (mem_cons_of_mem _ mem)
  unfold visit
  simp only [sends, Bool.false_eq_true, if_false]
  split
  · refine quiet_hub s ?_ ?_ visiting
    · simp [looping, HubPc.op]
    · simp [looping, HubPc.isCrashed]
  · have client : Quiet s (s.setClient c (visited cfg loop (s.client c))) := by
      unfold visited
      split
      · split <;> exact quiet_client s c rfl Iff.rfl
      · exact quiet_client s c rfl Iff.rfl
    refine client.trans (quiet_hub (s.setClient c _) ?_ ?_ visiting)
    · simp [setClient, looping, HubPc.op]
    · simp [setClient, looping, HubPc.isCrashed]

theorem sent_quiet {sender : Thread} (taken : s.sent c sender = some s') :
    Quiet s s' ∧ (s.Started c ∨ s.Stopping c) := by
  unfold sent at taken
  split at taken
  · split at taken
    · rename_i leaving
      cases taken
      refine ⟨quiet_client s c rfl (by simp [leaving.2]), .inl ?_⟩
      simp [Started, leaving.2]
    · cases taken
  · split at taken
    · rename_i k _ rest d found
      split at taken
      · rename_i same
        subst same
        cases taken
        have client : Quiet s (s.setClient d { s.client d with owner := none }) := quiet_keeps ⟨rfl, rfl⟩
        refine ⟨client.trans (quiet_stop (s.setClient d _) ?_), .inr ⟨k, _, found, mem_cons_self⟩⟩
        exact stopping_of_rest found fun other mem => mem_cons_of_mem _ mem
      · cases taken
    · cases taken
  · cases taken
  · cases taken

end Steps

section Requests

variable {cfg : Config} {s s' : Server Msg} {r : Processed} {c : Nat}

theorem Kept.isOpen (kept : s.Kept r) (listed : c ∈ s.clients) : s.sendClosed c = false := by
  by_contra closed
  have left := kept.closed c (by simpa using closed)
  exact ((kept.exactly c).mp listed).2 left

theorem Kept.receive_register (kept : s.Kept r) (select : s.hub = .select)
    (awaits : (s.client c).awaits = true) :
    ({ s.setClient c { s.client c with registering := false, reader := .reading, writer := .select } with
      hub := .received (.register c) } : Server Msg).Kept r := by
  simp only [Client.awaits, Bool.and_eq_true, beq_iff_eq] at awaits
  have fresh : c ∉ r.registrations := by
    intro registered
    exact (kept.started c).mpr (.inl registered) awaits.1.2
  have channel : ∀ d, (s.setClient c { s.client c with
      registering := false, reader := .reading, writer := .select }).sendClosed d = s.sendClosed d :=
    sendClosed_setClient rfl
  constructor
  case runs => rfl
  case nodup => exact kept.nodup
  case exactly => exact kept.exactly
  case closed => exact fun d closed => kept.closed d ((channel d).symm.trans closed)
  case closes =>
    intro d
    rw [kept.closes d, ← channel d]
    rfl
  case started =>
    intro d
    by_cases same : d = c
    · subst same
      simp [Started, setClient, HubPc.op]
    · have before := kept.started d
      simp only [select, HubPc.op, reduceCtorEq, or_false] at before
      simpa [Started, setClient, same, HubPc.op, Ne.symm same] using before
  case fresh =>
    intro d op
    cases op
    exact fresh
  case leaving => exact nofun
  case left => exact kept.left
  case visiting => exact nofun
  case stopping => exact kept.stopping

theorem Kept.receive_unregister (kept : s.Kept r) (idle : s.hub.op = none) (registered : c ∈ r.registrations) :
    ({ s with hub := .received (.unregister c) } : Server Msg).Kept r := by
  constructor
  case runs => rfl
  case nodup => exact kept.nodup
  case exactly => exact kept.exactly
  case closed => exact kept.closed
  case closes => exact kept.closes
  case started =>
    intro d
    have before := kept.started d
    simp only [idle, reduceCtorEq, or_false] at before
    simp only [HubPc.op, some.injEq, reduceCtorEq, or_false]
    exact before
  case fresh => exact nofun
  case leaving =>
    intro d op
    cases op
    exact registered
  case left => exact kept.left
  case visiting => exact nofun
  case stopping => exact kept.stopping

theorem Kept.apply_register (kept : s.Kept r) (locking : s.hub = .locking (.register c)) :
    (s.apply (.register c)).Kept { r with registrations := r.registrations ++ [c] } := by
  have op : s.hub.op = some (.register c) := by simp [locking, HubPc.op]
  have fresh := kept.fresh c op
  have absent : c ∉ s.clients := fun listed => fresh ((kept.exactly c).mp listed).1
  have stays : c ∉ r.unregistrations := fun left => fresh (kept.left c left)
  have applied : s.apply (.register c) = { s with hub := .select, clients := s.clients ++ [c] } := by
    simp [apply, absent]
  rw [applied]
  constructor
  case runs => rfl
  case nodup => exact nodup_append.mpr ⟨kept.nodup, nodup_singleton c, by grind⟩
  case exactly =>
    intro d
    have before := kept.exactly d
    grind
  case closed => exact kept.closed
  case closes => exact kept.closes
  case started =>
    intro d
    have before := kept.started d
    rw [op] at before
    simp only [HubPc.op, mem_append, mem_singleton, reduceCtorEq, or_false]
    refine before.trans (or_congr_right ?_)
    simp [eq_comm]
  case fresh => exact nofun
  case leaving => exact nofun
  case left => exact fun d mem => mem_append_left _ (kept.left d mem)
  case visiting => exact nofun
  case stopping => exact fun d stopping => mem_append_left _ (kept.stopping d stopping)

theorem Kept.apply_absent (kept : s.Kept r) (op : s.hub.op = some (.unregister c)) (absent : c ∉ s.clients) :
    ({ s with hub := .select } : Server Msg).Kept
      { r with unregistrations := r.unregistrations ++ [c] } := by
  have registered := kept.leaving c op
  have left : c ∈ r.unregistrations := by
    by_contra stays
    exact absent ((kept.exactly c).mpr ⟨registered, stays⟩)
  have same : ∀ d, d ∈ r.unregistrations ++ [c] ↔ d ∈ r.unregistrations := by
    intro d
    simp only [mem_append, mem_singleton, or_iff_left_iff_imp]
    exact fun here => here ▸ left
  constructor
  case runs => rfl
  case nodup => exact kept.nodup
  case exactly => exact fun d => by rw [same d, kept.exactly d]
  case closed => exact fun d closed => (same d).mpr (kept.closed d closed)
  case closes => exact kept.closes
  case started =>
    intro d
    have before := kept.started d
    simp only [op, some.injEq, reduceCtorEq, or_false] at before
    simp only [HubPc.op, reduceCtorEq, or_false]
    exact before
  case fresh => exact nofun
  case leaving => exact nofun
  case left => exact fun d mem => kept.left d ((same d).mp mem)
  case visiting => exact nofun
  case stopping => exact kept.stopping

theorem Kept.apply_listed (kept : s.Kept r) (op : s.hub.op = some (.unregister c)) (listed : c ∈ s.clients) :
    ({ s.setClient c { s.client c with send := { (s.client c).send with closed := true } } with
      hub := .select, clients := s.clients.erase c } : Server Msg).Kept
      { r with unregistrations := r.unregistrations ++ [c], closes := r.closes ++ [c] } := by
  have registered := kept.leaving c op
  have isOpen := kept.isOpen listed
  constructor
  case runs => rfl
  case nodup => exact kept.nodup.erase c
  case exactly =>
    intro d
    have before := kept.exactly d
    simp only [kept.nodup.mem_erase_iff, before, mem_append, mem_singleton]
    tauto
  case closed =>
    intro d closed
    by_cases same : d = c
    · subst same
      exact mem_append_right _ mem_cons_self
    · refine mem_append_left _ (kept.closed d ?_)
      simpa [sendClosed, setClient, same] using closed
  case closes =>
    intro d
    have before := kept.closes d
    by_cases same : d = c
    · subst same
      simp only [isOpen, Bool.false_eq_true, if_false] at before
      simp [sendClosed, setClient, before]
    · have apart : List.count d [c] = 0 := count_singleton.trans (if_neg (by simpa using Ne.symm same))
      rw [count_append, apart, before]
      unfold sendClosed setClient
      simp only [Function.update_of_ne same]
      rfl
  case started =>
    intro d
    have before := kept.started d
    rw [op] at before
    by_cases same : d = c
    · subst same
      simpa [Started, setClient, HubPc.op] using before
    · simpa [Started, setClient, HubPc.op, same] using before
  case fresh => exact nofun
  case leaving => exact nofun
  case left =>
    intro d mem
    cases mem_append.mp mem with
    | inl before => exact kept.left d before
    | inr new => exact mem_singleton.mp new ▸ registered
  case visiting => exact nofun
  case stopping => exact kept.stopping

theorem Kept.update (kept : s.Kept r) (taken : hubStep cfg s .update = some s') :
    s'.Kept (r.note s (.hub .update)) := by
  simp only [hubStep] at taken
  split at taken
  · rename_i op locking
    split at taken
    · cases taken
    · cases taken
      cases op with
      | register c =>
        simp only [Processed.note, locking]
        exact kept.apply_register locking
      | unregister c =>
        have op : s.hub.op = some (.unregister c) := by simp [locking, HubPc.op]
        simp only [Processed.note, locking, apply]
        by_cases listed : c ∈ s.clients
        · have isOpen : (s.client c).send.closed = false := kept.isOpen listed
          simp only [contains_iff_mem.mpr listed, if_true, isOpen, Bool.false_eq_true, if_false]
          exact kept.apply_listed op listed
        · have absent : s.clients.contains c = false := by simpa using listed
          simp only [absent, Bool.false_eq_true, if_false]
          exact kept.apply_absent op listed
  · cases taken

theorem Kept.hubStep {e : HubEvent Msg} (kept : s.Kept r) (taken : hubStep cfg s e = some s') :
    s'.Kept (r.note s (.hub e)) := by
  cases e with simp only [Server.hubStep] at taken
  | register c =>
    split at taken
    · rename_i select awaits
      cases taken
      exact kept.receive_register select awaits
    · cases taken
  | unregister sender c =>
    split at taken
    · rename_i select
      obtain ⟨s₁, sent, rfl⟩ := map_eq_some_iff.mp taken
      obtain ⟨quiet, known⟩ := sent_quiet sent
      have idle : s.hub.op = none := by simp [select, HubPc.op]
      have registered : c ∈ r.registrations := by
        cases known with
        | inl started => simpa [idle] using (kept.started c).mp started
        | inr stopping => exact kept.stopping c stopping
      exact (quiet.kept kept).receive_unregister (quiet.op.trans idle) registered
    · cases taken
  | lock =>
    split at taken
    · rename_i op received
      cases taken
      refine (quiet_hub s ?_ ?_ (by simp [HubPc.rest])).kept kept
      · simp [received, HubPc.op]
      · simp [received, HubPc.isCrashed]
    · cases taken
  | update => exact kept.update (show Server.hubStep cfg s .update = _ from taken)
  | broadcast order | handOver message order | tick order =>
    split at taken
    · split at taken
      · rename_i perm
        cases taken
        exact (quiet_loop (by assumption) perm _ _).kept kept
      · cases taken
    · cases taken
  | visit now parked =>
    split at taken
    · rename_i loop c rest looping
      cases taken
      have listed : c ∈ s.clients := kept.visiting c (by simp [looping, HubPc.rest])
      exact (visit_quiet looping (kept.isOpen listed) now parked).kept kept
    · cases taken
  | acquire =>
    split at taken
    · rename_i loop rest c calling
      obtain ⟨next, locked, rfl⟩ := map_eq_some_iff.mp taken
      exact (hubNext_quiet calling (lockPing_keeps locked) _).kept kept
    · rename_i loop rest c calling
      obtain ⟨next, locked, rfl⟩ := map_eq_some_iff.mp taken
      exact (hubNext_quiet calling (lockClose_keeps locked) _).kept kept
    · cases taken
  | write ok =>
    split at taken
    · rename_i loop rest c calling
      obtain ⟨next, written, rfl⟩ := map_eq_some_iff.mp taken
      exact (hubNext_quiet calling (writePing_keeps written) _).kept kept
    · cases taken
  | finish =>
    split at taken
    · rename_i loop looping
      cases taken
      refine (quiet_hub s ?_ ?_ (by simp [HubPc.rest])).kept kept
      · simp [looping, HubPc.op]
      · simp [looping, HubPc.isCrashed]
    · cases taken

theorem Kept.step {e : Event Msg} (kept : s.Kept r) (taken : s.step cfg e = some s') :
    s'.Kept (r.note s e) := by
  cases e with
  | connect now =>
    cases taken
    have client : Quiet s (s.setClient s.next
        { s.client s.next with registering := true, lastPing := now }) := quiet_keeps ⟨rfl, rfl⟩
    refine Quiet.kept ?_ (client.kept kept)
    exact quiet_same rfl rfl rfl rfl
  | publish message =>
    simp only [Server.step] at taken
    split at taken
    · cases taken
      refine Quiet.kept ?_ kept
      exact quiet_same rfl rfl rfl rfl
    · cases taken
  | callStop =>
    cases taken
    refine { kept with stopping := ?_ }
    rintro c ⟨k, pc, found, mem⟩
    simp only [getElem?_append] at found
    split at found
    · exact kept.stopping c ⟨k, pc, found, mem⟩
    · simp only [getElem?_singleton, ite_none_right_eq_some, some.injEq] at found
      obtain ⟨_, rfl⟩ := found
      cases mem
  | hub e => exact kept.hubStep taken
  | stop k e => exact (stopStep_quiet taken).kept kept
  | reader c e => exact (readerStep_quiet taken).kept kept
  | writer c e => exact (writerStep_quiet taken).kept kept

theorem kept_start : (start : Server Msg).Kept ⟨[], [], []⟩ where
  runs := rfl
  nodup := nodup_nil
  exactly := by simp [start]
  closed := nofun
  closes := fun _ => rfl
  started := by simp [Started, start, Client.fresh, HubPc.op]
  fresh := nofun
  leaving := nofun
  left := nofun
  visiting := nofun
  stopping := by
    rintro c ⟨k, pc, found, _⟩
    cases found

end Requests

end Server

namespace Observed

variable {Msg : Type}

theorem safe_of_kept {s : Observed Msg} (kept : s.server.Kept s.record) : s.Safe where
  once := fun c => by
    rw [kept.closes c]
    split <;> simp
  runs := kept.runs
  exactly := kept.exactly

/-- For every configuration and every interleaving: no send channel is closed twice or sent to after
    it was closed, and the map of the hub has exactly the registered clients. -/
theorem run_safe (cfg : Config) (events : List (Server.Event Msg)) :
    Throughout (step cfg) Safe (start : Observed Msg) events := by
  refine throughout_of_kept (fun s => s.server.Kept s.record) (fun _ => safe_of_kept) ?_ events
    Server.kept_start
  intro s e s' kept taken
  obtain ⟨server, stepped, rfl⟩ := Option.map_eq_some_iff.mp taken
  exact kept.step stepped

end Observed

end Monitor.Websocket
