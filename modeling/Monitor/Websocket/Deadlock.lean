import Monitor.Lib.Mutexes
import Monitor.Lib.Runs
import Monitor.Websocket.Server

/-! # Deadlocks of the WebSocket hub

Three kinds of bad states: the hub sends to `unregister`, which only it receives from; a goroutine
waits for a client mutex that it holds; a call of `Stop` and the hub wait for each other. What a
step can do to the places of the goroutines and to the client mutexes is said once, as an `Effect`;
each effect keeps the server free of deadlocks exactly under a condition of its own.
-/

namespace Monitor.Websocket

open Mutexes Runs Function Option

section

variable {Msg : Type}

def HubPc.place : HubPc Msg → Option (Nat × CallPc)
  | .calling _ _ c call => some (c, call)
  | _ => none

def StopPc.place : StopPc → Option (Nat × CallPc)
  | .closing _ c pc => some (c, .close pc)
  | _ => none

def ReaderPc.place (c : Nat) : ReaderPc → Option (Nat × CallPc)
  | .pong => some (c, .pong)
  | _ => none

def WriterPc.place (c : Nat) : WriterPc → Option (Nat × CallPc)
  | .pinging pc => some (c, .ping pc)
  | _ => none

namespace Server

def place (s : Server Msg) : Thread → Option (Nat × CallPc)
  | .hub => s.hub.place
  | .stop k => s.stops[k]?.bind StopPc.place
  | .reader c => (s.client c).reader.place c
  | .writer c => (s.client c).writer.place c

def view (s : Server Msg) : View Thread Nat CallPc := ⟨s.place, fun c => (s.client c).owner⟩

def HubStuck (s : Server Msg) : Prop := ∃ c, s.place .hub = some (c, .close .send)

def SelfWait (s : Server Msg) : Prop :=
  ∃ t c l, s.place t = some (c, l) ∧ l.waits = true ∧ (s.client c).owner = some t

/-- A call of `Stop` waits at its send for the hub; the hub waits at `s.mu.Lock()`, which `Stop` holds
    for reading, or for the mutex of a client that `Stop` holds. -/
def MutualWait (s : Server Msg) : Prop :=
  ∃ k c, s.place (.stop k) = some (c, .close .send) ∧
    (s.hub.isLocking = true ∨
      ∃ d l, s.place .hub = some (d, l) ∧ l.waits = true ∧ (s.client d).owner = some (.stop k))

def DeadlockFree (s : Server Msg) : Prop := ¬ s.HubStuck ∧ ¬ s.SelfWait ∧ ¬ s.MutualWait

/-- The steps that do not lead into a bad state: the hub finds a client that it closes already
    closed, no ping fails, `Stop` does not get the mutex of an open client while the hub waits at
    `s.mu.Lock()` or for that mutex, and the hub neither goes there nor calls a method of a client
    whose mutex `Stop` holds. -/
def Harmless (cfg : Config) (s : Server Msg) : Event Msg → Prop
  | .hub .acquire =>
    ∀ loop rest c, s.hub = .calling loop rest c (.close .lock) → (s.client c).closed = true
  | .hub (.write ok) => ok = true
  | .writer _ (.write ok) => ok = true
  | .hub .lock => ∀ k c, s.place (.stop k) ≠ some (c, .close .send)
  | .hub (.visit now parked) =>
    ∀ loop rest c call, s.hub = .looping loop (c :: rest) → s.sendPanics loop c = false →
      visitCall cfg s loop c now parked = some call → ∀ k, (s.client c).owner ≠ some (.stop k)
  | .stop k .acquire =>
    ∀ rest c, s.stops[k]? = some (.closing rest c .lock) → (s.client c).closed = true ∨
      s.hub.isLocking = false ∧ ∀ l, s.place .hub = some (c, l) → l.waits = false
  | _ => True

end Server

end

abbrev ServerView : Type := View Thread Nat CallPc

namespace ServerView

/-- `DeadlockFree` in terms of the view. -/
structure Free (v : ServerView) (locking : Bool) : Prop where
  hub : ∀ c, v.place .hub ≠ some (c, .close .send)
  self : ∀ t c l, v.place t = some (c, l) → l.waits = true → v.owner c ≠ some t
  crossed : ∀ k c, v.place (.stop k) = some (c, .close .send) → locking = false ∧
    ∀ d l, v.place .hub = some (d, l) → l.waits = true → v.owner d ≠ some (.stop k)

/-- Who owns a mutex is where it should be, and `Stop` calls no method but `close`. -/
structure Proper (v : ServerView) : Prop where
  owned : v.Owned CallPc.holds
  closes : ∀ k c l, v.place (.stop k) = some (c, l) → ∃ pc, l = .close pc

/-- What a step can do to the view and to the call of `s.mu.Lock()`, and the condition `Q` under
    which it leads to no deadlock. -/
inductive Effect (v : ServerView) (locking : Bool) (v' : ServerView) (locking' : Bool) (Q : Prop) :
    Prop where
  | quiet (after : v' = v) (lock : locking' = locking) (always : Q)
  | enter (t : Thread) (c : Nat) (l : CallPc) (before : v.place t = none) (waits : l.waits = true)
      (notHeld : l.holds = false) (stop : ∀ k, t = .stop k → ∃ pc, l = .close pc)
      (after : v' = v.move t (some (c, l))) (lock : locking' = locking)
      (when : Q ↔ (t = .hub → ∀ k, v.owner c ≠ some (.stop k)))
  | leave (t : Thread) (c : Nat) (l : CallPc) (before : v.place t = some (c, l))
      (notHeld : l.holds = false) (after : v' = v.move t none) (lock : locking' = locking) (always : Q)
  | acquire (t : Thread) (c : Nat) (l l' : CallPc) (before : v.place t = some (c, l))
      (notHeld : l.holds = false) (available : v.owner c = none) (held : l'.holds = true)
      (runs : l'.waits = false) (stop : ∀ k, t = .stop k → ∃ pc, l' = .close pc)
      (after : v' = v.acquire t c l') (lock : locking' = locking)
      (when : Q ↔ (l' = .close .send → t ≠ .hub ∧ ∀ k, t = .stop k →
        locking = false ∧ ∀ m, v.place .hub = some (c, m) → m.waits = false))
  | fail (t : Thread) (c : Nat) (before : v.place t = some (c, .ping .write))
      (after : v' = v.move t (some (c, .ping .closing))) (lock : locking' = locking) (never : ¬ Q)
  | release (t : Thread) (c : Nat) (l : CallPc) (before : v.place t = some (c, l))
      (held : l.holds = true) (after : v' = v.release t c) (lock : locking' = locking) (always : Q)
  | lock (before : locking = false) (after : v' = v) (lock : locking' = true)
      (when : Q ↔ ∀ k c, v.place (.stop k) ≠ some (c, .close .send))
  | unlock (after : v' = v) (lock : locking' = false) (always : Q)

variable {v v' : ServerView} {locking locking' : Bool} {t : Thread} {c : Nat} {l l' : CallPc}

theorem Free.enter_iff (proper : Proper v) (free : Free v locking) (before : v.place t = none)
    (waits : l.waits = true) :
    Free (v.move t (some (c, l))) locking ↔ (t = .hub → ∀ k, v.owner c ≠ some (.stop k)) := by
  have nothing : ∀ d m, v.place t = some (d, m) → m.holds = false := by simp [before]
  have apart := proper.owned.apart nothing
  have notSend : l ≠ .close .send := by
    intro same
    simp [same, CallPc.waits] at waits
  constructor
  · intro after hub k mine
    subst hub
    -- the owner is at its send, so the hub and it would wait for each other
    obtain ⟨m, placed, held⟩ := (proper.owned _ _).mp mine
    obtain ⟨pc, rfl⟩ := proper.closes k c m placed
    cases pc with
    | lock => cases held
    | send =>
      have still : (v.move .hub (some (c, l))).place (.stop k) = some (c, .close .send) := by grind
      exact (after.crossed k c still).2 c l (by grind) waits mine
  · intro clear
    obtain ⟨hub, self, crossed⟩ := free
    constructor <;> grind

theorem Free.leave (free : Free v locking) : Free (v.move t none) locking := by
  obtain ⟨hub, self, crossed⟩ := free
  constructor <;> grind

theorem Free.release (free : Free v locking) : Free (v.release t c) locking := by
  obtain ⟨hub, self, crossed⟩ := free
  constructor <;> grind

theorem Free.acquire_iff (proper : Proper v) (free : Free v locking) (before : v.place t = some (c, l))
    (notHeld : l.holds = false) (runs : l'.waits = false) : Free (v.acquire t c l') locking ↔
      (l' = .close .send → t ≠ .hub ∧ ∀ k, t = .stop k →
        locking = false ∧ ∀ m, v.place .hub = some (c, m) → m.waits = false) := by
  have nothing : ∀ d m, v.place t = some (d, m) → m.holds = false := by grind
  have apart := proper.owned.apart nothing
  constructor
  · intro after send
    subst send
    have here : (v.acquire t c (.close .send)).place t = some (c, .close .send) := by grind
    refine ⟨fun hub => after.hub c (hub ▸ here), fun k stop => ?_⟩
    subst stop
    obtain ⟨unlocked, clear⟩ := after.crossed k c here
    refine ⟨unlocked, fun m calling => ?_⟩
    cases waiting : m.waits with
    | false => rfl
    | true => exact absurd (by grind) (clear c m (by grind) waiting)
  · intro clear
    obtain ⟨hub, self, crossed⟩ := free
    constructor <;> grind

theorem not_free_of_fail (proper : Proper v) (before : v.place t = some (c, .ping .write)) :
    ¬ Free (v.move t (some (c, .ping .closing))) locking := by
  intro free
  have mine : v.owner c = some t := proper.owned.owner_eq before rfl
  exact free.self t c (.ping .closing) (by grind) rfl mine

theorem Free.lock_iff (free : Free v false) :
    Free v true ↔ ∀ k c, v.place (.stop k) ≠ some (c, .close .send) := by
  constructor
  · intro after k c sending
    cases (after.crossed k c sending).1
  · intro nobody
    exact ⟨free.hub, free.self, fun k c sending => absurd sending (nobody k c)⟩

theorem Free.unlock (free : Free v locking) : Free v false :=
  ⟨free.hub, free.self, fun k c sending => ⟨rfl, (free.crossed k c sending).2⟩⟩

theorem Effect.free_iff {Q : Prop} (effect : Effect v locking v' locking' Q) (proper : Proper v)
    (free : Free v locking) : Free v' locking' ↔ Q := by
  cases effect with
  | quiet after lock always =>
    subst after lock
    exact iff_of_true free always
  | enter t c l before waits _ _ after lock when =>
    subst after lock
    exact (free.enter_iff proper before waits).trans when.symm
  | leave t c l _ _ after lock always =>
    subst after lock
    exact iff_of_true free.leave always
  | acquire t c l l' before notHeld _ _ runs _ after lock when =>
    subst after lock
    exact (free.acquire_iff proper before notHeld runs).trans when.symm
  | fail t c before after lock never =>
    subst after lock
    exact iff_of_false (not_free_of_fail proper before) never
  | release t c l _ _ after lock always =>
    subst after lock
    exact iff_of_true free.release always
  | lock before after lock when =>
    subst before after lock
    exact free.lock_iff.trans when.symm
  | unlock after lock always =>
    subst after lock
    exact iff_of_true free.unlock always

theorem Effect.proper {Q : Prop} (effect : Effect v locking v' locking' Q) (proper : Proper v) :
    Proper v' := by
  obtain ⟨owned, closes⟩ := proper
  cases effect with
  | quiet after | unlock after | lock _ after => exact after ▸ ⟨owned, closes⟩
  | enter t c l before waits notHeld stop after =>
    exact after ▸ ⟨owned.move (by simp [before]) (by grind), by grind⟩
  | leave t c l before notHeld after => exact after ▸ ⟨owned.move (by grind) (by simp), by grind⟩
  | acquire t c l l' before notHeld available held runs stop after =>
    exact after ▸ ⟨owned.acquire (by grind) available held, by grind⟩
  | fail t c before after => exact after ▸ ⟨owned.proceed before rfl rfl, by grind⟩
  | release t c l before held after => exact after ▸ ⟨owned.release before held, by grind⟩

end ServerView

namespace Server

open ServerView

section Views

variable {Msg : Type} (s : Server Msg)

theorem view_hub (h : HubPc Msg) : ({ s with hub := h } : Server Msg).view = s.view.move .hub h.place := by
  ext1
  · funext t
    cases t <;> simp [view, View.move, place]
  · rfl

theorem view_hub_quiet {h : HubPc Msg} (before : s.hub.place = none) (after : h.place = none) :
    ({ s with hub := h } : Server Msg).view = s.view := by
  rw [view_hub, after, View.move_same _ before]

variable {pc : StopPc}

theorem view_stop {k : Nat} (found : s.stops[k]? = some pc) (next : StopPc) :
    ({ s with stops := s.stops.set k next } : Server Msg).view = s.view.move (.stop k) next.place := by
  obtain ⟨lt, _⟩ := List.getElem?_eq_some_iff.mp found
  ext1
  · funext t
    cases t with
    | stop j =>
      by_cases same : j = k
      · subst same
        simp [view, View.move, place, lt]
      · simp [view, View.move, place, same, Ne.symm same]
    | _ => simp [view, View.move, place]
  · rfl

theorem view_callStop : ({ s with stops := s.stops ++ [.rlock] } : Server Msg).view = s.view := by
  ext1
  · funext t
    cases t with
    | stop k =>
      simp only [view, place, List.getElem?_append]
      split
      · rfl
      · have none : s.stops[k]? = none := List.getElem?_eq_none (by omega)
        simp only [none, bind_none, bind_eq_none_iff, List.getElem?_singleton]
        intro pc found
        split at found
        · cases found
          rfl
        · cases found
    | _ => rfl
  · rfl

theorem view_setClient (c : Nat) (cl : Client Msg) : (s.setClient c cl).view =
    { place := update (update s.place (.reader c) (cl.reader.place c))
        (.writer c) (cl.writer.place c)
      owner := update s.view.owner c cl.owner } := by
  ext1
  · funext t
    cases t with
    | hub => simp [view, place, setClient]
    | stop k => simp [view, place, setClient]
    | reader d =>
      by_cases same : d = c
      · subst same
        simp [view, place, setClient]
      · simp [view, place, setClient, same]
    | writer d =>
      by_cases same : d = c
      · subst same
        simp [view, place, setClient]
      · simp [view, place, setClient, same]
  · funext d
    by_cases same : d = c
    · subst same
      simp [view, setClient]
    · simp [view, setClient, same]

variable {s} {c : Nat} {cl : Client Msg}

theorem view_stop_quiet {k : Nat} {next : StopPc} (found : s.stops[k]? = some pc)
    (before : pc.place = none) (after : next.place = none) :
    ({ s with stops := s.stops.set k next } : Server Msg).view = s.view := by
  have here : s.view.place (.stop k) = next.place := by simp [view, place, found, before, after]
  exact (s.view_stop found next).trans (View.move_same _ here)

theorem view_setClient_reader (writer : cl.writer.place c = (s.client c).writer.place c)
    (owner : cl.owner = (s.client c).owner) :
    (s.setClient c cl).view = s.view.move (.reader c) (cl.reader.place c) := by
  have second : update (update s.place (.reader c) (cl.reader.place c)) (.writer c)
      (cl.writer.place c) = update s.place (.reader c) (cl.reader.place c) := by
    simp [writer, place]
  have third : update s.view.owner c cl.owner = s.view.owner :=
    update_eq_self_iff.mpr owner
  simp only [view_setClient, second, third]
  rfl

variable (reader : cl.reader.place c = (s.client c).reader.place c)
include reader

theorem view_setClient_writer : (s.setClient c cl).view =
    { place := update s.place (.writer c) (cl.writer.place c)
      owner := update s.view.owner c cl.owner } := by
  have first : update s.place (.reader c) (cl.reader.place c) = s.place :=
    update_eq_self_iff.mpr reader
  simp only [view_setClient, first]

theorem view_setClient_writer_move (owner : (s.client c).owner = cl.owner) :
    (s.setClient c cl).view = s.view.move (.writer c) (cl.writer.place c) :=
  (view_setClient_writer reader).trans (s.view.move_of_same _ _ owner)

variable (writer : cl.writer.place c = (s.client c).writer.place c)
include writer

theorem view_setClient_owner :
    (s.setClient c cl).view = { s.view with owner := update s.view.owner c cl.owner } := by
  have second : update s.place (.writer c) (cl.writer.place c) = s.place :=
    update_eq_self_iff.mpr writer
  simp only [view_setClient_writer reader, second]
  rfl

theorem view_setClient_quiet (owner : cl.owner = (s.client c).owner) : (s.setClient c cl).view = s.view := by
  have third : update s.view.owner c cl.owner = s.view.owner :=
    update_eq_self_iff.mpr owner
  simp only [view_setClient_owner reader writer, third]

theorem view_hub_client (h : HubPc Msg) : ({ s.setClient c cl with hub := h } : Server Msg).view =
    ⟨update s.place .hub h.place, update s.view.owner c cl.owner⟩ := by
  simp only [view_hub (s.setClient c cl) h, view_setClient_owner reader writer]
  rfl

theorem view_stop_client {k : Nat} (found : s.stops[k]? = some pc) (next : StopPc) :
    ({ s.setClient c cl with stops := s.stops.set k next } : Server Msg).view =
      ⟨update s.place (.stop k) next.place, update s.view.owner c cl.owner⟩ := by
  refine ((s.setClient c cl).view_stop found next).trans ?_
  simp only [view_setClient_owner reader writer]
  rfl

theorem view_hub_client_quiet {h : HubPc Msg} (before : s.hub.place = none) (after : h.place = none)
    (owner : (s.client c).owner = cl.owner) :
    ({ s.setClient c cl with hub := h } : Server Msg).view = s.view := by
  refine (view_hub_client reader writer h).trans ((s.view.move_of_same _ _ owner).trans ?_)
  exact View.move_same _ (before.trans after.symm)

end Views

section Steps

variable {Msg : Type} {cfg : Config} {s s' : Server Msg}

/-- The effect of a step, with the condition of its event. -/
def HasEffect (cfg : Config) (s : Server Msg) (e : Event Msg) (s' : Server Msg) : Prop :=
  Effect s.view s.hub.isLocking s'.view s'.hub.isLocking (s.Harmless cfg e)

variable {c : Nat} {loop : Loop Msg} {parked : Bool}

theorem readerStep_effect {e : ReaderEvent} (taken : s.readerStep c e = some s') :
    HasEffect cfg s (.reader c e) s' := by
  unfold readerStep at taken
  simp only at taken
  split at taken
  · rename_i reading
    cases taken
    refine .enter (.reader c) c .pong ?_ rfl rfl nofun (view_setClient_reader rfl rfl) rfl ?_
    · simp [view, place, reading, ReaderPc.place]
    · simp [Harmless]
  · rename_i now pong
    split at taken
    · cases taken
    · cases taken
      refine .leave (.reader c) c .pong ?_ rfl (view_setClient_reader rfl rfl) rfl trivial
      simp [view, place, pong, ReaderPc.place]
  · rename_i reading
    cases taken
    refine .quiet (view_setClient_quiet ?_ rfl rfl) rfl trivial
    simp [reading, ReaderPc.place]
  · rename_i closing
    cases taken
    refine .quiet (view_setClient_quiet ?_ rfl rfl) rfl trivial
    simp [closing, ReaderPc.place]
  · cases taken

theorem writer_quiet {e : WriterEvent} {cl : Client Msg} (harmless : s.Harmless cfg (.writer c e))
    (reader : cl.reader = (s.client c).reader) (owner : cl.owner = (s.client c).owner)
    (before : (s.client c).writer.place c = none) (after : cl.writer.place c = none) :
    HasEffect cfg s (.writer c e) (s.setClient c cl) :=
  .quiet (view_setClient_quiet (by rw [reader]) (after.trans before.symm) owner) rfl harmless

theorem writerStep_effect {e : WriterEvent} (taken : s.writerStep c e = some s') :
    HasEffect cfg s (.writer c e) s' := by
  unfold writerStep at taken
  simp only at taken
  split at taken
  case h_1 select =>
    have before : (s.client c).writer.place c = none := by simp [select, WriterPc.place]
    split at taken
    · split at taken
      · cases taken
        exact writer_quiet trivial rfl rfl before rfl
      · cases taken
    · cases taken
      exact writer_quiet trivial rfl rfl before rfl
  case h_2 ok opening =>
    have before : (s.client c).writer.place c = none := by simp [opening, WriterPc.place]
    cases taken
    cases ok <;> exact writer_quiet trivial rfl rfl before rfl
  case h_3 n draining =>
    have before : (s.client c).writer.place c = none := by simp [draining, WriterPc.place]
    split at taken
    · cases taken
      exact writer_quiet trivial rfl rfl before rfl
    · cases taken
  case h_4 ok draining =>
    have before : (s.client c).writer.place c = none := by simp [draining, WriterPc.place]
    cases taken
    cases ok <;> exact writer_quiet trivial rfl rfl before rfl
  case h_5 select =>
    cases taken
    refine .enter (.writer c) c (.ping .lock) ?_ rfl rfl nofun (view_setClient_writer_move rfl rfl) rfl ?_
    · simp [view, place, select, WriterPc.place]
    · simp [Harmless]
  case h_6 waiting =>
    have before : s.view.place (.writer c) = some (c, .ping .lock) := by
      simp [view, place, waiting, WriterPc.place]
    obtain ⟨r, locked, rfl⟩ := map_eq_some_iff.mp taken
    obtain ⟨free, rfl | rfl⟩ := Client.lockPing_cases locked
    · exact .leave (.writer c) c (.ping .lock) before rfl (view_setClient_writer_move rfl rfl) rfl trivial
    · refine .acquire (.writer c) c (.ping .lock) (.ping .write) before rfl free rfl rfl nofun
        (view_setClient_writer rfl) rfl ?_
      simp [Harmless]
  case h_7 ok writing =>
    have before : s.view.place (.writer c) = some (c, .ping .write) := by
      simp [view, place, writing, WriterPc.place]
    obtain ⟨r, written, rfl⟩ := map_eq_some_iff.mp taken
    obtain ⟨rfl, rfl⟩ | ⟨rfl, rfl⟩ := Client.writePing_cases written
    · exact .release (.writer c) c (.ping .write) before rfl (view_setClient_writer rfl) rfl rfl
    · exact .fail (.writer c) c before (view_setClient_writer_move rfl rfl) rfl nofun
  case h_8 closing =>
    have before : (s.client c).writer.place c = none := by simp [closing, WriterPc.place]
    cases taken
    exact writer_quiet trivial rfl rfl before rfl
  case h_9 => cases taken

theorem stopStep_effect {k : Nat} {e : StopEvent} (taken : s.stopStep k e = some s') :
    HasEffect cfg s (.stop k e) s' := by
  -- where the call of `Stop` is before the step
  have here {pc : StopPc} (found : s.stops[k]? = some pc) : s.view.place (.stop k) = pc.place := by
    simp [view, place, found]
  cases e with simp only [stopStep] at taken
  | rlock order =>
    split at taken
    · rename_i found
      split at taken
      · cases taken
      · split at taken
        · cases taken
          exact .quiet (view_stop_quiet found rfl rfl) rfl trivial
        · cases taken
    · cases taken
  | visit =>
    split at taken
    · rename_i c rest found
      cases taken
      refine .enter (.stop k) c (.close .lock) (here found) rfl rfl ?_ (s.view_stop found _) rfl ?_
      · exact fun _ _ => ⟨.lock, rfl⟩
      · simp [Harmless]
    · cases taken
  | acquire =>
    split at taken
    · rename_i rest c found
      obtain ⟨r, locked, rfl⟩ := map_eq_some_iff.mp taken
      obtain ⟨free, ⟨closed, rfl⟩ | ⟨closed, rfl⟩⟩ := Client.lockClose_cases locked
      · refine .leave (.stop k) c (.close .lock) (here found) rfl ?_ rfl ?_
        · exact (view_stop_client (by rfl) (by rfl) found _).trans (s.view.move_of_same _ _ rfl)
        · intro rest' c' found'
          simp_all
      · refine .acquire (.stop k) c (.close .lock) (.close .send) (here found) rfl free rfl rfl ?_ ?_ rfl ?_
        · exact fun _ _ => ⟨.send, rfl⟩
        · exact view_stop_client (by rfl) (by rfl) found _
        · simp [Harmless, found, closed, view]
    · cases taken
  | finish =>
    split at taken
    · rename_i found
      cases taken
      exact .quiet (view_stop_quiet found rfl rfl) rfl trivial
    · cases taken

theorem visitCall_waits {loop : Loop Msg} {c : Nat} {now : Int} {parked : Bool} {call : CallPc}
    (calls : visitCall cfg s loop c now parked = some call) : call.waits = true ∧ call.holds = false := by
  unfold visitCall at calls
  split at calls
  · split at calls
    · cases calls
    · split at calls <;> cases calls
      exact ⟨rfl, rfl⟩
  · split at calls <;> cases calls <;> exact ⟨rfl, rfl⟩

theorem visited_writer {now : Int} (calls : visitCall cfg s loop c now parked = none) :
    (visited cfg loop (s.client c)).writer.place c = (s.client c).writer.place c := by
  unfold visited
  cases loop with
  | heartbeat => rfl
  | broadcast message =>
    simp only
    split
    · rfl
    · rename_i full
      simp only [visitCall, if_neg full, ite_eq_left_iff, reduceCtorEq, imp_false, not_not,
        Bool.and_eq_true, beq_iff_eq] at calls
      simp [calls.2, WriterPc.place]

theorem visited_keeps (cfg : Config) (loop : Loop Msg) (cl : Client Msg) :
    (visited cfg loop cl).reader = cl.reader ∧ cl.owner = (visited cfg loop cl).owner := by
  unfold visited
  split
  · split <;> exact ⟨rfl, rfl⟩
  · exact ⟨rfl, rfl⟩

theorem visit_effect {rest : List Nat} {now : Int} (looping : s.hub = .looping loop (c :: rest)) :
    HasEffect cfg s (.hub (.visit now parked)) (visit cfg s loop rest c now parked) := by
  have before : s.hub.place = none := by simp [looping, HubPc.place]
  have unlocked : s.hub.isLocking = false := by simp [looping, HubPc.isLocking]
  unfold visit
  split
  · refine .quiet (s.view_hub_quiet before rfl) unlocked.symm ?_
    intro loop' rest' c' call looping'
    simp_all
  · rename_i sends
    split
    · rename_i call calls
      obtain ⟨waits, notHeld⟩ := visitCall_waits calls
      refine .enter .hub c call before waits notHeld nofun (s.view_hub _) unlocked.symm ?_
      simp only [Harmless, looping, HubPc.looping.injEq, List.cons.injEq]
      constructor
      · exact fun harmless _ => harmless loop rest c call ⟨rfl, rfl, rfl⟩ (by simpa using sends) calls
      · rintro clear loop' rest' c' call' ⟨rfl, rfl, rfl⟩ _ _
        exact clear trivial
    · rename_i calls
      obtain ⟨reader, owner⟩ := visited_keeps cfg loop (s.client c)
      refine .quiet (view_hub_client_quiet (by rw [reader]) (visited_writer calls) before rfl owner)
        unlocked.symm ?_
      intro loop' rest' c' call looping'
      simp_all

theorem unregister_effect {sender : Thread} {s₁ : Server Msg} (select : s.hub = .select)
    (taken : s.sent c sender = some s₁) :
    HasEffect cfg s (.hub (.unregister sender c)) { s₁ with hub := .received (.unregister c) } := by
  have unlocked : s.hub.isLocking = false := by simp [select, HubPc.isLocking]
  have before : s.hub.place = none := by simp [select, HubPc.place]
  unfold sent at taken
  split at taken
  · split at taken
    · rename_i d leaving
      cases taken
      refine .quiet (view_hub_client_quiet ?_ (by rfl) before rfl (by rfl)) unlocked.symm trivial
      simp [leaving.2, ReaderPc.place]
    · cases taken
  · rename_i k
    split at taken
    · rename_i rest d found
      split at taken
      · rename_i same
        subst same
        cases taken
        have here : s.view.place (.stop k) = some (d, .close .send) := by
          simp [view, place, found, StopPc.place]
        have freed : ({ s.setClient d { s.client d with owner := none } with
            stops := s.stops.set k (.looping rest) } : Server Msg).view = s.view.release (.stop k) d :=
          view_stop_client (by rfl) (by rfl) found _
        refine .release (.stop k) d (.close .send) here rfl ?_ unlocked.symm trivial
        refine Eq.trans (view_hub_quiet _ ?_ rfl) freed
        exact before
      · cases taken
    · cases taken
  · cases taken
  · cases taken

theorem apply_effect {op : Op} (locking : s.hub = .locking op) :
    HasEffect cfg s (.hub .update) (s.apply op) := by
  have before : s.hub.place = none := by simp [locking, HubPc.place]
  cases op with
  | register c => exact .unlock (s.view_hub_quiet before rfl) rfl trivial
  | unregister c =>
    simp only [apply]
    split
    · split
      · exact .unlock (s.view_hub_quiet before rfl) rfl trivial
      · have same : ({ s.setClient c { s.client c with
            send := { (s.client c).send with closed := true } } with hub := .select } : Server Msg).view =
            s.view := view_hub_client_quiet (by rfl) (by rfl) before rfl (by rfl)
        exact .unlock same rfl trivial
    · exact .unlock (s.view_hub_quiet before rfl) rfl trivial

theorem hub_acquire_effect (taken : hubStep cfg s .acquire = some s') :
    HasEffect cfg s (.hub .acquire) s' := by
  simp only [hubStep] at taken
  split at taken
  · rename_i loop rest c calling
    have before : s.view.place .hub = some (c, .ping .lock) := by
      simp [view, place, calling, HubPc.place]
    have unlocked : s.hub.isLocking = false := by simp [calling, HubPc.isLocking]
    obtain ⟨r, locked, rfl⟩ := map_eq_some_iff.mp taken
    obtain ⟨free, rfl | rfl⟩ := Client.lockPing_cases locked
    · refine .leave .hub c (.ping .lock) before rfl ?_ unlocked.symm (by simp [Harmless, calling])
      exact (view_hub_client (by rfl) (by rfl) _).trans (s.view.move_of_same _ _ rfl)
    · refine .acquire .hub c (.ping .lock) (.ping .write) before rfl free rfl rfl nofun
        (view_hub_client (by rfl) (by rfl) _) unlocked.symm ?_
      simp [Harmless, calling]
  · rename_i loop rest c calling
    have before : s.view.place .hub = some (c, .close .lock) := by
      simp [view, place, calling, HubPc.place]
    have unlocked : s.hub.isLocking = false := by simp [calling, HubPc.isLocking]
    obtain ⟨r, locked, rfl⟩ := map_eq_some_iff.mp taken
    obtain ⟨free, ⟨closed, rfl⟩ | ⟨closed, rfl⟩⟩ := Client.lockClose_cases locked
    · refine .leave .hub c (.close .lock) before rfl ?_ unlocked.symm ?_
      · exact (view_hub_client (by rfl) (by rfl) _).trans (s.view.move_of_same _ _ rfl)
      · intro loop' rest' d calling'
        simp_all
    · refine .acquire .hub c (.close .lock) (.close .send) before rfl free rfl rfl nofun
        (view_hub_client (by rfl) (by rfl) _) unlocked.symm ?_
      simp [Harmless, calling, closed]
  · cases taken

theorem hub_write_effect {ok : Bool} (taken : hubStep cfg s (.write ok) = some s') :
    HasEffect cfg s (.hub (.write ok)) s' := by
  simp only [hubStep] at taken
  split at taken
  · rename_i loop rest c calling
    have before : s.view.place .hub = some (c, .ping .write) := by
      simp [view, place, calling, HubPc.place]
    have unlocked : s.hub.isLocking = false := by simp [calling, HubPc.isLocking]
    obtain ⟨r, written, rfl⟩ := map_eq_some_iff.mp taken
    obtain ⟨rfl, rfl⟩ | ⟨rfl, rfl⟩ := Client.writePing_cases written
    · exact .release .hub c (.ping .write) before rfl (view_hub_client (by rfl) (by rfl) _) unlocked.symm rfl
    · refine .fail .hub c before ?_ unlocked.symm nofun
      exact (view_hub_client (by rfl) (by rfl) _).trans (s.view.move_of_same _ _ rfl)
  · cases taken

theorem loop_effect {e : HubEvent Msg} {order : List Nat} {queue : List Msg}
    (harmless : s.Harmless cfg (.hub e)) (select : s.hub = .select) :
    HasEffect cfg s (.hub e) { s with hub := .looping loop order, broadcast := queue } := by
  refine .quiet (s.view_hub_quiet ?_ rfl) ?_ harmless
  · simp [select, HubPc.place]
  · simp [select, HubPc.isLocking]

theorem hubStep_effect {e : HubEvent Msg} (taken : hubStep cfg s e = some s') :
    HasEffect cfg s (.hub e) s' := by
  cases e with simp only [hubStep] at taken
  | register c =>
    split at taken
    · rename_i select awaits
      cases taken
      simp only [Client.awaits, Bool.and_eq_true, beq_iff_eq] at awaits
      refine .quiet (view_hub_client_quiet ?_ ?_ ?_ rfl (by rfl)) ?_ trivial
      · simp [awaits.1.2, ReaderPc.place]
      · simp [awaits.2, WriterPc.place]
      · simp [select, HubPc.place]
      · simp [select, HubPc.isLocking]
    · cases taken
  | unregister sender c =>
    split at taken
    · rename_i select
      obtain ⟨s₁, sent, rfl⟩ := map_eq_some_iff.mp taken
      exact unregister_effect select sent
    · cases taken
  | lock =>
    split at taken
    · rename_i op received
      cases taken
      refine .lock ?_ (s.view_hub_quiet ?_ rfl) rfl Iff.rfl
      · simp [received, HubPc.isLocking]
      · simp [received, HubPc.place]
    · cases taken
  | update =>
    split at taken
    · rename_i op locking
      split at taken
      · cases taken
      · cases taken
        exact apply_effect locking
    · cases taken
  | broadcast order | handOver message order | tick order =>
    split at taken
    · split at taken
      · cases taken
        exact loop_effect trivial (by assumption)
      · cases taken
    · cases taken
  | visit now parked =>
    split at taken
    · rename_i loop c rest looping
      cases taken
      exact visit_effect looping
    · cases taken
  | acquire => exact hub_acquire_effect taken
  | write ok => exact hub_write_effect taken
  | finish =>
    split at taken
    · rename_i loop looping
      cases taken
      refine .quiet (s.view_hub_quiet ?_ rfl) ?_ trivial
      · simp [looping, HubPc.place]
      · simp [looping, HubPc.isLocking]
    · cases taken

theorem step_effect {e : Event Msg} (taken : s.step cfg e = some s') : HasEffect cfg s e s' := by
  cases e with
  | connect now =>
    cases taken
    have same : (s.setClient s.next { s.client s.next with registering := true, lastPing := now }).view =
        s.view := view_setClient_quiet rfl rfl rfl
    exact .quiet same rfl trivial
  | publish message =>
    simp only [step] at taken
    split at taken
    · cases taken
      exact .quiet rfl rfl trivial
    · cases taken
  | callStop =>
    cases taken
    exact .quiet s.view_callStop rfl trivial
  | hub e => exact hubStep_effect taken
  | stop k e => exact stopStep_effect taken
  | reader c e => exact readerStep_effect taken
  | writer c e => exact writerStep_effect taken

end Steps

section Run

variable {Msg : Type}

theorem deadlockFree_iff (s : Server Msg) : s.DeadlockFree ↔ Free s.view s.hub.isLocking := by
  constructor
  · rintro ⟨hub, self, crossed⟩
    refine ⟨fun c stuck => hub ⟨c, stuck⟩, fun t c l placed waits mine => self ⟨t, c, l, placed, waits, mine⟩,
      fun k c sending => ⟨?_, fun d l calling waits mine => ?_⟩⟩
    · by_contra locking
      exact crossed ⟨k, c, sending, .inl (by simpa using locking)⟩
    · exact crossed ⟨k, c, sending, .inr ⟨d, l, calling, waits, mine⟩⟩
  · intro free
    refine ⟨fun ⟨c, stuck⟩ => free.hub c stuck, fun ⟨t, c, l, placed, waits, mine⟩ =>
      free.self t c l placed waits mine, fun ⟨k, c, sending, waiting⟩ => ?_⟩
    obtain ⟨unlocked, clear⟩ := free.crossed k c sending
    rcases waiting with locking | ⟨d, l, calling, waits, mine⟩
    · simp [unlocked] at locking
    · exact clear d l calling waits mine

theorem proper_start : Proper (start : Server Msg).view where
  owned := by
    intro t c
    cases t <;> simp [view, place, start, Client.fresh, HubPc.place, ReaderPc.place, WriterPc.place]
  closes := by simp [view, place, start]

theorem deadlockFree_start : (start : Server Msg).DeadlockFree := by
  refine (deadlockFree_iff _).mpr ⟨?_, ?_, ?_⟩
  · simp [view, place, start, HubPc.place]
  · simp [view, start, Client.fresh]
  · simp [view, place, start]

/-- For every configuration and every interleaving, the server is free of deadlocks in all states
    exactly when every step is harmless. -/
theorem run_deadlockFree_iff (cfg : Config) (events : List (Event Msg)) :
    Throughout (step cfg) DeadlockFree (start : Server Msg) events ↔
      EachStep (step cfg) (Harmless cfg) (start : Server Msg) events := by
  refine throughout_iff (fun s => Proper s.view) ?_ ?_ events proper_start deadlockFree_start
  · intro s e s' proper _ taken _
    exact (step_effect taken).proper proper
  · intro s e s' proper free taken
    exact (deadlockFree_iff s').trans
      ((step_effect taken).free_iff proper ((deadlockFree_iff s).mp free))

end Run

/-- A client connects and the hub puts it into its map. -/
def joins (c : Nat) : List (Event Nat) :=
  [.connect 0, .hub (.register c), .hub .lock, .hub .update]

/-- Two messages for a client with room for one, whose write pump takes none. -/
def fullBuffer : List (Event Nat) :=
  joins 0 ++ [.publish 1, .hub (.broadcast [0]), .hub (.visit 0 false), .hub .finish,
    .publish 2, .hub (.broadcast [0]), .hub (.visit 0 false), .hub .acquire]

def failedPing : List (Event Nat) :=
  joins 0 ++ [.hub (.tick [0]), .hub (.visit 1 false), .hub .acquire, .hub (.write false)]

/-- `Stop` closes two clients; the hub takes the first one and wants `s.mu`. -/
def stopWithTwo : List (Event Nat) :=
  joins 0 ++ joins 1 ++ [.callStop, .stop 0 (.rlock [0, 1]), .stop 0 .visit, .stop 0 .acquire,
    .hub (.unregister (.stop 0) 0), .stop 0 .visit, .stop 0 .acquire, .hub .lock]

theorem deadlocks_reached :
    (∃ s, fullBuffer.foldlM (step ⟨1, 60⟩) start = some s ∧ s.HubStuck) ∧
    (∃ s, failedPing.foldlM (step ⟨1, 60⟩) start = some s ∧ s.SelfWait) ∧
    (∃ s, stopWithTwo.foldlM (step ⟨1, 60⟩) start = some s ∧ s.MutualWait) ∧
    ¬ Throughout (step ⟨1, 60⟩) DeadlockFree (start : Server Nat) fullBuffer := by
  refine ⟨⟨_, rfl, 0, rfl⟩, ⟨_, rfl, .hub, 0, _, rfl, rfl, rfl⟩, ⟨_, rfl, 0, 1, rfl, .inl rfl⟩, ?_⟩
  exact not_throughout rfl fun free => free.1 ⟨0, rfl⟩

end Server

end Monitor.Websocket
