import Monitor.Lib.Runs
import Monitor.Queue.MessageQueue

/-! # The statistics of the queue

`Publish`, `Ack` and `Nack` count on their success paths, and `DEL` succeeds for a key that is not
there: an `Ack` counts one message whatever its identifier is. Beside the queue stand the published
messages, each finished once an `Ack` names it or it is pushed to a dead letter list.
-/

namespace Monitor.Queue

open GoText Runs List Option

/-- A published message: its identifier, and whether it is acked or dead. -/
abbrev Tracked : Type := GoString × Bool

def Tracked.finish (m : Tracked) : Tracked := (m.1, true)

def unfinished (messages : List Tracked) : Nat := messages.countP fun m => !m.2

def unfinishedWith (id : GoString) (messages : List Tracked) : Nat := messages.count (id, false)

/-- The messages after the next command of a thread. -/
def Thread.tracks (messages : List Tracked) : Thread → List Tracked
  | .pushing _ id => messages ++ [(id, false)]
  | .acking _ id => messages.map fun m => if m.1 = id then m.finish else m
  | .returning _ m serial => if m.retries > 3 then messages.modify serial Tracked.finish else messages
  | _ => messages

/-- The command finishes exactly one message, if it counts one as finished, and the counter has room for
    a message that it publishes. -/
def Thread.CountsOne (messages : List Tracked) : Thread → Prop
  | .pushing _ _ => unfinished messages + 1 < 2 ^ 63
  | .acking _ id => unfinishedWith id messages = 1
  | .returning _ m serial => m.retries > 3 → (messages[serial]?).any (!·.2) = true
  | _ => True

def Thread.counts (stats : Stats) : Thread → Stats
  | .pushing _ _ =>
    { stats with
      totalMessages := stats.totalMessages + 1
      pendingMessages := stats.pendingMessages + 1 }
  | .acking _ _ =>
    { stats with
      pendingMessages := stats.pendingMessages - 1
      processedMessages := stats.processedMessages + 1 }
  | .returning _ m _ =>
    if m.retries > 3 then
      { stats with
        pendingMessages := stats.pendingMessages - 1
        failedMessages := stats.failedMessages + 1 }
    else stats
  | _ => stats

theorem advance_stats (env : Env) (q : Config) (s : State) (handled : Bool) (thread : Thread) :
    (advance env q s handled thread).1.stats = thread.counts s.stats := by
  cases thread with
  | polling topic =>
    simp only [advance]
    split
    · rfl
    · split
      · rfl
      · split <;> rfl
  | loading topic id serial =>
    simp only [advance]
    split
    · rfl
    · split <;> rfl
  | nacking back id =>
    simp only [advance]
    split
    · rfl
    · split <;> rfl
  | returning back m serial =>
    simp only [advance, Thread.counts]
    split <;> rfl
  | storing | pushing | moving | removing | handling | acking | finished => rfl

structure Recorded where
  state : State
  messages : List Tracked

namespace Recorded

def start : Recorded := ⟨init, []⟩

def active (r : Recorded) : Action → Option Thread
  | .run i _ => r.state.threads[i]?
  | _ => none

def step (env : Env) (q : Config) (r : Recorded) (action : Action) : Option Recorded :=
  (Queue.step env q r.state action).map fun state =>
    ⟨state, (r.active action).elim r.messages (Thread.tracks r.messages)⟩

def Balanced (r : Recorded) : Prop :=
  r.state.stats.pendingMessages =
    r.state.stats.totalMessages - r.state.stats.processedMessages - r.state.stats.failedMessages

def Truthful (r : Recorded) : Prop := r.state.stats.pendingMessages.toInt = unfinished r.messages

def CountsOne (r : Recorded) (action : Action) : Prop :=
  ∀ thread, r.active action = some thread → thread.CountsOne r.messages

end Recorded

theorem unfinished_acked (id : GoString) (messages : List Tracked) :
    unfinished (messages.map fun m => if m.1 = id then m.finish else m) + unfinishedWith id messages =
      unfinished messages := by
  unfold unfinished unfinishedWith
  induction messages with
  | nil => rfl
  | cons m messages ih =>
    have here : (if (!(if m.1 = id then m.finish else m).2) = true then 1 else 0) +
        (if (m == (id, false)) = true then 1 else 0) = if (!m.2) = true then 1 else 0 := by
      obtain ⟨id', finished⟩ := m
      by_cases same : id' = id
      · cases finished <;> simp [same, Tracked.finish]
      · simp [same]
    simp only [map_cons, countP_cons, count_cons, ← ih, ← here]
    omega

theorem unfinished_modify (serial : Nat) (messages : List Tracked) :
    unfinished (messages.modify serial Tracked.finish) + ((messages[serial]?).any (!·.2)).toNat =
      unfinished messages := by
  unfold unfinished
  induction messages generalizing serial with
  | nil => simp
  | cons m messages ih =>
    cases serial with
    | zero => cases finished : m.2 <;> simp [finished, Tracked.finish]
    | succ serial =>
      simp only [modify_succ_cons, countP_cons, getElem?_cons_succ, ← ih serial]
      omega

theorem truthful_publish {pending : Int64} {before : Nat} (truthful : pending.toInt = before) :
    (pending + 1).toInt = (before + 1 : Nat) ↔ before + 1 < 2 ^ 63 := by
  have := pending.toInt_lt
  rw [Int64.toInt_add, truthful, Int64.toInt_one, Int.bmod_def]
  omega

theorem truthful_finish {pending : Int64} {before after k : Nat} (truthful : pending.toInt = before)
    (finishes : after + k = before) : (pending - 1).toInt = after ↔ k = 1 := by
  have := pending.toInt_lt
  rw [Int64.toInt_sub, truthful, Int64.toInt_one, Int.bmod_def]
  omega

theorem Thread.truthful_iff (stats : Stats) (messages : List Tracked) (thread : Thread)
    (truthful : stats.pendingMessages.toInt = unfinished messages) :
    (thread.counts stats).pendingMessages.toInt = unfinished (thread.tracks messages) ↔
      thread.CountsOne messages := by
  cases thread with
  | pushing topic id =>
    have one : unfinished (messages ++ [(id, false)]) = unfinished messages + 1 := countP_append
    simp only [counts, tracks, CountsOne, one]
    exact truthful_publish truthful
  | acking back id => exact truthful_finish truthful (unfinished_acked id messages)
  | returning back m serial =>
    simp only [counts, tracks, CountsOne]
    split
    · rename_i dead
      refine (truthful_finish truthful (unfinished_modify serial messages)).trans ?_
      simp [dead, Bool.toNat_eq_one]
    · rename_i alive
      exact iff_of_true truthful fun dead => absurd dead alive
  | storing | polling | loading | moving | removing | handling | nacking | finished =>
    exact iff_of_true truthful trivial

namespace Recorded

variable {env : Env} {q : Config} {r r' : Recorded} {action : Action}

theorem step_cases (taken : r.step env q action = some r') :
    r'.state.stats = (r.active action).elim r.state.stats (Thread.counts r.state.stats) ∧
      r'.messages = (r.active action).elim r.messages (Thread.tracks r.messages) := by
  obtain ⟨state, next, rfl⟩ := map_eq_some_iff.mp taken
  refine ⟨?_, rfl⟩
  cases action with
  | run i handled =>
    obtain ⟨thread, here, rfl⟩ := map_eq_some_iff.mp next
    simp only [active, here, elim_some]
    exact advance_stats env q r.state handled thread
  | publish | subscribe | ack | nack =>
    cases next
    rfl

theorem Balanced.step (balanced : r.Balanced) (taken : r.step env q action = some r') : r'.Balanced := by
  unfold Balanced at balanced ⊢
  rw [(step_cases taken).1]
  cases r.active action with
  | none => exact balanced
  | some thread =>
    simp only [elim_some]
    cases thread with
    | pushing | acking =>
      simp only [Thread.counts]
      grind
    | returning back m serial =>
      simp only [Thread.counts]
      split
      · simp only
        grind
      · exact balanced
    | storing | polling | loading | moving | removing | handling | nacking | finished => exact balanced

theorem Truthful.step_iff (truthful : r.Truthful) (taken : r.step env q action = some r') :
    r'.Truthful ↔ r.CountsOne action := by
  obtain ⟨stats, messages⟩ := step_cases taken
  unfold Truthful CountsOne
  rw [stats, messages]
  cases r.active action with
  | none => exact iff_of_true truthful fun _ found => by cases found
  | some thread =>
    simp only [elim_some, some.injEq, forall_eq']
    exact thread.truthful_iff r.state.stats r.messages truthful

/-- In every run the pending messages are those that are neither processed nor failed by the counters.
    They are the unfinished messages, so that they are never negative, exactly in the runs in which
    each `Ack` and each dead letter finishes one message and the counter has room for each published one. -/
theorem counters_truthful_iff (env : Env) (q : Config) (actions : List Action) :
    Throughout (step env q) Balanced start actions ∧
      (Throughout (step env q) Truthful start actions ↔ EachStep (step env q) CountsOne start actions) := by
  constructor
  · exact throughout_of_kept Balanced (fun _ => id) (fun _ _ _ balanced taken => balanced.step taken)
      actions rfl
  · exact throughout_iff (fun _ => True) (fun _ _ _ _ _ _ _ => trivial)
      (fun _ _ _ _ truthful taken => truthful.step_iff taken) actions trivial rfl

/-- Nothing was ever published. -/
theorem unknown_ack_negative :
    ([.ack (ascii "x"), .run 0 true].foldlM (step ⟨Json.noFloats, fun _ => true⟩ ⟨[], []⟩) start).map
        (fun r => (r.state.stats.pendingMessages, r.messages)) = some (-1, []) ∧
      ¬ Throughout (step ⟨Json.noFloats, fun _ => true⟩ ⟨[], []⟩) Truthful start
        [.ack (ascii "x"), .run 0 true] := by
  refine ⟨rfl, not_throughout rfl ?_⟩
  exact fun truthful => absurd (show (-1 : Int) = 0 from truthful) (by decide)

end Recorded

end Monitor.Queue
