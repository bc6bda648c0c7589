import Monitor.Timer.Tasks

/-! # Replacing and removing tasks

The last locked section of a call marks the element that the task map of one wheel holds
for the key. What else is alive for the key is missed: a task that is still in an add
channel or in the hands of a run loop, that is in the slots of another wheel, or whose
entry in the map was overwritten or deleted. Where a call misses nothing, no task that
was added before it is executed after it (`covered_respected`).
-/

namespace Monitor.Timer

open Cancelling Function

variable {K : Type}

def Phase.stage : Phase → Stage
  | .idle => .idle
  | .locking _ => .pending
  | .sending | .leaving _ => .settled
  | .returned => .returned

def SameKey (calls : CallId → Call K) (a c : CallId) : Prop := (calls a).key = (calls c).key

instance [DecidableEq K] (calls : CallId → Call K) : DecidableRel (SameKey calls) :=
  fun a c => inferInstanceAs (Decidable ((calls a).key = (calls c).key))

namespace Chain

def view (s : Chain K) : View CallId := ⟨Phase.stage ∘ s.phase, s.Alive, s.history⟩

theorem stage_goto {s : Chain K} {c : CallId} (p : Phase) :
    Phase.stage ∘ (s.goto c p).phase = update (Phase.stage ∘ s.phase) c p.stage :=
  comp_update _ _ _ _

theorem stage_goto_same {s : Chain K} {c : CallId} {p : Phase} (same : (s.phase c).stage = p.stage) :
    Phase.stage ∘ (s.goto c p).phase = Phase.stage ∘ s.phase := by
  rw [stage_goto, ← same]
  exact update_eq_self c (Phase.stage ∘ s.phase)

/-- The step is one of those of the library, and no pointer dangles after it. -/
structure Seen (calls : CallId → Call K) (s s' : Chain K) : Prop where
  step : Cancelling.Step (SameKey calls) s.view s'.view
  allocated : s'.Allocated

theorem Quiet.seen {calls : CallId → Call K} {s s' : Chain K} (quiet : Quiet s s') : Seen calls s s' :=
  ⟨.quiet (congrArg (Phase.stage ∘ ·) quiet.phase) quiet.history quiet.alive, quiet.allocated⟩

section

variable {calls : CallId → Call K} {s : Chain K}

theorem begin_seen (allocated : s.Allocated) (c : CallId) : Seen calls s (s.begin c) := by
  rw [begin]
  split
  · rename_i idle
    refine ⟨.begins c ?_ (stage_goto _) rfl fun _ => id, allocated⟩
    simp only [view, comp_apply, idle, Phase.stage]
  · exact (quiet_refl allocated).seen

theorem send_seen (allocated : s.Allocated) (c : CallId) : Seen calls s (s.send calls c) := by
  rw [send]
  split
  · rename_i sending
    split
    · refine enqueue_cases allocated (quiet_refl allocated).seen
        fun s' phase history allocated' alive' _ => ⟨.returns c ?_ ?_ ?_ alive', allocated'⟩
      · simp only [view, comp_apply, sending, Phase.stage]
      · exact (stage_goto _).trans (by rw [phase]; rfl)
      · exact congrArg (· ++ _) history
    · exact (quiet_refl allocated).seen
  · exact (quiet_refl allocated).seen

theorem leave_seen (allocated : s.Allocated) (c : CallId) : Seen calls s (s.leave c) := by
  rw [leave]
  split
  · rename_i leaving
    refine ⟨.returns c ?_ (stage_goto _) rfl fun _ => .inl, allocated⟩
    simp only [view, comp_apply, leaving, Phase.stage]
  · rename_i level leaving
    refine atWheel_cases (quiet_refl allocated).seen fun tw at_ => ?_
    have moved : Moved s (s.put level s.heap { tw with mu := false }) :=
      .put at_ (.refl s.heap) (fun _ => id) fun _ => .inl
    have settled : (s.phase c).stage = .settled := by
      rw [leaving]
      rfl
    exact ⟨.quiet (stage_goto_same settled) rfl fun _ => moved.alive, moved.allocated allocated⟩
  · exact (quiet_refl allocated).seen

end

variable [DecidableEq K] (calls : CallId → Call K)

/-- What the map of a wheel holds for a key, if its lock is free. -/
def lookup (s : Chain K) (level : Nat) (key : K) : Option (Option Pointer) :=
  (s.wheels[level]?.filter (!·.mu)).map fun tw => GoMap.get key tw.taskMap

/-- What the last locked section of a call finds, if it can be taken now. -/
def lastSection (s : Chain K) (c : CallId) : Option (Option Pointer) :=
  match s.phase c with
  | .locking level =>
    match calls c with
    | .addTask delay key => if delay < 0 then some none else s.lookup level key
    | .removeTask key => if level + 1 < s.wheels.length then none else s.lookup level key
  | _ => none

/-- The last locked section of the call misses no task of an earlier call for its key. -/
def Covered (s : Chain K) (c : CallId) : Prop :=
  ∀ found ∈ s.lastSection calls c,
    (∀ e ∈ s.traveling, ∀ task ∈ s.heap[e]?, ¬ Earlier (SameKey calls) s.history task.task c) ∧
    (∀ e ∈ s.placed, ∀ task ∈ s.heap[e]?, task.removed = false →
      Earlier (SameKey calls) s.history task.task c → found = some e)

def CoveredMove (s : Chain K) : Move → Prop
  | .lock c => s.Covered calls c
  | _ => True

def CoveredRun (s : Chain K) : List Move → Prop
  | [] => True
  | move :: moves => s.CoveredMove calls move ∧ CoveredRun (s.step calls move) moves

instance (s : Chain K) (c : CallId) : Decidable (s.Covered calls c) :=
  inferInstanceAs (Decidable (∀ found ∈ s.lastSection calls c, _ ∧ _))

instance (s : Chain K) : DecidablePred (s.CoveredMove calls)
  | .lock c => inferInstanceAs (Decidable (s.Covered calls c))
  | .begin _ | .send _ | .leave _ | .receive _ | .add _ | .forward _ | .deliver _ | .tick _
  | .stop => inferInstanceAs (Decidable True)

instance decidableCoveredRun (s : Chain K) : DecidablePred (s.CoveredRun calls)
  | [] => inferInstanceAs (Decidable True)
  | move :: moves =>
    have := decidableCoveredRun (s.step calls move) moves
    inferInstanceAs (Decidable (s.CoveredMove calls move ∧ (s.step calls move).CoveredRun calls moves))

variable {calls} {s : Chain K} {c : CallId}

theorem lookup_cases {level : Nat} {key : K} {P : Option (Option Pointer) → Chain K → Prop}
    {f : TimeWheel K → Chain K} (waits : P none s)
    (goes : ∀ tw, s.wheels[level]? = some tw → P (some (GoMap.get key tw.taskMap)) (f tw)) :
    P (s.lookup level key) (s.withLock level f) := by
  rw [lookup, withLock, atWheel]
  cases at_ : s.wheels[level]? with
  | none => exact waits
  | some tw =>
    cases free : tw.mu with
    | true => simpa [Option.filter, free] using waits
    | false => simpa [Option.filter, free] using goes tw at_

/-- What the last locked section of a call does. -/
structure Settles (s s' : Chain K) (c : CallId) (found : Option Pointer) : Prop where
  marked : Marked s s' found
  pending : (s.phase c).stage = .pending
  stage : Phase.stage ∘ s'.phase = update (Phase.stage ∘ s.phase) c .settled
  history : s'.history = s.history

/-- A call takes its last locked section, or its step is not seen. -/
inductive Outcome (calls : CallId → Call K) (s : Chain K) (c : CallId) :
    Option (Option Pointer) → Chain K → Prop where
  | settles {found : Option Pointer} {s' : Chain K} (settles : Settles s s' c found) :
      Outcome calls s c (some found) s'
  | unseen {s' : Chain K} (seen : s.Allocated → Seen calls s s') : Outcome calls s c none s'

theorem lock_outcome (calls : CallId → Call K) (s : Chain K) (c : CallId) :
    Outcome calls s c (s.lastSection calls c) (s.lock calls c) := by
  have waits (allocated : s.Allocated) : Seen calls s s := (quiet_refl allocated).seen
  rw [lock, lastSection]
  cases at_ : s.phase c with
  | locking level =>
    have pending : (s.phase c).stage = .pending := by
      rw [at_]
      rfl
    cases calls c with
    | addTask delay key =>
      dsimp only
      split
      · exact .settles ⟨⟨rfl, rfl, rfl⟩, pending, stage_goto _, rfl⟩
      · refine lookup_cases (.unseen waits) fun tw wheel => .settles ?_
        exact ⟨(unmap_marked wheel tw rfl rfl key).goto c _, pending, stage_goto _, rfl⟩
    | removeTask key =>
      dsimp only
      split
      · refine .unseen fun allocated => withLock_cases (waits allocated) fun tw wheel _ => ?_
        have moved := (unmap_marked wheel { tw with mu := true } rfl rfl key).moved
        exact ⟨.quiet (stage_goto_same pending) rfl fun _ => moved.alive, moved.allocated allocated⟩
      · refine lookup_cases (.unseen waits) fun tw wheel => .settles ?_
        exact ⟨(unmap_marked wheel { tw with mu := true } rfl rfl key).goto c _, pending,
          stage_goto _, rfl⟩
  | _ => exact .unseen waits

theorem covered_iff {found : Option Pointer} (last : s.lastSection calls c = some found) :
    s.Covered calls c ↔ ∀ a, Earlier (SameKey calls) s.history a c → ¬ (s.lock calls c).Alive a := by
  have marked : Marked s (s.lock calls c) found := by
    have outcome := lock_outcome calls s c
    rw [last] at outcome
    cases outcome with
    | settles settles => exact settles.marked
  have alive := marked.alive_iff
  constructor
  · intro covered a earlier lives
    obtain ⟨noTravel, inMap⟩ := covered found last
    obtain ⟨e, task, at_, rfl, held | ⟨held, unmarked, other⟩⟩ := (alive a).mp lives
    · exact noTravel e held task at_ earlier
    · exact other (inMap e held task at_ unmarked earlier)
  · intro none found' last'
    obtain rfl := Option.some_inj.mp (last.symm.trans last')
    refine ⟨fun e held task at_ earlier => ?_, fun e held task at_ unmarked earlier => ?_⟩
    · exact none task.task earlier ((alive task.task).mpr ⟨e, task, at_, rfl, .inl held⟩)
    · by_contra other
      exact none task.task earlier
        ((alive task.task).mpr ⟨e, task, at_, rfl, .inr ⟨held, unmarked, other⟩⟩)

theorem lock_seen (allocated : s.Allocated) (covered : s.Covered calls c) :
    Seen calls s (s.lock calls c) := by
  have outcome := lock_outcome calls s c
  cases last : s.lastSection calls c with
  | some found =>
    have cancels := (covered_iff last).mp covered
    rw [last] at outcome
    cases outcome with
    | settles settles =>
      have moved := settles.marked.moved
      exact ⟨.settles c settles.pending settles.stage settles.history (fun _ => moved.alive)
        cancels, moved.allocated allocated⟩
  | none =>
    rw [last] at outcome
    cases outcome with
    | unseen seen => exact seen allocated

theorem tick_seen (allocated : s.Allocated) (level : Nat) : Seen calls s (s.tick level) := by
  refine withLock_cases (quiet_refl allocated).seen fun tw at_ _ => ?_
  split
  · obtain ⟨moved, executed⟩ := tickHandler_moved at_
    exact ⟨.executes _ rfl rfl executed fun _ => moved.alive, moved.allocated allocated⟩
  · exact (quiet_refl allocated).seen

theorem step_seen (allocated : s.Allocated) {move : Move} (covered : s.CoveredMove calls move) :
    Seen calls s (s.step calls move) := by
  cases move with
  | begin c => exact begin_seen allocated c
  | lock c => exact lock_seen allocated covered
  | send c => exact send_seen allocated c
  | leave c => exact leave_seen allocated c
  | receive level => exact (receive_quiet allocated level).seen
  | add level => exact (add_quiet allocated level).seen
  | forward level => exact (forward_quiet allocated level).seen
  | deliver level => exact (deliver_quiet allocated level).seen
  | tick level => exact tick_seen allocated level
  | stop => exact (stop_quiet allocated).seen

theorem run_inv (allocated : s.Allocated) (inv : Inv (SameKey calls) s.view) {moves : List Move}
    (covered : s.CoveredRun calls moves) : Inv (SameKey calls) (s.run calls moves).view := by
  induction moves generalizing s with
  | nil => exact inv
  | cons move moves ih =>
    obtain ⟨step, allocated'⟩ := step_seen allocated covered.1
    exact ih allocated' (step.inv inv) covered.2

/-- No task is executed after a call for its key that began after the task was added. -/
theorem covered_respected (calls : CallId → Call K) {interval : Duration} {slotNum : Int64}
    {tw : TimeWheel K} (made : TimeWheel.newTimeWheel K interval slotNum = some tw)
    (moves : List Move) (covered : (initial tw).CoveredRun calls moves) :
    Respected (SameKey calls) ((initial tw).run calls moves).history := by
  obtain ⟨noTravel, noPlace⟩ := newTimeWheel_empty made
  have allocated : (initial tw).Allocated := by
    intro e held
    simp [traveling, placed, initial, noTravel, noPlace] at held
  exact (run_inv allocated (.initial rfl) covered).respected

section Scenarios

private def wheel : TimeWheel Unit :=
  (TimeWheel.newTimeWheel Unit 1000000000 3).get (by decide +kernel)

private def twoCalls (delay : Duration) (second : Call Unit) : CallId → Call Unit
  | 0 => .addTask delay ()
  | _ => second

private def placedFirst : List Move :=
  [.begin 0, .lock 0, .send 0, .receive 0, .add 0, .begin 1, .lock 1, .leave 1, .leave 1, .tick 0]

theorem covered_respected_placed :
    (initial wheel).CoveredRun (twoCalls 0 (.removeTask ())) placedFirst ∧
      Respected (SameKey (twoCalls 0 (.removeTask ())))
        ((initial wheel).run (twoCalls 0 (.removeTask ())) placedFirst).history :=
  ⟨by decide +kernel, covered_respected (twoCalls 0 (.removeTask ())) (Option.some_get _).symm
    placedFirst (by decide +kernel)⟩

/-- The task is still in the channel when it is removed. -/
private def removedInChannel : List Move :=
  [.begin 0, .lock 0, .send 0, .begin 1, .lock 1, .leave 1, .leave 1, .receive 0, .add 0, .tick 0]

/-- The task is still in the channel when it is replaced. -/
private def replacedInChannel : List Move :=
  [.begin 0, .lock 0, .send 0, .begin 1, .lock 1, .send 1, .receive 0, .add 0, .tick 0]

/-- The task is in a slot of the next wheel when it is replaced. -/
private def replacedBelow : List Move :=
  [.begin 0, .lock 0, .send 0, .receive 0, .add 0, .forward 0, .deliver 0, .receive 1, .add 1,
    .begin 1, .lock 1, .send 1, .tick 1, .tick 1]

/-- The first task is executed after the second call has returned. -/
theorem missed_task_executed :
    ((initial wheel).run (twoCalls 0 (.removeTask ())) removedInChannel).history =
        [.began 0, .returned 0, .began 1, .returned 1, .executed 0] ∧
      ¬ Respected (SameKey (twoCalls 0 (.removeTask ())))
        ((initial wheel).run (twoCalls 0 (.removeTask ())) removedInChannel).history ∧
      ¬ Respected (SameKey (twoCalls 0 (.addTask 0 ())))
        ((initial wheel).run (twoCalls 0 (.addTask 0 ())) replacedInChannel).history ∧
      ¬ Respected (SameKey (twoCalls 3000000000 (.addTask 0 ())))
        ((initial wheel).run (twoCalls 3000000000 (.addTask 0 ())) replacedBelow).history := by
  refine ⟨by decide +kernel, fun respected => ?_, fun respected => ?_, fun respected => ?_⟩
  all_goals exact respected 0 1 rfl (by decide +kernel)

end Scenarios

end Chain

end Monitor.Timer
