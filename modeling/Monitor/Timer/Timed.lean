import Monitor.Lib.Runs
import Monitor.Timer.Levels

/-! # A chain of time wheels in time

A chain under a clock. The ticker of each wheel fires every interval of its wheel, the first time
one interval after the wheel was made, and the tick is handled at that time. Everything else takes
no time, and no time passes while a task is in a channel or in the hands of a run loop. When each
task was added and executed is recorded, and no step reads it.
-/

namespace Monitor.Timer

open Cancelling TimeWheel List Option

variable {move : Move} {level : Nat} {c : CallId}

namespace Chain

variable {K : Type}

/-- How many elements of the task are on their way to a slot. -/
def onWay (s : Chain K) (c : CallId) : Nat := s.traveling.countP (named s.heap c)

def inSlots (s : Chain K) (c : CallId) : Nat := s.placed.countP (named s.heap c)

theorem countP_flatMap_append {A B : Type} (p : B → Bool) (f g : A → List B) (xs : List A) :
    (xs.flatMap fun x => f x ++ g x).countP p = (xs.flatMap f).countP p + (xs.flatMap g).countP p := by
  induction xs with
  | nil => rfl
  | cons x xs ih =>
    simp only [flatMap_cons, countP_append, ih]
    omega

theorem load_eq (s : Chain K) (c : CallId) : s.load c = s.onWay c + s.inSlots c :=
  countP_flatMap_append (named s.heap c) TimeWheel.traveling TimeWheel.placed s.wheels

variable {s s' : Chain K}

theorem Carries.onWay {added : List (TaskElement K CallId)} (allocated : s.Allocated)
    (carries : Carries added s s') (c : CallId) :
    s'.onWay c = s.onWay c + (added.map (·.task)).count c := by
  have slots : s'.inSlots c = s.inSlots c := by
    unfold inSlots
    rw [carries.placed]
    refine countP_congr fun e mem => ?_
    rw [carries.heap.named_eq c (allocated e (.inr mem))]
  have total := carries.load c
  rw [load_eq, load_eq, slots] at total
  omega

theorem Places.onWay [DecidableEq K] {tw : TimeWheel K} {e : Pointer}
    {task : TaskElement K CallId} (places : s.Places level tw e task) (c : CallId) :
    (s.put level s.heap (tw.settle s.heap e task)).onWay c + [task.task].count c = s.onWay c := by
  have balance := countP_flatMap_set (named s.heap c) TimeWheel.traveling places.wheel
    (tw.settle s.heap e task)
  have hand : tw.traveling = (tw.settle s.heap e task).traveling ++ [e] := by
    unfold TimeWheel.traveling
    rw [places.hand]
    exact congrArg (· ++ [e]) (append_nil _).symm
  rw [hand, countP_append, countP_found places.found] at balance
  change (s.put level s.heap (tw.settle s.heap e task)).onWay c + _ = s.onWay c + _ at balance
  omega

theorem onWay_afterTick [DecidableEq K] (flat : Flat s.heap) {tw : TimeWheel K}
    (at_ : s.wheels[level]? = some tw) (c : CallId) : (s.afterTick level tw).onWay c = s.onWay c := by
  have same := flatMap_set_same (f := TimeWheel.traveling) at_ (tickHandler_flat tw flat).traveling
  exact congrArg (List.countP (named s.heap c)) same

/-- An element of the task was marked, by `RemoveTask` or by a later `AddTask`. -/
def WasRemoved (s : Chain K) (c : CallId) : Prop :=
  ∃ (e : Pointer) (task : TaskElement K CallId), s.heap[e]? = some task ∧ task.task = c ∧ task.removed = true

theorem WasRemoved.kept (was : s.WasRemoved c) (kept : Kept s.heap s'.heap) :
    s'.WasRemoved c := by
  obtain ⟨e, task, found, isTask, removed⟩ := was
  obtain ⟨removed', found', still⟩ := kept e task found
  exact ⟨e, _, found', isTask, still removed⟩

theorem Stepped.returned [DecidableEq K] {calls : CallId → Call K}
    (stepped : Stepped calls s move s') (was : s.phase c = .returned) :
    s'.phase c = .returned := by
  cases stepped with
  | carried _ _ carries | sent _ _ _ carries => exact carries.phase c was
  | placed | ticked => exact was

theorem Stepped.kept [DecidableEq K] {calls : CallId → Call K}
    (stepped : Stepped calls s move s') : Kept s.heap s'.heap := by
  cases stepped with
  | carried _ _ carries | sent _ _ _ carries => exact carries.heap
  | placed | ticked => exact .refl s.heap

end Chain

structure Timed (K : Type) where
  chain : Chain K
  now : Int
  /-- When the ticker of each wheel fires next. -/
  due : List Int
  added : List (CallId × Int)
  executed : List (CallId × Int)

inductive TimedEvent where
  | move (move : Move)
  | elapse (d : Int)
  deriving DecidableEq

def executedAt (now : Int) : Event CallId → Option (CallId × Int)
  | .executed c => some (c, now)
  | .began _ | .returned _ => none

namespace Timed

variable {K : Type}

def start (tw : TimeWheel K) : Timed K := ⟨.initial tw, 0, [tw.interval.toInt], [], []⟩

/-- The elements have the delays of their calls, no ticker is late, and a task on its way was added
    at this time. -/
structure Sound (calls : CallId → Call K) (s : Timed K) : Prop where
  chain : s.chain.Sound
  delays : ∀ task ∈ s.chain.heap, ∃ key, calls task.task = .addTask task.delay key
  length : s.due.length = s.chain.wheels.length
  pending : ∀ due ∈ s.due, s.now ≤ due
  logged : ∀ c t, (c, t) ∈ s.executed → 0 < s.chain.executions c
  returned : ∀ c t, (c, t) ∈ s.added → s.chain.phase c = .returned
  prompt : ∀ c t, (c, t) ∈ s.added → 0 < s.chain.onWay c → t = s.now

theorem sound_start {calls : CallId → Call K} {interval : Duration} {slotNum : Int64} {tw : TimeWheel K}
    (made : newTimeWheel K interval slotNum = some tw) : (start tw).Sound calls := by
  refine ⟨Chain.sound_initial made, nofun, rfl, fun due mem => ?_, nofun, nofun, nofun⟩
  cases mem_singleton.mp mem
  exact tw.interval_toInt_pos.le

theorem Sound.elapsed {calls : CallId → Call K} {s : Timed K} (sound : s.Sound calls) {d : Int}
    (still : s.chain.traveling = []) (before : ∀ due ∈ s.due, s.now + d ≤ due) : Sound calls { s with now := s.now + d } := by
  refine { sound with pending := before, prompt := fun c t _ onWay => ?_ }
  rw [Chain.onWay, still] at onWay
  cases onWay

variable [DecidableEq K] (calls : CallId → Call K)

/-- The task that the move puts into the channel of the first wheel. -/
def sends (s : Timed K) : Move → List (CallId × Int)
  | .send c =>
    if s.chain.phase c = .sending ∧ (s.chain.send calls c).phase c = .returned then [(c, s.now)] else []
  | _ => []

/-- A move that is no tick; the ticker of a wheel that it makes starts now. -/
def moved (s : Timed K) (move : Move) : Timed K :=
  { s with
    chain := s.chain.step calls move
    due := s.due ++ ((s.chain.step calls move).wheels.drop s.chain.wheels.length).map
      fun tw => s.now + tw.interval.toInt
    added := s.added ++ s.sends calls move }

/-- A tick, and the next one an interval later. -/
def ticked (s : Timed K) (level : Nat) : Timed K :=
  { s with
    chain := s.chain.step calls (.tick level)
    due := s.due.modify level fun due => due + (s.chain.wheels[level]?.elim 0 fun tw => tw.interval.toInt)
    executed := s.executed ++
      ((s.chain.step calls (.tick level)).history.drop s.chain.history.length).filterMap (executedAt s.now) }

def step (s : Timed K) : TimedEvent → Option (Timed K)
  | .elapse d =>
    if 0 < d ∧ s.chain.traveling = [] ∧ ∀ due ∈ s.due, s.now + d ≤ due then
      some { s with now := s.now + d }
    else
      none
  | .move (.tick level) =>
    if s.due[level]? = some s.now ∧ s.chain.ticks level (.tick level) then
      some (s.ticked calls level)
    else
      none
  | .move move => some (s.moved calls move)

inductive Steps (s : Timed K) : TimedEvent → Timed K → Prop where
  | elapsed {d : Int} (positive : 0 < d) (still : s.chain.traveling = [])
      (before : ∀ due ∈ s.due, s.now + d ≤ due) : Steps s (.elapse d) { s with now := s.now + d }
  | ticked {level : Nat} (due : s.due[level]? = some s.now) (handled : s.chain.ticks level (.tick level)) :
      Steps s (.move (.tick level)) (s.ticked calls level)
  | moved {move : Move} (other : ∀ level, move ≠ .tick level) : Steps s (.move move) (s.moved calls move)

variable {calls} {event : TimedEvent}

theorem step_cases {s s' : Timed K} (taken : s.step calls event = some s') :
    Steps calls s event s' := by
  cases event with
  | elapse d =>
    simp only [step, ite_none_right_eq_some, some.injEq] at taken
    obtain ⟨⟨pos, still, before⟩, rfl⟩ := taken
    exact .elapsed pos still before
  | move move =>
    cases move with
    | tick level =>
      simp only [step, ite_none_right_eq_some, some.injEq] at taken
      obtain ⟨⟨due, handled⟩, rfl⟩ := taken
      exact .ticked due handled
    | begin | lock | send | leave | receive | add | forward | deliver | stop =>
      cases taken
      exact .moved nofun

section Steps

variable {s : Timed K}

theorem ticked_chain (sound : s.Sound calls) (handled : s.chain.ticks level (.tick level)) :
    ∃ tw, s.chain.wheels[level]? = some tw ∧ (s.ticked calls level).chain = s.chain.afterTick level tw ∧
      (s.ticked calls level).due = s.due.modify level (· + tw.interval.toInt) ∧
      (s.ticked calls level).executed =
        s.executed ++ (dueTasks s.chain.heap tw.currentList).map fun c => (c, s.now) := by
  have stepped : Chain.Stepped calls s.chain (.tick level) (s.chain.step calls (.tick level)) :=
    sound.chain.step_cases (.tick level)
  obtain ⟨tw, at_, after⟩ := Chain.stepped_tick stepped handled
  refine ⟨tw, at_, after, ?_, ?_⟩
  · simp [ticked, at_]
  · have history : (s.chain.step calls (.tick level)).history =
        s.chain.history ++ (dueTasks s.chain.heap tw.currentList).map .executed := by
      rw [after]
      rfl
    unfold ticked
    rw [history, drop_left, filterMap_map]
    exact congrArg (s.executed ++ ·) (congrFun filterMap_eq_map _)

theorem Sound.ticked (sound : s.Sound calls) (handled : s.chain.ticks level (.tick level)) :
    (s.ticked calls level).Sound calls := by
  obtain ⟨tw, at_, chain, due, executed⟩ := ticked_chain sound handled
  refine ⟨?_, ?_, ?_, ?_, ?_, ?_, ?_⟩
  · rw [chain]
    exact sound.chain.ticked at_
  · rw [chain]
    exact sound.delays
  · rw [due, chain, length_modify]
    exact sound.length.trans length_set.symm
  · intro other mem
    rw [due] at mem
    obtain ⟨i, at_i⟩ := getElem?_of_mem mem
    rw [getElem?_modify] at at_i
    obtain ⟨old, was, rfl⟩ := map_eq_some_iff.mp at_i
    have before := sound.pending old (mem_of_getElem? was)
    have pos := tw.interval_toInt_pos
    change s.now ≤ _
    split
    · omega
    · exact before
  · intro c t mem
    rw [chain, Chain.ticked_executions, ← count_dueTasks]
    rw [executed, mem_append] at mem
    obtain old | new := mem
    · exact Nat.lt_of_lt_of_le (sound.logged c t old) (Nat.le_add_right _ _)
    · obtain ⟨c', due', same⟩ := mem_map.mp new
      cases same
      exact Nat.lt_of_lt_of_le (count_pos_iff.mpr due') (Nat.le_add_left _ _)
  · rw [chain]
    exact sound.returned
  · rw [chain]
    intro c t mem onWay
    rw [Chain.onWay_afterTick sound.chain.flat at_] at onWay
    exact sound.prompt c t mem onWay

theorem moved_cases (sound : s.Sound calls) (move : Move) :
    Chain.Stepped calls s.chain move (s.moved calls move).chain :=
  sound.chain.step_cases move

theorem moved_due (sound : s.Sound calls) (move : Move) :
    (s.moved calls move).due.length = (s.moved calls move).chain.wheels.length ∧
      ∀ due ∈ (s.moved calls move).due, s.now ≤ due := by
  constructor
  · have grown : s.chain.wheels.length ≤ (s.chain.step calls move).wheels.length := by
      cases Chain.step_grown calls s.chain move with
      | same length => omega
      | next _ last _ _ length _ => omega
    have more := sound.length
    simp only [moved, length_append, length_map, length_drop]
    omega
  · intro due mem
    obtain old | new := mem_append.mp mem
    · exact sound.pending due old
    · obtain ⟨tw, _, rfl⟩ := mem_map.mp new
      have pos := tw.interval_toInt_pos
      omega

theorem moved_executions (sound : s.Sound calls) (other : ∀ level, move ≠ .tick level)
    (c : CallId) : (s.moved calls move).chain.executions c = s.chain.executions c := by
  generalize chain : (s.moved calls move).chain = after
  have stepped := moved_cases sound move
  rw [chain] at stepped
  cases stepped with
  | carried _ _ carries | sent _ _ _ carries => exact carries.executions c
  | placed => rfl
  | ticked => exact absurd rfl (other _)

theorem moved_delays (sound : s.Sound calls) (move : Move) :
    ∀ task ∈ (s.moved calls move).chain.heap, ∃ key, calls task.task = .addTask task.delay key := by
  generalize chain : (s.moved calls move).chain = after
  have stepped := moved_cases sound move
  rw [chain] at stepped
  have known : ∀ {task : TaskElement K CallId},
      (∃ old ∈ s.chain.heap, old.task = task.task ∧ old.delay = task.delay) →
      ∃ key, calls task.task = .addTask task.delay key := by
    rintro task ⟨old, mem, sameTask, sameDelay⟩
    rw [← sameTask, ← sameDelay]
    exact sound.delays old mem
  cases stepped with
  | carried _ _ carries => exact fun task mem => known ((carries.elements task mem).resolve_right nofun)
  | @sent c delay key _ call _ _ carries =>
    intro task mem
    obtain old | new := carries.elements task mem
    · exact known old
    · cases mem_singleton.mp new
      exact ⟨key, call⟩
  | placed | ticked => exact sound.delays

theorem mem_moved_added {t : Int} (mem : (c, t) ∈ (s.moved calls move).added) :
    (c, t) ∈ s.added ∨ t = s.now ∧ move = .send c ∧ s.chain.phase c = .sending ∧
      (s.moved calls move).chain.phase c = .returned := by
  obtain old | new := mem_append.mp mem
  · exact .inl old
  · right
    cases move with
    | send c' =>
      simp only [sends] at new
      split at new
      · rename_i sent
        cases mem_singleton.mp new
        exact ⟨rfl, rfl, sent⟩
      · cases new
    | begin | lock | leave | receive | add | forward | deliver | tick | stop => cases new

theorem moved_onWay (sound : s.Sound calls) (sent : s.chain.phase c = .returned)
    (onWay : 0 < (s.moved calls move).chain.onWay c) : 0 < s.chain.onWay c := by
  generalize chain : (s.moved calls move).chain = after at onWay
  have stepped := moved_cases sound move
  rw [chain] at stepped
  cases stepped with
  | carried _ _ carries =>
    rw [carries.onWay sound.chain.allocated] at onWay
    exact onWay
  | @sent c' _ _ _ _ sending _ carries =>
    have apart : c' ≠ c := by
      rintro rfl
      simp [sent] at sending
    rw [carries.onWay sound.chain.allocated, map_singleton, count_singleton,
      if_neg (by simpa using apart)] at onWay
    exact onWay
  | placed places =>
    have balance := places.onWay c
    omega
  | ticked at_ _ =>
    rw [Chain.onWay_afterTick sound.chain.flat at_] at onWay
    exact onWay

theorem Sound.moved (sound : s.Sound calls) (other : ∀ level, move ≠ .tick level) :
    (s.moved calls move).Sound calls := by
  have stepped := moved_cases sound move
  obtain ⟨length, pending⟩ := moved_due sound move
  refine ⟨sound.chain.stepped stepped, moved_delays sound move, length, pending, fun c t mem => ?_,
    fun c t mem => ?_, fun c t mem onWay => ?_⟩
  · rw [moved_executions sound other]
    exact sound.logged c t mem
  · obtain old | ⟨_, _, _, returned⟩ := mem_moved_added mem
    · exact stepped.returned (sound.returned c t old)
    · exact returned
  · obtain old | ⟨now, _⟩ := mem_moved_added mem
    · exact sound.prompt c t old (moved_onWay sound (sound.returned c t old) onWay)
    · exact now

theorem Sound.step {s' : Timed K} (sound : s.Sound calls)
    (taken : s.step calls event = some s') : s'.Sound calls := by
  cases step_cases taken with
  | elapsed _ still before => exact sound.elapsed still before
  | ticked _ handled => exact sound.ticked handled
  | moved other => exact sound.moved other

end Steps

end Timed

end Monitor.Timer
