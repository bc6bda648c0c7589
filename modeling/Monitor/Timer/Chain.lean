import Monitor.Lib.Cancelling
import Monitor.Timer.TimeWheel

/-! # Calls on a chain of time wheels

A wheel, the next-level wheels that its run loop makes, and the calls of `AddTask` and
`RemoveTask` on it, one locked section, send or receive at a time. A step of a goroutine
that waits for a lock, for a task or for room in a channel changes nothing. What the
calls and the tasks did is recorded, and no step reads it.
-/

namespace Monitor.Timer

open Cancelling

inductive Call (K : Type) where
  | addTask (delay : Duration) (key : K)
  | removeTask (key : K)

def Call.key {K : Type} : Call K → K
  | .addTask _ key | .removeTask key => key

/-- A number for each call; a task is named by the call that adds it. -/
abbrev CallId := Nat

inductive Phase where
  | idle
  /-- The call waits for the lock of a wheel. `RemoveTask` holds those of the wheels before. -/
  | locking (level : Nat)
  | sending
  /-- The call releases as many locks, and then returns. -/
  | leaving (locks : Nat)
  | returned
  deriving DecidableEq

/-- The wheel after a wheel in the list is its `nextTimeWheel`. -/
structure Chain (K : Type) where
  heap : Heap K CallId
  wheels : List (TimeWheel K)
  phase : CallId → Phase
  history : List (Event CallId)

/-- What can happen next: a step of a call, or of the run loop of a wheel. -/
inductive Move where
  | begin (c : CallId)
  | lock (c : CallId)
  | send (c : CallId)
  | leave (c : CallId)
  | receive (level : Nat)
  | add (level : Nat)
  | forward (level : Nat)
  | deliver (level : Nat)
  | tick (level : Nat)
  | stop
  deriving DecidableEq

namespace Chain

variable {K : Type}

/-- The wheel after `NewTimeWheel` and `Start`. -/
def initial (tw : TimeWheel K) : Chain K := ⟨[], [tw], fun _ => .idle, []⟩

def goto (s : Chain K) (c : CallId) (p : Phase) : Chain K :=
  { s with phase := Function.update s.phase c p }

def log (s : Chain K) (events : List (Event CallId)) : Chain K :=
  { s with history := s.history ++ events }

def put (s : Chain K) (level : Nat) (heap : Heap K CallId) (tw : TimeWheel K) : Chain K :=
  { s with heap := heap, wheels := s.wheels.set level tw }

def atWheel (s : Chain K) (level : Nat) (f : TimeWheel K → Chain K) : Chain K :=
  match s.wheels[level]? with
  | none => s
  | some tw => f tw

/-- What a goroutine does once it has the lock of a wheel. -/
def withLock (s : Chain K) (level : Nat) (f : TimeWheel K → Chain K) : Chain K :=
  s.atWheel level fun tw => if tw.mu then s else f tw

/-- A send on the add channel of a wheel, and what the sender does then. -/
def enqueue (s : Chain K) (level : Nat) (task : TaskElement K CallId) (f : Chain K → Chain K) :
    Chain K :=
  s.atWheel level fun tw =>
    if room : tw.addTaskChan.length < chanSize then
      f (s.put level (s.heap ++ [task]) (tw.push s.heap.length room))
    else
      s

/-- The chain with the next wheel; `none` is the panic of `Start` on a nil wheel. -/
def grow (s : Chain K) (level : Nat) (tw : TimeWheel K) : Option (Chain K) :=
  if level + 1 < s.wheels.length then
    some s
  else
    tw.newNextTimeWheel.map fun next => { s with wheels := s.wheels ++ [next] }

/-- The run loop takes a task from the add channel. -/
def receive (s : Chain K) (level : Nat) : Chain K :=
  s.atWheel level fun tw =>
    match tw.loop, chan : tw.addTaskChan with
    | .select, e :: rest =>
      s.put level s.heap
        { tw with
          loop := .received e
          addTaskChan := rest
          addTaskChan_le := by
            have bound := tw.addTaskChan_le
            rw [chan] at bound
            exact (Nat.le_succ _).trans bound }
    | _, _ => s

variable [DecidableEq K]

def unmap (s : Chain K) (level : Nat) (tw : TimeWheel K) (key : K) : Chain K :=
  s.put level (tw.unmap s.heap key).1 (tw.unmap s.heap key).2

/-- `addTask` up to the placement, or up to its call of `AddTask` on the next wheel. -/
def add (s : Chain K) (level : Nat) : Chain K :=
  s.withLock level fun tw =>
    match tw.loop with
    | .received e =>
      match s.heap[e]? with
      | none => s
      | some task =>
        if tw.delaySlots task.delay ≥ tw.slotNum then
          match s.grow level tw with
          | none => s
          | some s => s.put level s.heap { tw with mu := true, loop := .forwarding e }
        else
          let (heap, tw) := tw.place s.heap e task
          s.put level heap { tw with loop := .select }
    | _ => s

/-- The locked section of the `AddTask` that `addTask` calls; the delay is not negative. -/
def forward (s : Chain K) (level : Nat) : Chain K :=
  s.atWheel level fun tw =>
    match tw.loop with
    | .forwarding e =>
      match s.heap[e]? with
      | none => s
      | some task =>
        s.withLock (level + 1) fun next =>
          let s := s.unmap (level + 1) next task.key
          s.put level s.heap { tw with loop := .sending e }
    | _ => s

/-- The send of the `AddTask` that `addTask` calls, and the end of `addTask`. -/
def deliver (s : Chain K) (level : Nat) : Chain K :=
  s.atWheel level fun tw =>
    match tw.loop with
    | .sending e =>
      match s.heap[e]? with
      | none => s
      | some task =>
        s.enqueue (level + 1) { task with circle := 0, removed := false } fun s =>
          s.put level s.heap { tw with mu := false, loop := .select }
    | _ => s

def tick (s : Chain K) (level : Nat) : Chain K :=
  s.withLock level fun tw =>
    match tw.loop with
    | .select =>
      let (heap, tw, executed) := tw.tickHandler s.heap
      (s.put level heap tw).log (executed.map .executed)
    | _ => s

/-- The run loop of the first wheel takes the value that `Stop` sends. -/
def stop (s : Chain K) : Chain K :=
  s.atWheel 0 fun tw =>
    match tw.loop with
    | .select => s.put 0 s.heap { tw with loop := .stopped }
    | _ => s

variable (calls : CallId → Call K)

def begin (s : Chain K) (c : CallId) : Chain K :=
  match s.phase c with
  | .idle => (s.goto c (.locking 0)).log [.began c]
  | _ => s

/-- A locked section of a call. `RemoveTask` keeps the lock and goes on with the next wheel. -/
def lock (s : Chain K) (c : CallId) : Chain K :=
  match s.phase c with
  | .locking level =>
    match calls c with
    | .addTask delay key =>
      if delay < 0 then
        s.goto c (.leaving 0)
      else
        s.withLock level fun tw => (s.unmap level tw key).goto c .sending
    | .removeTask key =>
      s.withLock level fun tw =>
        (s.unmap level { tw with mu := true } key).goto c
          (if level + 1 < s.wheels.length then .locking (level + 1) else .leaving (level + 1))
  | _ => s

def send (s : Chain K) (c : CallId) : Chain K :=
  match s.phase c with
  | .sending =>
    match calls c with
    | .addTask delay key =>
      s.enqueue 0 ⟨c, delay, key, 0, false⟩ fun s => (s.goto c .returned).log [.returned c]
    | .removeTask _ => s
  | _ => s

/-- The deferred unlocks of `RemoveTask`, last wheel first, and the return. -/
def leave (s : Chain K) (c : CallId) : Chain K :=
  match s.phase c with
  | .leaving 0 => (s.goto c .returned).log [.returned c]
  | .leaving (level + 1) =>
    s.atWheel level fun tw => (s.put level s.heap { tw with mu := false }).goto c (.leaving level)
  | _ => s

def step (s : Chain K) : Move → Chain K
  | .begin c => s.begin c
  | .lock c => s.lock calls c
  | .send c => s.send calls c
  | .leave c => s.leave c
  | .receive level => s.receive level
  | .add level => s.add level
  | .forward level => s.forward level
  | .deliver level => s.deliver level
  | .tick level => s.tick level
  | .stop => s.stop

def run (s : Chain K) (moves : List Move) : Chain K := moves.foldl (step calls) s

end Chain

end Monitor.Timer
