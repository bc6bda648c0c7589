import Monitor.Lib.RingBuffer
import Monitor.LockFree.Safety

/-! # The lock-free queue in one thread

The functions of `lockfree_queue.c` as one thread that nobody disturbs computes them: a
compare-and-swap compares with what was loaded just before. The loops run for so many
turns, and a loop that has not left by then has no result. Over it stands the purpose of
the queue, a list that holds one item less than there are slots.
-/

namespace Monitor.LockFree

open RingBuffer List Option Function

/-- `lfq_connection_t`. -/
structure Slot where
  fd : Int
  data : Pointer
  state : Nat
  deriving DecidableEq, Repr

def Slot.empty : Slot := ⟨-1, 0, 0⟩

/-- `lockfree_queue_t`. -/
structure LockfreeQueue where
  connections : Nat → Slot
  head : Nat
  tail : Nat
  capacity : Nat
  initialized : Bool

namespace LockfreeQueue

def lfqInit (capacity : Nat) : Option LockfreeQueue :=
  if capacity = 0 ∨ capacity > LFQ_MAX_CONNECTIONS then
    none
  else
    some ⟨fun _ => .empty, 0, 0, capacity, true⟩

def enqueueLoop (q : LockfreeQueue) (fd : Int) (data : Pointer) : Nat → Option (Int × LockfreeQueue)
  | 0 => none
  | turns + 1 =>
    let tail := q.tail
    let head := q.head
    let nextTail := (tail + 1) % q.capacity
    if nextTail = head then
      some (-1, q)
    else if q.tail = tail then
      some (0, { q with
        tail := nextTail
        connections := Function.update q.connections tail ⟨fd, data, 1⟩ })
    else
      q.enqueueLoop fd data turns

def lfqEnqueue (q : LockfreeQueue) (turns : Nat) (fd : Int) (data : Pointer) :
    Option (Int × LockfreeQueue) :=
  if q.initialized = false ∨ fd < 0 then some (-1, q) else q.enqueueLoop fd data turns

/-- What is written to `conn` stands beside the code that is returned. -/
def dequeueLoop (q : LockfreeQueue) : Nat → Option (Int × Option Slot × LockfreeQueue)
  | 0 => none
  | turns + 1 =>
    let head := q.head
    let tail := q.tail
    if head = tail then
      some (-1, none, q)
    else
      let nextHead := (head + 1) % q.capacity
      let state := (q.connections head).state
      if state ≠ 1 then
        q.dequeueLoop turns
      else if q.head = head then
        some (0, some ⟨(q.connections head).fd, (q.connections head).data, state⟩, { q with
            head := nextHead
            connections := Function.update q.connections head .empty })
      else
        q.dequeueLoop turns

def lfqDequeue (q : LockfreeQueue) (turns : Nat) : Option (Int × Option Slot × LockfreeQueue) :=
  if q.initialized = false then some (-1, none, q) else q.dequeueLoop turns

def lfqIsEmpty (q : LockfreeQueue) : Int :=
  if q.initialized = false then 1 else if q.head = q.tail then 1 else 0

def lfqIsFull (q : LockfreeQueue) : Int :=
  if q.initialized = false then 1 else if (q.tail + 1) % q.capacity = q.head then 1 else 0

def lfqSize (q : LockfreeQueue) : Nat :=
  if q.initialized = false then 0
  else if q.tail ≥ q.head then q.tail - q.head
  else q.capacity - q.head + q.tail

inductive Call where
  | enqueue (fd : Int) (data : Pointer)
  | dequeue
  | size
  | isEmpty
  | isFull
  deriving DecidableEq, Repr

inductive Reply where
  | enqueued (code : Int)
  | dequeued (code : Int) (conn : Option Slot)
  | size (size : Nat)
  | flag (value : Int)
  deriving DecidableEq, Repr

def call (turns : Nat) (q : LockfreeQueue) : Call → Option (Reply × LockfreeQueue)
  | .enqueue fd data => (q.lfqEnqueue turns fd data).map fun r => (.enqueued r.1, r.2)
  | .dequeue => (q.lfqDequeue turns).map fun r => (.dequeued r.1 r.2.1, r.2.2)
  | .size => some (.size q.lfqSize, q)
  | .isEmpty => some (.flag q.lfqIsEmpty, q)
  | .isFull => some (.flag q.lfqIsFull, q)

/-- The replies to a sequence of calls, none of which goes on for more than `turns` turns. -/
def replies (turns : Nat) : LockfreeQueue → List Call → Option (List Reply)
  | _, [] => some []
  | q, c :: calls =>
    match q.call turns c with
    | none => none
    | some (reply, q) => (replies turns q calls).map (reply :: ·)

end LockfreeQueue

namespace Fifo

open LockfreeQueue (Call Reply)

/-- A list of at most `limit` items, with the codes of the queue. -/
def call (limit : Nat) (items : List (Int × Pointer)) : Call → Reply × List (Int × Pointer)
  | .enqueue fd data =>
    if fd < 0 ∨ items.length = limit then
      (.enqueued (-1), items)
    else
      (.enqueued 0, items ++ [(fd, data)])
  | .dequeue =>
    match items with
    | [] => (.dequeued (-1) none, [])
    | (fd, data) :: items => (.dequeued 0 (some ⟨fd, data, 1⟩), items)
  | .size => (.size items.length, items)
  | .isEmpty => (.flag (if items = [] then 1 else 0), items)
  | .isFull => (.flag (if items.length = limit then 1 else 0), items)

def replies (limit : Nat) : List (Int × Pointer) → List Call → List Reply
  | _, [] => []
  | items, c :: calls => (call limit items c).1 :: replies limit (call limit items c).2 calls

end Fifo

namespace LockfreeQueue

def published (item : Int × Pointer) : Slot := ⟨item.1, item.2, 1⟩

/-- The queue holds the items: they lie between the indices, each with its flag set. -/
structure Holds (q : LockfreeQueue) (items : List (Int × Pointer)) : Prop where
  initialized : q.initialized = true
  window : Window q.capacity q.connections q.head q.tail (items.map published)

theorem lfqInit_holds {capacity : Nat} {q : LockfreeQueue} (accepted : lfqInit capacity = some q) :
    q.Holds [] ∧ q.capacity = capacity := by
  unfold lfqInit at accepted
  split at accepted
  · cases accepted
  · rename_i valid
    cases accepted
    exact ⟨⟨rfl, .empty (Nat.pos_of_ne_zero fun zero => valid (.inl zero)) _⟩, rfl⟩

section Refinement

variable {q : LockfreeQueue} {items : List (Int × Pointer)}

theorem Holds.lfqEnqueue (h : q.Holds items) (fd : Int) (data : Pointer) :
    ∃ q', q.call 1 (.enqueue fd data) =
        some ((Fifo.call (q.capacity - 1) items (.enqueue fd data)).1, q') ∧
      q'.Holds (Fifo.call (q.capacity - 1) items (.enqueue fd data)).2 ∧ q'.capacity = q.capacity := by
  have full := h.window.full_iff
  rw [length_map] at full
  simp only [call, LockfreeQueue.lfqEnqueue, h.initialized, Bool.true_eq_false, false_or,
    enqueueLoop, full, Fifo.call, if_true]
  by_cases negative : fd < 0
  · simp only [negative, if_true, true_or, map_some]
    exact ⟨q, rfl, h, rfl⟩
  · by_cases last : items.length = q.capacity - 1
    · simp only [negative, last, if_true, if_false, or_true, map_some]
      exact ⟨q, rfl, h, rfl⟩
    · simp only [negative, last, if_false, or_false, map_some]
      refine ⟨_, rfl, ⟨rfl, ?_⟩, rfl⟩
      rw [map_append]
      exact h.window.push (by rwa [length_map]) (published (fd, data))

theorem Holds.lfqDequeue (h : q.Holds items) :
    ∃ q', q.call 1 .dequeue = some ((Fifo.call (q.capacity - 1) items .dequeue).1, q') ∧
      q'.Holds (Fifo.call (q.capacity - 1) items .dequeue).2 ∧ q'.capacity = q.capacity := by
  have none_ := h.window.empty_iff
  simp only [call, LockfreeQueue.lfqDequeue, h.initialized, Bool.true_eq_false, if_false,
    dequeueLoop, none_]
  cases items with
  | nil =>
    exact ⟨q, rfl, h, rfl⟩
  | cons item items =>
    -- the flag of the slot at the head is set, so the loop leaves in its first turn
    have front := h.window.front
    simp only [if_false, front, published, ne_eq, not_true_eq_false, if_true, Fifo.call]
    exact ⟨_, rfl, ⟨rfl, h.window.pop .empty⟩, rfl⟩

theorem Holds.call (h : q.Holds items) (c : Call) :
    ∃ q', q.call 1 c = some ((Fifo.call (q.capacity - 1) items c).1, q') ∧
      q'.Holds (Fifo.call (q.capacity - 1) items c).2 ∧ q'.capacity = q.capacity := by
  cases c with
  | enqueue fd data => exact h.lfqEnqueue fd data
  | dequeue => exact h.lfqDequeue
  | size =>
    have size : q.lfqSize = items.length := by
      simp only [lfqSize, h.initialized, Bool.true_eq_false, if_false]
      rw [h.window.distance, length_map]
    exact ⟨q, by simp only [LockfreeQueue.call, size, Fifo.call], h, rfl⟩
  | isEmpty =>
    have none_ := h.window.empty_iff
    rw [map_eq_nil_iff] at none_
    refine ⟨q, ?_, h, rfl⟩
    simp only [LockfreeQueue.call, lfqIsEmpty, h.initialized, Bool.true_eq_false, if_false, none_,
      Fifo.call]
  | isFull =>
    have full := h.window.full_iff
    rw [length_map] at full
    refine ⟨q, ?_, h, rfl⟩
    simp only [LockfreeQueue.call, lfqIsFull, h.initialized, Bool.true_eq_false, if_false, full,
      Fifo.call]

theorem Holds.replies (calls : List Call) : ∀ {q : LockfreeQueue} {items : List (Int × Pointer)},
    q.Holds items → q.replies 1 calls = some (Fifo.replies (q.capacity - 1) items calls) := by
  induction calls with
  | nil => exact fun _ => rfl
  | cons c calls ih =>
    intro q items h
    obtain ⟨q', returned, after, same⟩ := h.call c
    simp only [LockfreeQueue.replies, returned, ih after, same, map_some, Fifo.replies]

end Refinement

/-- Every sequence of calls of one thread on a new queue is answered as by a list that holds at most
    one item less than the capacity, and no call goes round its loop twice. -/
theorem replies_fifo {capacity : Nat} {q : LockfreeQueue} (accepted : lfqInit capacity = some q)
    (calls : List Call) : q.replies 1 calls = some (Fifo.replies (capacity - 1) [] calls) := by
  obtain ⟨holds, same⟩ := lfqInit_holds accepted
  rw [holds.replies calls, same]

theorem replies_fifo_two_slots :
    lfqInit 2 = some ⟨fun _ => .empty, 0, 0, 2, true⟩ ∧
      replies 1 ⟨fun _ => .empty, 0, 0, 2, true⟩
          [.enqueue 5 100, .enqueue 6 101, .isFull, .dequeue, .enqueue (-1) 102, .dequeue, .size] =
        some [.enqueued 0, .enqueued (-1), .flag 1, .dequeued 0 (some ⟨5, 100, 1⟩), .enqueued (-1),
          .dequeued (-1) none, .size 0] := by
  have accepted : lfqInit 2 = some ⟨fun _ => .empty, 0, 0, 2, true⟩ := rfl
  exact ⟨accepted, (replies_fifo accepted _).trans (by decide)⟩

end LockfreeQueue

end Monitor.LockFree
