import Mathlib

/-! # The lock-free queue

`lfq_enqueue` and `lfq_dequeue` of `lockfree_queue.c`, one atomic access or slot access
at a time, for any family of threads under sequential consistency. The history of the
run is recorded next to the queue: the position a successful enqueue has among all
successful ones is its ticket, the words it writes carry the ticket, and no step reads
tickets or history.
-/

namespace Monitor.LockFree

def LFQ_MAX_CONNECTIONS : Nat := 4096

/-- An address; zero is `NULL`. -/
abbrev Pointer := Nat

/-- A word of a slot, with the ticket of the enqueue that wrote it. -/
structure Cell (α : Type) where
  value : α
  ticket : Option Nat
  deriving DecidableEq

/-- `lfq_connection_t`. -/
structure Connection where
  fd : Cell Int
  data : Cell Pointer
  state : Nat
  deriving DecidableEq

def Connection.empty : Connection := ⟨⟨-1, none⟩, ⟨0, none⟩, 0⟩

/-- Where a thread is, with its local variables; each value names the next access. -/
inductive Thread where
  | idle
  | enqueueTail (fd : Int) (data : Pointer)
  | enqueueHead (fd : Int) (data : Pointer) (tail : Nat)
  | enqueueCas (fd : Int) (data : Pointer) (tail : Nat)
  | writeFd (fd : Int) (data : Pointer) (tail ticket : Nat)
  | writeData (data : Pointer) (tail ticket : Nat)
  | writeState (tail ticket : Nat)
  | dequeueHead
  | dequeueTail (head : Nat)
  | dequeueState (head : Nat)
  | dequeueCas (head state : Nat)
  | readFd (head state ticket : Nat)
  | readData (head state ticket : Nat) (fd : Cell Int)
  | clearState (head ticket : Nat) (conn : Connection)
  | clearFd (head ticket : Nat) (conn : Connection)
  | clearData (head ticket : Nat) (conn : Connection)
  deriving DecidableEq

/-- `lockfree_queue_t`, the threads that use it, and the history. -/
structure Queue (ι : Type) where
  capacity : Nat
  head : Nat
  tail : Nat
  connections : Nat → Connection
  threads : ι → Thread
  /-- What the successful enqueues were given, by ticket. -/
  items : List (Int × Pointer)
  /-- How often the head was advanced. -/
  taken : Nat
  /-- The tickets of the enqueues that returned zero. -/
  completed : List Nat
  /-- What the dequeues that returned zero gave out. -/
  returned : List Connection

namespace Queue

variable {ι : Type} [DecidableEq ι]

/-- A queue as `lfq_init` leaves it, with no thread inside a call. -/
def initial (ι : Type) (capacity : Nat) : Queue ι where
  capacity := capacity
  head := 0
  tail := 0
  connections := fun _ => .empty
  threads := fun _ => .idle
  items := []
  taken := 0
  completed := []
  returned := []

def lfqInit (ι : Type) (capacity : Nat) : Option (Queue ι) :=
  if capacity = 0 ∨ capacity > LFQ_MAX_CONNECTIONS then none else some (initial ι capacity)

def next (s : Queue ι) (index : Nat) : Nat := (index + 1) % s.capacity

/-- `lfq_size`. -/
def lfqSize (s : Queue ι) : Nat :=
  if s.tail ≥ s.head then s.tail - s.head else s.capacity - s.head + s.tail

def goto (s : Queue ι) (i : ι) (t : Thread) : Queue ι :=
  { s with threads := Function.update s.threads i t }

theorem goto_self (s : Queue ι) (i : ι) (t : Thread) : (s.goto i t).threads i = t := by
  simp only [goto, Function.update_self]

theorem goto_other {i j : ι} (other : j ≠ i) (s : Queue ι) (t : Thread) :
    (s.goto i t).threads j = s.threads j := by
  simp only [goto, Function.update_of_ne other]

def put (s : Queue ι) (index : Nat) (c : Connection) : Queue ι :=
  { s with connections := Function.update s.connections index c }

theorem put_self (s : Queue ι) (i : ι) (t : Thread) (index : Nat) (c : Connection) :
    ((s.put index c).goto i t).connections index = c := by
  simp only [goto, put, Function.update_self]

/-- The tail is advanced, and the enqueue has its ticket. -/
def claim (s : Queue ι) (i : ι) (fd : Int) (data : Pointer) (tail : Nat) : Queue ι :=
  { s with tail := s.next tail, items := s.items ++ [(fd, data)] }.goto i
    (.writeFd fd data tail s.items.length)

/-- The state of the slot is set, and the enqueue returns zero. -/
def publish (s : Queue ι) (i : ι) (tail ticket : Nat) : Queue ι :=
  { s.put tail { s.connections tail with state := 1 } with
    completed := s.completed ++ [ticket] }.goto i .idle

/-- The head is advanced ahead of the reads. -/
def take (s : Queue ι) (i : ι) (head state : Nat) : Queue ι :=
  { s with head := s.next head, taken := s.taken + 1 }.goto i (.readFd head state s.taken)

/-- The slot is left, and the dequeue returns zero. -/
def finish (s : Queue ι) (i : ι) (head : Nat) (conn : Connection) : Queue ι :=
  { s.put head { s.connections head with data := ⟨0, none⟩ } with
    returned := s.returned ++ [conn] }.goto i .idle

/-- The next access of a thread inside a call. A weak compare-and-swap may fail without reason. -/
def proceed (s : Queue ι) (i : ι) (spurious : Bool) : Queue ι :=
  match s.threads i with
  | .idle => s
  | .enqueueTail fd data => s.goto i (.enqueueHead fd data s.tail)
  | .enqueueHead fd data tail =>
    if s.next tail = s.head then s.goto i .idle else s.goto i (.enqueueCas fd data tail)
  | .enqueueCas fd data tail =>
    if s.tail = tail ∧ spurious = false then
      s.claim i fd data tail
    else
      s.goto i (.enqueueTail fd data)
  | .writeFd fd data tail ticket =>
    (s.put tail { s.connections tail with fd := ⟨fd, some ticket⟩ }).goto i
      (.writeData data tail ticket)
  | .writeData data tail ticket =>
    (s.put tail { s.connections tail with data := ⟨data, some ticket⟩ }).goto i
      (.writeState tail ticket)
  | .writeState tail ticket => s.publish i tail ticket
  | .dequeueHead => s.goto i (.dequeueTail s.head)
  | .dequeueTail head =>
    if head = s.tail then s.goto i .idle else s.goto i (.dequeueState head)
  | .dequeueState head =>
    if (s.connections head).state = 1 then
      s.goto i (.dequeueCas head (s.connections head).state)
    else
      s.goto i .dequeueHead
  | .dequeueCas head state =>
    if s.head = head ∧ spurious = false then
      s.take i head state
    else
      s.goto i .dequeueHead
  | .readFd head state ticket => s.goto i (.readData head state ticket (s.connections head).fd)
  | .readData head state ticket fd =>
    s.goto i (.clearState head ticket ⟨fd, (s.connections head).data, state⟩)
  | .clearState head ticket conn =>
    (s.put head { s.connections head with state := 0 }).goto i (.clearFd head ticket conn)
  | .clearFd head ticket conn =>
    (s.put head { s.connections head with fd := ⟨-1, none⟩ }).goto i (.clearData head ticket conn)
  | .clearData head _ conn => s.finish i head conn

inductive Choice where
  | enqueue (fd : Int) (data : Pointer)
  | dequeue
  | proceed (spurious : Bool)
  deriving DecidableEq

/-- One step of a thread: it enters a call or goes on with one. -/
def step (s : Queue ι) (i : ι) : Choice → Queue ι
  | .enqueue fd data =>
    match s.threads i with
    | .idle => if fd < 0 then s else s.goto i (.enqueueTail fd data)
    | _ => s
  | .dequeue =>
    match s.threads i with
    | .idle => s.goto i .dequeueHead
    | _ => s
  | .proceed spurious => s.proceed i spurious

def run (s : Queue ι) (actions : List (ι × Choice)) : Queue ι :=
  actions.foldl (fun s action => s.step action.1 action.2) s

end Queue

end Monitor.LockFree
