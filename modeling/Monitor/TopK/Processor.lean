import Monitor.Lib.MinHeap

/-! # The streaming Top-K processor

`StreamingTopKProcessor` of `streaming_topk.cpp`, over any type of host ids and any
type of values that can be compared; a `double` may be NaN, so the comparison need not be
an order. A clock reading is a number of nanoseconds since the epoch. The expire callback
is modelled by whether it is set and by the list of hosts it has been called with.
-/

namespace Monitor.TopK

open MinHeap List Function

structure Item (Host κ : Type) where
  hostId : Host
  value : κ
  timestamp : Int
  index : Int
  updateCount : Int32
  deriving DecidableEq, Repr

structure Processor (Host κ : Type) where
  minHeap : List (Item Host κ)
  itemMap : Host → Option Nat
  k : Int
  ttlSeconds : Int
  closed : Bool
  updateCount : Int64
  lastUpdate : Int
  expireCallback : Bool
  expired : List Host

/-- `duration_cast<seconds>`, which rounds towards the epoch. -/
def seconds (now : Int) : Int := now.tdiv 1000000000

namespace Processor

variable {Host κ : Type} [DecidableEq Host] [LT κ] [DecidableLT κ]

/-- The constructor, at clock reading `now`. -/
def new (k ttlSeconds now : Int) : Processor Host κ where
  minHeap := []
  itemMap := fun _ => none
  k := k
  ttlSeconds := ttlSeconds
  closed := false
  updateCount := 0
  lastUpdate := now
  expireCallback := false
  expired := []

def setExpireCallback (p : Processor Host κ) (callback : Bool) : Processor Host κ :=
  { p with expireCallback := callback }

def triggerExpireCallback (p : Processor Host κ) (hostId : Host) : Processor Host κ :=
  if p.expireCallback then { p with expired := p.expired ++ [hostId] } else p

/-- Store an item at a position, with its index field and its map entry. -/
def put (p : Processor Host κ) (i : Nat) (item : Item Host κ) : Processor Host κ :=
  { p with
    minHeap := p.minHeap.set i { item with index := i }
    itemMap := update p.itemMap item.hostId (some i) }

def forget (p : Processor Host κ) (hostId : Host) : Processor Host κ :=
  { p with itemMap := update p.itemMap hostId none }

/-- `std::swap` of two heap slots and the four assignments that follow it. -/
def exchange (p : Processor Host κ) (i j : Nat) : Processor Host κ :=
  match p.minHeap[i]?, p.minHeap[j]? with
  | some a, some b => (p.put i b).put j a
  | _, _ => p

/-- The value at a heap position; beyond the end it counts as infinite. -/
def valueAt (p : Processor Host κ) (i : Nat) : WithTop κ := (p.minHeap[i]?).map Item.value

omit [LT κ] [DecidableLT κ] in
theorem exchange_length (p : Processor Host κ) (i j : Nat) :
    (p.exchange i j).minHeap.length = p.minHeap.length := by
  simp only [exchange]
  split
  · simp only [put, length_set]
  · rfl

omit [LT κ] [DecidableLT κ] in
theorem exchange_values (p : Processor Host κ) (i j : Nat) (hi : i < p.minHeap.length)
    (hj : j < p.minHeap.length) (c : Nat) : ((p.exchange i j).minHeap[c]?).map Item.value =
      (p.minHeap[Equiv.swap i j c]?).map Item.value := by
  simp only [exchange, getElem?_eq_getElem hi, getElem?_eq_getElem hj, put,
    getElem?_set, length_set, Equiv.swap_apply_def]
  by_cases atJ : c = j
  · subst atJ
    by_cases same : c = i
    · subst same
      simp [hi]
    · simp [same, hj, getElem?_eq_getElem hi]
  · by_cases atI : c = i
    · subst atI
      simp [Ne.symm atJ, hi, getElem?_eq_getElem hj]
    · simp [atI, atJ, Ne.symm atI, Ne.symm atJ]

def store (Host κ : Type) [DecidableEq Host] :
    Store (Processor Host κ) (WithTop κ) where
  size p := p.minHeap.length
  key := valueAt
  swap := exchange
  size_swap := exchange_length
  key_swap := exchange_values

def heapifyUp (p : Processor Host κ) (index : Nat) : Processor Host κ :=
  (store Host κ).siftUp index p index

def heapifyDown (p : Processor Host κ) (index : Nat) : Processor Host κ :=
  (store Host κ).siftDown p.minHeap.length p index

/-- The last item moves to the root and the heap shrinks by one. -/
def moveLastToRoot (p : Processor Host κ) : Processor Host κ :=
  match p.minHeap.getLast? with
  | none => p
  | some last =>
    let p := p.put 0 last
    { p with minHeap := p.minHeap.dropLast }

/-- One turn of the loop of `cleanup_expired`. -/
def dropExpired (p : Processor Host κ) (root : Item Host κ) : Processor Host κ :=
  let p := p.forget root.hostId
  let p :=
    if p.minHeap.length > 1 then
      p.moveLastToRoot.heapifyDown 0
    else
      { p with minHeap := p.minHeap.dropLast }
  p.triggerExpireCallback root.hostId

def cleanupLoop (expireTime : Int) : Nat → Processor Host κ → Processor Host κ
  | 0, p => p
  | fuel + 1, p =>
    match p.minHeap[0]? with
    | none => p
    | some root =>
      if root.timestamp < expireTime then
        cleanupLoop expireTime fuel (p.dropExpired root)
      else
        p

def cleanupExpired (p : Processor Host κ) (now : Int) : Processor Host κ :=
  cleanupLoop (seconds now - p.ttlSeconds) p.minHeap.length p

/-- Update a retained item and sift it both ways. -/
def updateItem (p : Processor Host κ) (index : Nat) (value : κ) (now : Int) : Processor Host κ :=
  let p :=
    { p with
      minHeap := p.minHeap.modify index fun item =>
        { item with
          value := value, timestamp := seconds now, updateCount := item.updateCount + 1 } }
  (p.heapifyDown index).heapifyUp index

def pushItem (p : Processor Host κ) (item : Item Host κ) : Processor Host κ :=
  let index := p.minHeap.length
  let p :=
    { p with
      minHeap := p.minHeap ++ [{ item with index := index }]
      itemMap := update p.itemMap item.hostId (some index) }
  p.heapifyUp index

/-- Put an item in the place of the least one. -/
def replaceRoot (p : Processor Host κ) (root item : Item Host κ) : Processor Host κ :=
  let p := (p.forget root.hostId).put 0 item
  (p.triggerExpireCallback root.hostId).heapifyDown 0

/-- The decision both streaming functions take for one pair. -/
def offer (now : Int) (p : Processor Host κ) (hostId : Host) (value : κ) : Processor Host κ :=
  match p.itemMap hostId with
  | some index => p.updateItem index value now
  | none =>
    let newItem : Item Host κ := ⟨hostId, value, seconds now, -1, 1⟩
    if p.minHeap.length < p.k then
      p.pushItem newItem
    else
      match p.minHeap[0]? with
      | none => p
      | some root => if root.value < value then p.replaceRoot root newItem else p

def processStream (p : Processor Host κ) (now : Int) (hostId : Host) (value : κ) :
    Processor Host κ :=
  if p.closed then
    p
  else
    let p := { p with updateCount := p.updateCount + 1, lastUpdate := now }
    offer now (p.cleanupExpired now) hostId value

def processStreamBatch (p : Processor Host κ) (now : Int) (items : List (Host × κ)) :
    Processor Host κ :=
  if p.closed then
    p
  else
    let p := { p with updateCount := p.updateCount + Int64.ofNat items.length, lastUpdate := now }
    items.foldl (fun p item => offer now p item.1 item.2) (p.cleanupExpired now)

/-- One turn of the loop of `set_k`. -/
def dropRoot (p : Processor Host κ) (root : Item Host κ) : Processor Host κ :=
  let p := (p.forget root.hostId).moveLastToRoot
  (p.triggerExpireCallback root.hostId).heapifyDown 0

def shrinkLoop : Nat → Processor Host κ → Processor Host κ
  | 0, p => p
  | fuel + 1, p =>
    if p.minHeap.length > p.k then
      match p.minHeap[0]? with
      | none => p
      | some root => shrinkLoop fuel (p.dropRoot root)
    else
      p

def setK (p : Processor Host κ) (k : Int) : Processor Host κ :=
  if p.closed ∨ k ≤ 0 then p else shrinkLoop p.minHeap.length { p with k := k }

def setTtl (p : Processor Host κ) (seconds : Int) : Processor Host κ :=
  if p.closed then p else { p with ttlSeconds := seconds }

/-- Announce every retained item and empty the heap. -/
def dropAll (p : Processor Host κ) : Processor Host κ :=
  let p := p.minHeap.foldl (fun p item => p.triggerExpireCallback item.hostId) p
  { p with itemMap := fun _ => none, minHeap := [] }

def clear (p : Processor Host κ) : Processor Host κ :=
  if p.closed then p else { p.dropAll with updateCount := 0 }

def close (p : Processor Host κ) : Processor Host κ :=
  if p.closed then p else { p.dropAll with closed := true }

inductive Op (Host κ : Type) where
  | processStream (now : Int) (hostId : Host) (value : κ)
  | processStreamBatch (now : Int) (items : List (Host × κ))
  | setK (k : Int)
  | setTtl (seconds : Int)
  | setExpireCallback (callback : Bool)
  | clear
  | close

def step (p : Processor Host κ) : Op Host κ → Processor Host κ
  | .processStream now hostId value => p.processStream now hostId value
  | .processStreamBatch now items => p.processStreamBatch now items
  | .setK k => p.setK k
  | .setTtl seconds => p.setTtl seconds
  | .setExpireCallback callback => p.setExpireCallback callback
  | .clear => p.clear
  | .close => p.close

def run (p : Processor Host κ) (ops : List (Op Host κ)) : Processor Host κ := ops.foldl step p

section Sorted

-- Without an order of the values the library sort has no defined result.
variable {Host κ : Type} [LinearOrder κ]

/-- `std::sort` with a comparison: some rearrangement that leaves no pair in the wrong order. -/
structure StdSort {α : Type} (less : α → α → Bool) where
  sort : List α → List α
  perm : ∀ xs, (sort xs).Perm xs
  sorted : ∀ xs, (sort xs).Pairwise fun a b => less b a = false

def larger (a b : Item Host κ) : Bool := decide (b.value < a.value)

def getTopKInternal (std : StdSort (@larger Host κ _)) (p : Processor Host κ) :
    List (Item Host κ) :=
  std.sort p.minHeap

def getTopK (std : StdSort (@larger Host κ _)) (p : Processor Host κ) :
    List (Item Host κ) :=
  if p.closed then [] else getTopKInternal std p

end Sorted

end Processor

end Monitor.TopK
