import Monitor.Lib.GoMap

/-! # The time wheel

`TimeWheel` of `time_wheel.go`: the wheel itself, and what its methods do while they hold
its lock. A task element is reached through pointers from the add channel, a slot and
the task map, and the mark of a removed element is written through the one in the map,
so the elements are on a heap.
-/

namespace Monitor.Timer

open List Int64

/-- `time.Duration`, in nanoseconds. -/
abbrev Duration := Int64

abbrev Pointer := Nat

/-- `taskElement`. -/
structure TaskElement (K T : Type) where
  task : T
  delay : Duration
  key : K
  circle : Nat
  removed : Bool
  deriving DecidableEq

abbrev Heap (K T : Type) := List (TaskElement K T)

/-- Where the goroutine of `run` is. -/
inductive Loop where
  | select
  /-- `addTask` waits for the lock. -/
  | received (task : Pointer)
  /-- `addTask` holds the lock, and its call of `AddTask` waits for that of the next wheel. -/
  | forwarding (task : Pointer)
  /-- `addTask` holds the lock, and its call of `AddTask` is before the send. -/
  | sending (task : Pointer)
  | stopped
  deriving DecidableEq

def Loop.hand : Loop → List Pointer
  | .select | .stopped => []
  | .received task | .forwarding task | .sending task => [task]

/-- The capacity of `addTaskChan`. -/
def chanSize : Nat := 1000

structure TimeWheel (K : Type) where
  interval : Duration
  slots : List (List Pointer)
  currentPos : Nat
  addTaskChan : List Pointer
  taskMap : List (K × Pointer)
  /-- Whether some goroutine holds `mu`. -/
  mu : Bool
  loop : Loop
  interval_pos : 0 < interval
  slotNum_lt : slots.length < 2 ^ 63
  currentPos_lt : currentPos < slots.length
  addTaskChan_le : addTaskChan.length ≤ chanSize

namespace TimeWheel

variable {K T : Type}

def slotNum (tw : TimeWheel K) : Nat := tw.slots.length

/-- `NewTimeWheel`; nil is `none`. The goroutine of `run` is at its select once `Start` has run. -/
def newTimeWheel (K : Type) (interval : Duration) (slotNum : Int64) : Option (TimeWheel K) :=
  if valid : 0 < interval ∧ 0 < slotNum then
    some {
      interval := interval
      slots := List.replicate slotNum.toNatClampNeg []
      currentPos := 0
      addTaskChan := []
      taskMap := []
      mu := false
      loop := .select
      interval_pos := valid.1
      slotNum_lt := by
        rw [length_replicate]
        exact slotNum.toNatClampNeg_lt
      currentPos_lt := by
        have positive := valid.2
        rw [Int64.lt_iff_toInt_lt] at positive
        rw [length_replicate, ← Int64.toNat_toInt]
        simp only [Int64.toInt_zero] at positive
        omega
      addTaskChan_le := Nat.zero_le _ }
  else
    none

/-- The wheel that `addTask` makes for the delays that are too long for this one. -/
def newNextTimeWheel (tw : TimeWheel K) : Option (TimeWheel K) :=
  newTimeWheel K (tw.interval * Int64.ofNat tw.slotNum) (Int64.ofNat tw.slotNum)

def delaySlots (tw : TimeWheel K) (delay : Duration) : Nat := (delay / tw.interval).toNatClampNeg

variable (tw : TimeWheel K)

theorem interval_toInt_pos : 0 < tw.interval.toInt := by
  have := tw.interval_pos
  rwa [lt_iff_toInt_lt, toInt_zero] at this

theorem slotNum_pos : 0 < tw.slotNum := Nat.zero_lt_of_lt tw.currentPos_lt

theorem slotNum_toInt : (ofNat tw.slotNum).toInt = tw.slotNum :=
  toInt_ofNat_of_lt tw.slotNum_lt

theorem delaySlots_eq (delay : Duration) :
    tw.delaySlots delay = (delay.toInt.tdiv tw.interval.toInt).toNat := by
  have quotient : (delay / tw.interval).toInt = delay.toInt.tdiv tw.interval.toInt := by
    refine toInt_div_of_ne_right delay tw.interval fun minus => ?_
    have positive := tw.interval_toInt_pos
    rw [minus] at positive
    exact absurd positive (by decide)
  rw [delaySlots, ← toNat_toInt, quotient]

theorem far_iff (delay : Duration) :
    tw.slotNum ≤ tw.delaySlots delay ↔ tw.interval.toInt * tw.slotNum ≤ delay.toInt := by
  have positive := tw.interval_toInt_pos
  have slots := tw.slotNum_pos
  rw [delaySlots_eq]
  by_cases nonneg : 0 ≤ delay.toInt
  · rw [Int.tdiv_eq_ediv_of_nonneg nonneg, mul_comm, ← Int.le_ediv_iff_mul_le positive]
    omega
  · have quotient := Int.tdiv_nonneg (a := -delay.toInt) (b := tw.interval.toInt) (by omega) positive.le
    rw [Int.neg_tdiv] at quotient
    have turn : 0 < tw.interval.toInt * tw.slotNum := Int.mul_pos positive (by omega)
    omega

theorem next_interval {tw : TimeWheel K} {delay : Duration} (far : tw.slotNum ≤ tw.delaySlots delay) :
    (tw.interval * ofNat tw.slotNum).toInt = tw.interval.toInt * tw.slotNum := by
  have turn : 0 < tw.interval.toInt * tw.slotNum :=
    Int.mul_pos tw.interval_toInt_pos (by have := tw.slotNum_pos; omega)
  have reach := (tw.far_iff delay).mp far
  have bound := delay.toInt_lt
  rw [toInt_mul, slotNum_toInt]
  exact Int.bmod_eq_of_le (by omega) (by omega)

theorem newNextTimeWheel_isSome {tw : TimeWheel K} {delay : Duration}
    (far : tw.slotNum ≤ tw.delaySlots delay) : tw.newNextTimeWheel.isSome := by
  have slots := tw.slotNum_pos
  have turn : 0 < tw.interval.toInt * tw.slotNum := Int.mul_pos tw.interval_toInt_pos (by omega)
  rw [newNextTimeWheel, newTimeWheel, dif_pos]
  · rfl
  · rw [lt_iff_toInt_lt, lt_iff_toInt_lt, next_interval far, slotNum_toInt, toInt_zero]
    exact ⟨turn, by omega⟩

/-- A send on `addTaskChan`. -/
def push (tw : TimeWheel K) (e : Pointer) (room : tw.addTaskChan.length < chanSize) : TimeWheel K :=
  { tw with
    addTaskChan := tw.addTaskChan ++ [e]
    addTaskChan_le := by
      rw [length_append, length_singleton]
      exact room }

variable [DecidableEq K]

/-- The part of `addTask` for a delay within the wheel; `circle` is set in the element. -/
def place (tw : TimeWheel K) (heap : Heap K T) (e : Pointer) (task : TaskElement K T) :
    Heap K T × TimeWheel K :=
  let delaySlots := tw.delaySlots task.delay
  let pos := (tw.currentPos + delaySlots) % tw.slotNum
  let circle := delaySlots / tw.slotNum
  (heap.set e { task with circle := circle }, { tw with
      slots := tw.slots.modify pos (· ++ [e])
      taskMap := GoMap.set task.key e tw.taskMap
      slotNum_lt := by
        rw [length_modify]
        exact tw.slotNum_lt
      currentPos_lt := by
        rw [length_modify]
        exact tw.currentPos_lt })

/-- The first lines of `AddTask` and `RemoveTask` under the lock. -/
def unmap (tw : TimeWheel K) (heap : Heap K T) (key : K) : Heap K T × TimeWheel K :=
  match GoMap.get key tw.taskMap with
  | none => (heap, tw)
  | some element =>
    (heap.modify element fun task => { task with removed := true },
      { tw with taskMap := GoMap.erase key tw.taskMap })

/-- The variables of the loop of `tickHandler`; the tasks that were executed are recorded. -/
structure Tick (K T : Type) where
  heap : Heap K T
  taskMap : List (K × Pointer)
  currentList : List Pointer
  executed : List T

/-- The loop of `tickHandler` at one element of the current slot. -/
def Tick.visit (tick : Tick K T) (e : Pointer) : Tick K T :=
  match tick.heap[e]? with
  | none => tick
  | some task =>
    if task.removed then
      tick
    else if task.circle > 0 then
      { tick with
        heap := tick.heap.set e { task with circle := task.circle - 1 }
        currentList := tick.currentList ++ [e] }
    else
      { tick with
        taskMap := GoMap.erase task.key tick.taskMap
        executed := tick.executed ++ [task.task] }

def tickHandler (tw : TimeWheel K) (heap : Heap K T) : Heap K T × TimeWheel K × List T :=
  let currentList := tw.slots.get ⟨tw.currentPos, tw.currentPos_lt⟩
  let tick := currentList.foldl Tick.visit ⟨heap, tw.taskMap, [], []⟩
  (tick.heap, { tw with
      slots := tw.slots.set tw.currentPos tick.currentList
      taskMap := tick.taskMap
      currentPos := (tw.currentPos + 1) % tw.slotNum
      slotNum_lt := by
        rw [length_set]
        exact tw.slotNum_lt
      currentPos_lt := by
        rw [length_set]
        exact Nat.mod_lt _ (Nat.zero_lt_of_lt tw.currentPos_lt) }, tick.executed)

end TimeWheel

end Monitor.Timer
