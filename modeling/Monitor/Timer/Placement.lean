import Monitor.Timer.Moves

/-! # When a placed task is executed

An element that `addTask` has placed `k` slots ahead of the pointer stays in its slot, and each
tick of its wheel brings the pointer one slot nearer. The tick after `k` others empties the slot.
A task has at most one element, or was executed once and has none, so no other tick can execute
the task before, and none at all behind that one.
-/

namespace Monitor.Timer

open Cancelling TimeWheel List

theorem flatten_modify_perm {A : Type} (x : A) {xs : List (List A)} {i : Nat} (lt : i < xs.length) :
    (xs.modify i (· ++ [x])).flatten.Perm ([x] ++ xs.flatten) := by
  induction xs generalizing i with
  | nil => cases lt
  | cons ys xs ih =>
    cases i with
    | zero =>
      simp only [modify_zero_cons, flatten_cons, append_assoc]
      exact perm_append_comm_assoc ys [x] xs.flatten
    | succ i =>
      have rest := (ih (Nat.lt_of_succ_lt_succ lt)).append_left ys
      exact rest.trans (perm_append_comm_assoc ys [x] xs.flatten)

theorem TimeWheel.settle_live {K T : Type} [DecidableEq K] {tw : TimeWheel K} {e : Pointer}
    (hand : tw.loop = .received e) (heap : Heap K T) (task : TaskElement K T) :
    (tw.settle heap e task).live.Perm tw.live := by
  have lt : (tw.currentPos + tw.delaySlots task.delay) % tw.slotNum < tw.slots.length :=
    Nat.mod_lt _ (Nat.zero_lt_of_lt tw.currentPos_lt)
  have slots := flatten_modify_perm e lt
  simp only [live, traveling, placed, settle, place, hand, Loop.hand, append_nil, append_assoc]
  exact slots.append_left _

def unmarked {K T : Type} (heap : Heap K T) (e : Pointer) : Bool := heap[e]?.any fun task => !task.removed

theorem count_dueTasks {K T : Type} [DecidableEq T] (heap : Heap K T) (c : T) (es : List Pointer) :
    (dueTasks heap es).count c = es.countP fun e => named heap c e && unmarked heap e := by
  induction es with
  | nil => rfl
  | cons e es ih =>
    have split : dueTasks heap (e :: es) = dueTasks heap [e] ++ dueTasks heap es := by
      unfold dueTasks
      rw [← filterMap_append]
      rfl
    rw [split, count_append, ih, countP_cons, Nat.add_comm]
    cases found : heap[e]? with
    | none => simp [dueTasks, named, unmarked, found]
    | some task =>
      cases marked : task.removed with
      | true => simp [dueTasks, named, unmarked, found, marked]
      | false => simp [dueTasks, named, unmarked, found, marked, count_singleton]

namespace Chain

variable {K : Type}

/-- A task has one element or was executed once, and has none before its call has sent it. -/
structure Sound (s : Chain K) : Prop where
  flat : Flat s.heap
  allocated : s.Allocated
  once : ∀ c, s.load c + s.executions c ≤ 1
  unsent : ∀ c, s.phase c ≠ .returned → s.load c + s.executions c = 0

/-- The call has sent its task, and no element of it is left. -/
def Spent (s : Chain K) (c : CallId) : Prop := s.phase c = .returned ∧ s.load c = 0

theorem sound_initial {interval : Duration} {slotNum : Int64} {tw : TimeWheel K}
    (made : newTimeWheel K interval slotNum = some tw) : (initial tw).Sound := by
  obtain ⟨noTravel, noPlace⟩ := newTimeWheel_empty made
  have empty : (initial tw).live = [] := by simp [live, initial, TimeWheel.live, noTravel, noPlace]
  have idle : ∀ c, (initial tw).load c + (initial tw).executions c = 0 := by
    intro c
    rw [load, empty]
    rfl
  refine ⟨fun _ mem => ?_, fun e mem => ?_, fun c => (idle c).le.trans (Nat.zero_le 1), fun c _ => idle c⟩
  · cases mem
  · rw [← mem_live, empty] at mem
    cases mem

variable {task : TaskElement K CallId} {move : Move}

section Steps

variable {s s' : Chain K}

theorem Sound.carried (sound : s.Sound) (carries : Carries [] s s') : s'.Sound where
  flat := carries.flat
  allocated := carries.allocated
  once c := by
    rw [carries.load, carries.executions]
    exact sound.once c
  unsent c open_ := by
    rw [carries.load, carries.executions]
    exact sound.unsent c fun returned => open_ (carries.phase c returned)

theorem Sound.sent {c : CallId} (sound : s.Sound)
    (sending : s.phase c = .sending) (returned : s'.phase c = .returned) (isTask : task.task = c)
    (carries : Carries [task] s s') : s'.Sound where
  flat := carries.flat
  allocated := carries.allocated
  once c' := by
    rw [carries.load, carries.executions, map_singleton, isTask]
    by_cases same : c = c'
    · subst same
      have none := sound.unsent c (by simp [sending])
      rw [count_singleton_self]
      omega
    · rw [count_singleton, if_neg (by simpa using same)]
      exact sound.once c'
  unsent c' open_ := by
    have apart : c ≠ c' := by
      rintro rfl
      exact open_ returned
    rw [carries.load, carries.executions, map_singleton, isTask, count_singleton,
      if_neg (by simpa using apart)]
    exact sound.unsent c' fun was => open_ (carries.phase c' was)

variable [DecidableEq K] {calls : CallId → Call K}

section Placed

variable {level : Nat} {tw : TimeWheel K} {e : Pointer} {task : TaskElement K CallId}

theorem placed_load (allocated : s.Allocated) (places : s.Places level tw e task) (c : CallId) :
    (s.put level s.heap (tw.settle s.heap e task)).load c = s.load c := by
  have balance := load_put places.wheel allocated (.refl s.heap) (tw.settle s.heap e task) c
  rw [(settle_live places.hand s.heap task).countP_eq] at balance
  exact Nat.add_right_cancel balance

theorem Sound.placed (sound : s.Sound) (places : s.Places level tw e task) :
    (s.put level s.heap (tw.settle s.heap e task)).Sound where
  flat := sound.flat
  allocated := by
    intro e' mem
    have held := mem_flatMap_set (mem_live.mpr mem)
    obtain old | lt := held
    · exact sound.allocated e' (mem_live.mp old)
    · have old := (settle_live places.hand s.heap task).mem_iff.mp lt
      exact sound.allocated e' (mem_live.mp (mem_live_of_wheel places.wheel old))
  once c := by
    rw [placed_load sound.allocated places]
    exact sound.once c
  unsent c := by
    rw [placed_load sound.allocated places]
    exact sound.unsent c

end Placed

section Ticked

variable {level : Nat} {tw : TimeWheel K}

theorem ticked_load (sound : s.Sound) (at_ : s.wheels[level]? = some tw) (c : CallId) :
    (s.afterTick level tw).load c + tw.currentList.countP (named s.heap c) = s.load c := by
  have ticked := tickHandler_flat tw sound.flat
  have current : tw.slots[tw.currentPos]? = some tw.currentList := getElem?_eq_getElem tw.currentPos_lt
  have emptied := countP_flatMap_set (named s.heap c) id current []
  have balance := load_put at_ sound.allocated (.refl s.heap) (tw.tickHandler s.heap).2.1 c
  simp only [TimeWheel.live, TimeWheel.placed, ticked.traveling, ticked.slots, countP_append] at balance
  simp only [flatMap_id, id, countP_nil] at emptied
  change (s.put level s.heap (tw.tickHandler s.heap).2.1).load c + _ = _
  omega

theorem ticked_executions (s : Chain K) (level : Nat) (tw : TimeWheel K) (c : CallId) :
    (s.afterTick level tw).executions c =
      s.executions c + tw.currentList.countP fun e => named s.heap c e && unmarked s.heap e := by
  unfold afterTick executions
  rw [log, count_append, ← count_dueTasks]
  have injective : Function.Injective (Event.executed : CallId → Event CallId) :=
    fun _ _ => Event.executed.inj
  exact congrArg _ (count_map_of_injective _ _ injective c)

theorem ticked_once (sound : s.Sound) (at_ : s.wheels[level]? = some tw) (c : CallId) :
    (s.afterTick level tw).load c + (s.afterTick level tw).executions c ≤ s.load c + s.executions c := by
  have balance := ticked_load sound at_ c
  have fewer : (tw.currentList.countP fun e => named s.heap c e && unmarked s.heap e) ≤
      tw.currentList.countP (named s.heap c) := by
    refine countP_mono_left fun e _ both => ?_
    exact (Bool.and_eq_true_iff.mp both).1
  rw [ticked_executions]
  omega

theorem Sound.ticked (sound : s.Sound) (at_ : s.wheels[level]? = some tw) : (s.afterTick level tw).Sound where
  flat := sound.flat
  allocated := by
    have moved := (tickHandler_moved at_).1
    rw [(tickHandler_flat tw sound.flat).unchanged] at moved
    exact moved.allocated sound.allocated
  once c := (ticked_once sound at_ c).trans (sound.once c)
  unsent c open_ := Nat.le_zero.mp ((ticked_once sound at_ c).trans (sound.unsent c open_).le)

end Ticked

theorem Sound.stepped (sound : s.Sound) (stepped : Stepped calls s move s') : s'.Sound := by
  cases stepped with
  | carried _ _ carries => exact sound.carried carries
  | sent _ sending returned carries => exact sound.sent sending returned rfl carries
  | placed places => exact sound.placed places
  | ticked at_ _ => exact sound.ticked at_

theorem Sound.step_cases (sound : s.Sound) (move : Move) : Stepped calls s move (s.step calls move) :=
  Chain.step_cases calls sound.flat sound.allocated move

theorem Sound.run (sound : s.Sound) (moves : List Move) : (s.run calls moves).Sound := by
  induction moves generalizing s with
  | nil => exact sound
  | cons move moves ih => exact ih (sound.stepped (sound.step_cases move))

theorem Spent.stepped {c : CallId} (sound : s.Sound) (spent : s.Spent c)
    (stepped : Stepped calls s move s') : s'.Spent c ∧ s'.executions c = s.executions c := by
  obtain ⟨returned, gone⟩ := spent
  cases stepped with
  | carried _ _ carries =>
    exact ⟨⟨carries.phase c returned, (carries.load c).trans gone⟩, carries.executions c⟩
  | @sent c' _ _ _ _ sending _ carries =>
    have apart : c' ≠ c := by
      rintro rfl
      simp [returned] at sending
    refine ⟨⟨carries.phase c returned, ?_⟩, carries.executions c⟩
    rw [carries.load, gone, map_singleton, count_singleton, if_neg (by simpa using apart)]
  | placed places => exact ⟨⟨returned, (placed_load sound.allocated places c).trans gone⟩, rfl⟩
  | @ticked level tw at_ _ =>
    have less := ticked_once sound at_ c
    have more := ticked_executions s level tw c
    exact ⟨⟨returned, by omega⟩, by omega⟩

end Steps

/-- The element is in the slot that the tick after `r` others looks at. -/
def Waits (s : Chain K) (level : Nat) (e : Pointer) (c : CallId) (r : Nat) : Prop :=
  ∃ (tw : TimeWheel K) (slot : List Pointer) (task : TaskElement K CallId),
    s.wheels[level]? = some tw ∧ r < tw.slotNum ∧
    tw.slots[(tw.currentPos + r) % tw.slotNum]? = some slot ∧ e ∈ slot ∧
    s.heap[e]? = some task ∧ task.task = c

def marked (s : Chain K) (e : Pointer) : Bool := !unmarked s.heap e

section Waiting

variable {s s' : Chain K} {level : Nat} {e : Pointer} {c : CallId} {r : Nat}

theorem Waits.load_pos (waits : s.Waits level e c r) : 1 ≤ s.load c := by
  obtain ⟨tw, slot, task, at_, _, inSlot, mem, found, rfl⟩ := waits
  have placed : e ∈ tw.placed := mem_flatten.mpr ⟨slot, mem_of_getElem? inSlot, mem⟩
  refine countP_pos_iff.mpr ⟨e, mem_live_of_wheel at_ (mem_append_right _ placed), ?_⟩
  simp [named, found]

theorem Waits.executions_zero (sound : s.Sound) (waits : s.Waits level e c r) : s.executions c = 0 := by
  have pos := waits.load_pos
  have once := sound.once c
  omega

theorem Waits.returned (sound : s.Sound) (waits : s.Waits level e c r) : s.phase c = .returned := by
  by_contra open_
  have pos := waits.load_pos
  have none := sound.unsent c open_
  omega

theorem Waits.carried {added : List (TaskElement K CallId)} (waits : s.Waits level e c r)
    (carries : Carries added s s') : s'.Waits level e c r := by
  obtain ⟨tw, slot, task, at_, bound, inSlot, mem, found, named⟩ := waits
  obtain ⟨tw', at', stays⟩ := carries.wheels at_
  obtain ⟨removed, found', _⟩ := carries.heap e task found
  have slotNum : tw'.slotNum = tw.slotNum := congrArg List.length stays.slots
  refine ⟨tw', slot, _, at', by rwa [slotNum], ?_, mem, found', named⟩
  rwa [slotNum, stays.slots, stays.currentPos]

variable {other : Nat}

theorem Waits.put_other (apart : other ≠ level) (waits : s.Waits level e c r)
    (tw : TimeWheel K) : (s.put other s.heap tw).Waits level e c r := by
  obtain ⟨tw', slot, task, at_, rest⟩ := waits
  exact ⟨tw', slot, task, (getElem?_set_ne apart).trans at_, rest⟩

theorem ticks_other (apart : other ≠ level) : s.ticks level (.tick other) = false := by
  simp [ticks, apart]

variable [DecidableEq K] {calls : CallId → Call K}

variable {tw : TimeWheel K}

theorem Waits.placed {e' : Pointer} {task' : TaskElement K CallId}
    (waits : s.Waits level e c r) (places : s.Places other tw e' task') :
    (s.put other s.heap (tw.settle s.heap e' task')).Waits level e c r := by
  by_cases same : other = level
  · subst same
    obtain ⟨tw', slot, task, at_, bound, inSlot, mem, found, named⟩ := waits
    cases places.wheel.symm.trans at_
    have lt := (List.getElem?_eq_some_iff.mp at_).1
    have slotNum : (tw.settle s.heap e' task').slotNum = tw.slotNum := length_modify ..
    refine ⟨tw.settle s.heap e' task', if (tw.currentPos + tw.delaySlots task'.delay) % tw.slotNum =
      (tw.currentPos + r) % tw.slotNum then slot ++ [e'] else slot, task,
      getElem?_set_self lt, by rwa [slotNum], ?_, ?_, found, named⟩
    · rw [slotNum]
      change (tw.slots.modify _ _)[(tw.currentPos + r) % tw.slotNum]? = _
      rw [getElem?_modify, inSlot]
      split <;> rfl
    · split
      · exact mem_append_left _ mem
      · exact mem
  · exact waits.put_other same _

theorem Places.waits (places : s.Places level tw e task) :
    (s.put level s.heap (tw.settle s.heap e task)).Waits level e task.task (tw.delaySlots task.delay) := by
  have lt := (List.getElem?_eq_some_iff.mp places.wheel).1
  have slotNum : (tw.settle s.heap e task).slotNum = tw.slotNum := length_modify ..
  have bound : (tw.currentPos + tw.delaySlots task.delay) % tw.slotNum < tw.slots.length :=
    Nat.mod_lt _ (Nat.zero_lt_of_lt tw.currentPos_lt)
  refine ⟨tw.settle s.heap e task,
    tw.slots[(tw.currentPos + tw.delaySlots task.delay) % tw.slotNum] ++ [e], task,
    getElem?_set_self lt, slotNum ▸ places.near, ?_, ?_, places.found, rfl⟩
  · rw [slotNum]
    change (tw.slots.modify _ _)[(tw.currentPos + tw.delaySlots task.delay) % tw.slotNum]? = _
    rw [getElem?_modify_eq, getElem?_eq_getElem bound]
    rfl
  · exact mem_append_right _ mem_cons_self

theorem Waits.ticked (sound : s.Sound) (waits : s.Waits level e c (r + 1))
    (at_ : s.wheels[level]? = some tw) : (s.afterTick level tw).Waits level e c r := by
  obtain ⟨tw', slot, task, at', bound, inSlot, mem, found, named⟩ := waits
  cases at_.symm.trans at'
  have ticked := tickHandler_flat tw sound.flat
  have slotNum : (tw.tickHandler s.heap).2.1.slotNum = tw.slotNum := by
    unfold TimeWheel.slotNum
    rw [ticked.slots, length_set]
  have ahead : tw.currentPos ≠ (tw.currentPos + (r + 1)) % tw.slotNum := by
    have small : tw.currentPos < tw.slotNum := tw.currentPos_lt
    intro same
    by_cases wraps : tw.currentPos + (r + 1) < tw.slotNum
    · rw [Nat.mod_eq_of_lt wraps] at same
      omega
    · rw [Nat.mod_eq_sub_mod (not_lt.mp wraps), Nat.mod_eq_of_lt (by omega)] at same
      omega
  refine ⟨(tw.tickHandler s.heap).2.1, slot, task,
    getElem?_set_self (List.getElem?_eq_some_iff.mp at_).1, slotNum ▸ Nat.lt_of_succ_lt bound, ?_, mem, found, named⟩
  rw [slotNum, ticked.slots, ticked.currentPos, Nat.mod_add_mod, Nat.add_right_comm, Nat.add_assoc,
    getElem?_set_ne ahead]
  exact inSlot

theorem Waits.last_tick (sound : s.Sound) (waits : s.Waits level e c 0) (at_ : s.wheels[level]? = some tw) :
    (s.afterTick level tw).Spent c ∧
      (s.afterTick level tw).executions c = s.executions c + if s.marked e then 0 else 1 := by
  have returned : s.phase c = .returned := waits.returned sound
  obtain ⟨tw', slot, task, at', bound, inSlot, mem, found, isTask⟩ := waits
  cases at_.symm.trans at'
  have here : e ∈ tw.currentList := by
    have small : tw.currentPos < tw.slotNum := tw.currentPos_lt
    rw [Nat.add_zero, Nat.mod_eq_of_lt small, getElem?_eq_getElem tw.currentPos_lt] at inSlot
    cases inSlot
    exact mem
  have balance := ticked_load sound at_ c
  have once := sound.once c
  have isNamed : named s.heap c e := by simp [named, found, isTask]
  -- The element is the only one of its task in the slot.
  have some_ : 0 < tw.currentList.countP (named s.heap c) := countP_pos_iff.mpr ⟨e, here, isNamed⟩
  have parts := countP_eq_countP_filter_add tw.currentList (named s.heap c) (unmarked s.heap)
  simp only [countP_filter] at parts
  refine ⟨⟨returned, by omega⟩, ?_⟩
  rw [ticked_executions]
  cases isMarked : s.marked e with
  | true =>
    have dropped : 0 < tw.currentList.countP fun e => named s.heap c e && !unmarked s.heap e :=
      countP_pos_iff.mpr ⟨e, here, by simpa [isNamed, marked] using isMarked⟩
    simp only [if_true]
    omega
  | false =>
    have executed : 0 < tw.currentList.countP fun e => named s.heap c e && unmarked s.heap e :=
      countP_pos_iff.mpr ⟨e, here, by simpa [isNamed, marked] using isMarked⟩
    simp only [Bool.false_eq_true, if_false]
    omega

theorem Waits.stepped (waits : s.Waits level e c r)
    (stepped : Stepped calls s move s') (unticked : s.ticks level move = false) : s'.Waits level e c r := by
  cases stepped with
  | carried _ _ carries | sent _ _ _ carries => exact waits.carried carries
  | placed places => exact waits.placed places
  | @ticked other tw at_ handled =>
    have apart : other ≠ level := by
      rintro rfl
      simp [handled] at unticked
    exact waits.put_other apart _

theorem stepped_tick (stepped : Stepped calls s move s') (handled : s.ticks level move) :
    ∃ tw, s.wheels[level]? = some tw ∧ s' = s.afterTick level tw := by
  cases stepped with
  | carried unticked _ _ => simp [unticked level] at handled
  | sent | placed => cases handled
  | @ticked other tw at_ _ =>
    by_cases same : other = level
    · subst same
      exact ⟨tw, at_, rfl⟩
    · simp [ticks_other same] at handled

end Waiting

section Runs

variable [DecidableEq K] (calls : CallId → Call K) (level : Nat)

def ticksHandled : Chain K → List Move → Nat
  | _, [] => 0
  | s, move :: moves => (if s.ticks level move then 1 else 0) + ticksHandled (s.step calls move) moves

variable {level} {s : Chain K} {e : Pointer} {c : CallId} {k : Nat}

theorem Spent.run (sound : s.Sound) (spent : s.Spent c) (moves : List Move) :
    (s.run calls moves).Spent c := by
  induction moves generalizing s with
  | nil => exact spent
  | cons move moves ih =>
    have stepped : Stepped calls s move (s.step calls move) := sound.step_cases move
    exact ih (sound.stepped stepped) (spent.stepped sound stepped).1

theorem Waits.run (sound : s.Sound) (waits : s.Waits level e c k) (moves : List Move) :
    (∀ r, k = ticksHandled calls level s moves + r → (s.run calls moves).Waits level e c r) ∧
      (k < ticksHandled calls level s moves → (s.run calls moves).Spent c) := by
  induction moves generalizing s k with
  | nil =>
    refine ⟨fun r same => ?_, nofun⟩
    rw [same, ticksHandled, Nat.zero_add] at waits
    exact waits
  | cons move moves ih =>
    have stepped : Stepped calls s move (s.step calls move) := sound.step_cases move
    have sound' := sound.stepped stepped
    cases handled : s.ticks level move with
    | false =>
      rw [ticksHandled, handled, if_neg Bool.false_ne_true, Nat.zero_add]
      exact ih sound' (waits.stepped stepped handled)
    | true =>
      obtain ⟨tw, at_, after⟩ := stepped_tick stepped handled
      rw [ticksHandled, handled, if_pos rfl]
      cases k with
      | zero =>
        refine ⟨fun r same => by omega, fun _ => ?_⟩
        have spent := (waits.last_tick sound at_).1
        rw [← after] at spent
        exact spent.run calls sound' moves
      | succ k =>
        have nearer := waits.ticked sound at_
        rw [← after] at nearer
        obtain ⟨still, gone⟩ := ih sound' nearer
        exact ⟨fun r same => still r (by omega), fun passed => gone (by omega)⟩

/-- The next move executes the task exactly if it is the tick after `k` others and the element is
    not marked. -/
theorem Waits.executions_step (sound : s.Sound) (waits : s.Waits level e c k) (moves : List Move)
    (move : Move) :
    ((s.run calls moves).step calls move).executions c = (s.run calls moves).executions c +
      if (s.run calls moves).ticks level move ∧ ticksHandled calls level s moves = k ∧
        (s.run calls moves).marked e = false then 1 else 0 := by
  have sound' : (s.run calls moves).Sound := sound.run moves
  have stepped : Stepped calls (s.run calls moves) move ((s.run calls moves).step calls move) :=
    sound'.step_cases move
  obtain ⟨still, gone⟩ := waits.run calls sound moves
  by_cases passed : k < ticksHandled calls level s moves
  · rw [((gone passed).stepped sound' stepped).2, if_neg fun ⟨_, same, _⟩ => by omega]
    rfl
  · obtain ⟨r, same⟩ := Nat.exists_eq_add_of_le (not_lt.mp passed)
    have before := still r same
    have unchanged : ∀ {r}, ((s.run calls moves).step calls move).Waits level e c r →
        ((s.run calls moves).step calls move).executions c = (s.run calls moves).executions c := by
      intro r after
      rw [after.executions_zero (sound'.stepped stepped), before.executions_zero sound']
    cases handled : (s.run calls moves).ticks level move with
    | false =>
      exact unchanged (before.stepped stepped handled)
    | true =>
      obtain ⟨tw, at_, after⟩ := stepped_tick stepped handled
      cases r with
      | zero =>
        have last := (before.last_tick sound' at_).2
        rw [← after] at last
        rw [last]
        cases (s.run calls moves).marked e <;> simp [same]
      | succ r =>
        have nearer := before.ticked sound' at_
        rw [← after] at nearer
        rw [if_neg fun ⟨_, reached, _⟩ => by omega]
        exact unchanged nearer

theorem run_append (s : Chain K) (first second : List Move) :
    s.run calls (first ++ second) = (s.run calls first).run calls second :=
  foldl_append

theorem Places.add {tw : TimeWheel K} (flat : Flat s.heap)
    (places : s.Places level tw e task) : s.add level = s.put level s.heap (tw.settle s.heap e task) := by
  have same := place_heap flat places.found places.near
  simp only [Chain.add, withLock, atWheel, places.wheel, places.free, places.hand, places.found, ge_iff_le,
    not_le.mpr places.near, if_false, Bool.false_eq_true, same]
  rfl

/-- A task that `addTask` places has not been executed. From then on a move executes it exactly if
    the wheel handles a tick in it, has handled as many before as the delay has intervals, and
    the element is not marked. -/
theorem placed_executed_once {interval : Duration} {slotNum : Int64} {first : TimeWheel K}
    (made : newTimeWheel K interval slotNum = some first) (before : List Move) {tw : TimeWheel K}
    {task : TaskElement K CallId} (places : ((initial first).run calls before).Places level tw e task)
    (after : List Move) (move : Move) :
    ((initial first).run calls (before ++ [Move.add level])).executions task.task = 0 ∧
    ((initial first).run calls (before ++ [Move.add level] ++ after ++ [move])).executions task.task =
      ((initial first).run calls (before ++ [Move.add level] ++ after)).executions task.task +
        if ((initial first).run calls (before ++ [Move.add level] ++ after)).ticks level move ∧
          ticksHandled calls level ((initial first).run calls (before ++ [Move.add level])) after =
            tw.delaySlots task.delay ∧
          ((initial first).run calls (before ++ [Move.add level] ++ after)).marked e = false
        then 1 else 0 := by
  have sound : ((initial first).run calls before).Sound := (sound_initial made).run before
  have added : (initial first).run calls (before ++ [Move.add level]) =
      ((initial first).run calls before).put level ((initial first).run calls before).heap
        (tw.settle ((initial first).run calls before).heap e task) := by
    rw [run_append]
    exact places.add sound.flat
  have waits := places.waits
  have sound' := sound.placed places
  rw [← added] at waits sound'
  refine ⟨waits.executions_zero sound', ?_⟩
  rw [run_append calls _ _ [move], run_append calls _ _ after]
  exact waits.executions_step calls sound' after move

private def twoSlots : TimeWheel Unit := (newTimeWheel Unit 1 2).get (by decide +kernel)

private def oneNanosecond : CallId → Call Unit := fun _ => .addTask 1 ()

/-- The first task up to the run loop. -/
private def handed : List Move := [.begin 0, .lock 0, .send 0, .receive 0]

private def inHand : TimeWheel Unit := ((initial twoSlots).run oneNanosecond handed).wheels.headD twoSlots

/-- The second tick after the placement executes the task. -/
theorem placed_executed_once_secondTick :
    ((initial twoSlots).run oneNanosecond handed).Places 0 inHand 0 ⟨0, 1, (), 0, false⟩ ∧
    ((initial twoSlots).run oneNanosecond (handed ++ [Move.add 0])).executions 0 = 0 ∧
    ((initial twoSlots).run oneNanosecond
        (handed ++ [Move.add 0] ++ [Move.tick 0] ++ [Move.tick 0])).executions 0 =
      ((initial twoSlots).run oneNanosecond (handed ++ [Move.add 0] ++ [Move.tick 0])).executions 0 +
        if ((initial twoSlots).run oneNanosecond
            (handed ++ [Move.add 0] ++ [Move.tick 0])).ticks 0 (.tick 0) ∧
          ticksHandled oneNanosecond 0
              ((initial twoSlots).run oneNanosecond (handed ++ [Move.add 0])) [Move.tick 0] =
            inHand.delaySlots 1 ∧
          ((initial twoSlots).run oneNanosecond (handed ++ [Move.add 0] ++ [Move.tick 0])).marked 0 = false
        then 1 else 0 := by
  have places : ((initial twoSlots).run oneNanosecond handed).Places 0 inHand 0 ⟨0, 1, (), 0, false⟩ :=
    ⟨rfl, by decide +kernel, by decide +kernel, by decide +kernel, by decide +kernel⟩
  have made : newTimeWheel Unit 1 2 = some twoSlots := (Option.some_get _).symm
  exact ⟨places, placed_executed_once oneNanosecond made handed places [Move.tick 0] (.tick 0)⟩

end Runs

end Chain

end Monitor.Timer
