import Monitor.Timer.Tasks

/-! # What a move does

No element ever waits for more than the current turn of its wheel: where `addTask` places a task,
the quotient that it sets `circle` to is zero. So the heap only changes by marks and by new
elements, a tick empties the slot at the pointer, and `step_cases` says what each move does to
the wheels. The load of a chain counts the elements of a task that are on their way or in a slot.
-/

namespace Monitor.Timer

open Cancelling List

variable {K T : Type}

/-- Every element waits for the current turn of its wheel. -/
def Flat (heap : Heap K T) : Prop := ∀ task ∈ heap, task.circle = 0

/-- Elements are marked and others are added, and nothing else. -/
def Kept (heap heap' : Heap K T) : Prop :=
  ∀ (e : Pointer) (task : TaskElement K T), heap[e]? = some task →
    ∃ removed, heap'[e]? = some { task with removed := removed } ∧ (task.removed = true → removed = true)

theorem Kept.refl (heap : Heap K T) : Kept heap heap := fun _ task found => ⟨task.removed, found, id⟩

variable {heap : Heap K T}

theorem Kept.trans {heap' heap'' : Heap K T} (first : Kept heap heap') (second : Kept heap' heap'') :
    Kept heap heap'' := by
  intro e task found
  obtain ⟨removed, found', marked⟩ := first e task found
  obtain ⟨removed', found'', marked'⟩ := second e _ found'
  exact ⟨removed', found'', fun was => marked' (marked was)⟩

theorem kept_markFound (heap : Heap K T) (found : Option Pointer) : Kept heap (markFound heap found) :=
  fun e task at_ => ⟨task.removed || found = some e, markFound_get at_ found, by simp +contextual⟩

theorem kept_append (heap : Heap K T) (task : TaskElement K T) : Kept heap (heap ++ [task]) := by
  intro e old found
  have lt := (List.getElem?_eq_some_iff.mp found).1
  exact ⟨old.removed, (getElem?_append_left lt).trans found, id⟩

variable {task : TaskElement K T}

theorem mem_markFound {found : Option Pointer} (mem : task ∈ markFound heap found) :
    ∃ old ∈ heap, old.task = task.task ∧ old.delay = task.delay ∧ old.circle = task.circle := by
  obtain ⟨e, at_⟩ := getElem?_of_mem mem
  have lt : e < heap.length := by
    rw [← (markFound_ages heap found).length]
    exact (List.getElem?_eq_some_iff.mp at_).1
  rw [markFound_get (getElem?_eq_getElem lt) found] at at_
  cases at_
  exact ⟨heap[e], getElem_mem lt, rfl, rfl, rfl⟩

theorem Flat.markFound (flat : Flat heap) (found : Option Pointer) : Flat (markFound heap found) := by
  intro task mem
  obtain ⟨old, inHeap, _, _, same⟩ := mem_markFound mem
  exact same ▸ flat old inHeap

theorem Flat.append (flat : Flat heap) (zero : task.circle = 0) :
    Flat (heap ++ [task]) := by
  intro other mem
  rw [mem_append, mem_singleton] at mem
  obtain old | rfl := mem
  · exact flat other old
  · exact zero

/-- The element is for the task `c`. -/
def named [DecidableEq T] (heap : Heap K T) (c : T) (e : Pointer) : Bool := heap[e]?.any (·.task = c)

variable {e : Pointer}

theorem Kept.named_eq [DecidableEq T] {heap' : Heap K T} (kept : Kept heap heap') (c : T)
    (lt : e < heap.length) : named heap' c e = named heap c e := by
  obtain ⟨removed, found, _⟩ := kept e _ (getElem?_eq_getElem lt)
  simp [named, found, getElem?_eq_getElem lt]

variable {tw : TimeWheel K}

namespace TimeWheel

def live (tw : TimeWheel K) : List Pointer := tw.traveling ++ tw.placed

/-- The wheel has the same interval, the same slots and its pointer at the same slot. -/
structure Stays (tw tw' : TimeWheel K) : Prop where
  interval : tw'.interval = tw.interval
  slots : tw'.slots = tw.slots
  currentPos : tw'.currentPos = tw.currentPos

theorem Stays.trans {tw tw' tw'' : TimeWheel K} (first : Stays tw tw') (second : Stays tw' tw'') :
    Stays tw tw'' :=
  ⟨second.interval.trans first.interval, second.slots.trans first.slots,
    second.currentPos.trans first.currentPos⟩

/-- The slot that the next tick looks at. -/
def currentList (tw : TimeWheel K) : List Pointer := tw.slots.get ⟨tw.currentPos, tw.currentPos_lt⟩

/-- The tasks of the elements that are not marked. -/
def dueTasks (heap : Heap K T) (es : List Pointer) : List T :=
  es.filterMap fun e => (heap[e]?.filter fun task => !task.removed).map (·.task)

variable [DecidableEq K]

/-- The wheel behind `addTask`, back at its select. -/
def settle (tw : TimeWheel K) (heap : Heap K T) (e : Pointer) (task : TaskElement K T) : TimeWheel K :=
  { (tw.place heap e task).2 with loop := .select }

variable {heap : Heap K T}

theorem place_heap (flat : Flat heap) (found : heap[e]? = some task) (near : tw.delaySlots task.delay < tw.slotNum) :
    (tw.place heap e task).1 = heap := by
  obtain ⟨lt, rfl⟩ := List.getElem?_eq_some_iff.mp found
  have zero : tw.delaySlots heap[e].delay / tw.slotNum = heap[e].circle := by
    rw [Nat.div_eq_of_lt near, flat _ (getElem_mem lt)]
  change heap.set e { heap[e] with circle := tw.delaySlots heap[e].delay / tw.slotNum } = heap
  rw [zero]
  exact set_getElem_self lt

theorem visit_flat (flat : Flat heap) (taskMap : List (K × Pointer)) (executed : List T)
    (e : Pointer) : ∃ taskMap', Tick.visit ⟨heap, taskMap, [], executed⟩ e =
      ⟨heap, taskMap', [], executed ++ dueTasks heap [e]⟩ := by
  unfold Tick.visit
  cases found : heap[e]? with
  | none => exact ⟨taskMap, by simp [dueTasks, found]⟩
  | some task =>
    have zero := flat task (mem_of_getElem? found)
    cases marked : task.removed with
    | true => exact ⟨taskMap, by simp [dueTasks, found, marked]⟩
    | false => exact ⟨GoMap.erase task.key taskMap, by simp [dueTasks, found, marked, zero]⟩

theorem foldl_visit_flat (flat : Flat heap) (es : List Pointer)
    (taskMap : List (K × Pointer)) (executed : List T) :
    ∃ taskMap', es.foldl Tick.visit ⟨heap, taskMap, [], executed⟩ =
      ⟨heap, taskMap', [], executed ++ dueTasks heap es⟩ := by
  induction es generalizing taskMap executed with
  | nil => exact ⟨taskMap, by simp [dueTasks]⟩
  | cons e es ih =>
    obtain ⟨taskMap', first⟩ := visit_flat flat taskMap executed e
    obtain ⟨taskMap'', rest⟩ := ih taskMap' (executed ++ dueTasks heap [e])
    refine ⟨taskMap'', ?_⟩
    rw [foldl_cons, first, rest, append_assoc, dueTasks, dueTasks, dueTasks, ← filterMap_append]
    rfl

/-- What `tickHandler` leaves. -/
structure TickedOnce (tw : TimeWheel K) (heap : Heap K T) (result : Heap K T × TimeWheel K × List T) :
    Prop where
  unchanged : result.1 = heap
  interval : result.2.1.interval = tw.interval
  slots : result.2.1.slots = tw.slots.set tw.currentPos []
  currentPos : result.2.1.currentPos = (tw.currentPos + 1) % tw.slotNum
  traveling : result.2.1.traveling = tw.traveling
  executed : result.2.2 = dueTasks heap tw.currentList

theorem tickHandler_flat (tw : TimeWheel K) (flat : Flat heap) :
    TickedOnce tw heap (tw.tickHandler heap) := by
  obtain ⟨taskMap, done⟩ := foldl_visit_flat flat tw.currentList tw.taskMap []
  have ticked : tw.currentList.foldl Tick.visit ⟨heap, tw.taskMap, [], []⟩ =
      ⟨heap, taskMap, [], dueTasks heap tw.currentList⟩ := done
  refine ⟨congrArg (·.heap) ticked, rfl, ?_, rfl, rfl, congrArg (·.executed) ticked⟩
  exact congrArg (fun tick : Tick K T => tw.slots.set tw.currentPos tick.currentList) ticked

end TimeWheel

namespace Chain

open TimeWheel

/-- The elements that are on their way or in a slot. -/
def live (s : Chain K) : List Pointer := s.wheels.flatMap TimeWheel.live

def load (s : Chain K) (c : CallId) : Nat := s.live.countP (named s.heap c)

def executions (s : Chain K) (c : CallId) : Nat := s.history.count (.executed c)

variable {s : Chain K}

theorem mem_live : e ∈ s.live ↔ e ∈ s.traveling ∨ e ∈ s.placed := by
  simp only [live, traveling, placed, mem_flatMap, TimeWheel.live, mem_append, and_or_left, exists_or]

variable {level : Nat}

theorem mem_live_of_wheel (at_ : s.wheels[level]? = some tw) (mem : e ∈ tw.live) : e ∈ s.live :=
  mem_flatMap.mpr ⟨tw, mem_of_getElem? at_, mem⟩

theorem countP_flatMap_set {A B : Type} (p : B → Bool) (f : A → List B) {xs : List A} {i : Nat} {x : A}
    (at_ : xs[i]? = some x) (y : A) :
    ((xs.set i y).flatMap f).countP p + (f x).countP p = (xs.flatMap f).countP p + (f y).countP p := by
  induction xs generalizing i with
  | nil => cases at_
  | cons z xs ih =>
    cases i with
    | zero =>
      cases at_
      simp only [set_cons_zero, flatMap_cons, countP_append]
      omega
    | succ i =>
      have rest := ih (i := i) at_
      simp only [set_cons_succ, flatMap_cons, countP_append]
      omega

theorem load_put (at_ : s.wheels[level]? = some tw)
    (allocated : s.Allocated) {heap : Heap K CallId} (kept : Kept s.heap heap) (tw' : TimeWheel K)
    (c : CallId) : (s.put level heap tw').load c + tw.live.countP (named heap c) =
      s.load c + tw'.live.countP (named heap c) := by
  have same : s.live.countP (named heap c) = s.load c :=
    countP_congr fun e mem => by
      rw [kept.named_eq c (allocated e (mem_live.mp mem))]
  rw [← same]
  exact countP_flatMap_set (named heap c) TimeWheel.live at_ tw'

/-- Tasks are added, marked and moved towards their wheels; no slot changes. -/
structure Carries (added : List (TaskElement K CallId)) (s s' : Chain K) : Prop where
  heap : Kept s.heap s'.heap
  elements : ∀ task ∈ s'.heap, (∃ old ∈ s.heap, old.task = task.task ∧ old.delay = task.delay) ∨ task ∈ added
  flat : Flat s'.heap
  allocated : s'.Allocated
  wheels : ∀ {level : Nat} {tw : TimeWheel K}, s.wheels[level]? = some tw →
    ∃ tw', s'.wheels[level]? = some tw' ∧ Stays tw tw'
  placed : s'.placed = s.placed
  load : ∀ c, s'.load c = s.load c + (added.map (·.task)).count c
  executions : ∀ c, s'.executions c = s.executions c
  phase : ∀ c, s.phase c = .returned → s'.phase c = .returned

namespace Carries

variable {s s' s'' : Chain K} {added : List (TaskElement K CallId)}

theorem refl (flat : Flat s.heap) (allocated : s.Allocated) : Carries [] s s :=
  ⟨.refl s.heap, fun task mem => .inl ⟨task, mem, rfl, rfl⟩, flat, allocated,
    fun at_ => ⟨_, at_, rfl, rfl, rfl⟩, rfl, fun _ => rfl, fun _ => rfl, fun _ => id⟩

theorem trans (first : Carries [] s s') (second : Carries added s' s'') : Carries added s s'' where
  heap := first.heap.trans second.heap
  elements task mem := by
    obtain ⟨middle, mem', task', delay'⟩ | new := second.elements task mem
    · obtain ⟨old, was, task, delay⟩ | nothing := first.elements middle mem'
      · exact .inl ⟨old, was, task.trans task', delay.trans delay'⟩
      · cases nothing
    · exact .inr new
  flat := second.flat
  allocated := second.allocated
  wheels at_ := by
    obtain ⟨tw', at', stays⟩ := first.wheels at_
    obtain ⟨tw'', at'', stays'⟩ := second.wheels at'
    exact ⟨tw'', at'', stays.trans stays'⟩
  placed := second.placed.trans first.placed
  load c := (second.load c).trans (congrArg (· + (added.map (·.task)).count c) (first.load c))
  executions c := (second.executions c).trans (first.executions c)
  phase c returned := second.phase c (first.phase c returned)

theorem goto (carries : Carries added s s') {c : CallId} (open_ : s.phase c ≠ .returned) (p : Phase) :
    Carries added s (s'.goto c p) := by
  refine { carries with phase := fun c' returned => ?_ }
  have other : c' ≠ c := by
    rintro rfl
    exact open_ returned
  exact (Function.update_of_ne other p s'.phase).trans (carries.phase c' returned)

theorem log (carries : Carries added s s') {events : List (Event CallId)}
    (quiet : ∀ c, .executed c ∉ events) : Carries added s (s'.log events) := by
  refine { carries with executions := fun c => ?_ }
  unfold Chain.executions
  rw [Chain.log, count_append, count_eq_zero_of_not_mem (quiet c), Nat.add_zero]
  exact carries.executions c

theorem put {tw tw' : TimeWheel K} (flat : Flat s.heap) (allocated : s.Allocated)
    (at_ : s.wheels[level]? = some tw) (stays : Stays tw tw') (traveling : tw'.traveling.Perm tw.traveling)
    (found : Option Pointer) : Carries [] s (s.put level (markFound s.heap found) tw') where
  heap := kept_markFound s.heap found
  elements task mem := by
    obtain ⟨old, inHeap, sameTask, sameDelay, _⟩ := mem_markFound mem
    exact .inl ⟨old, inHeap, sameTask, sameDelay⟩
  flat := flat.markFound found
  allocated := by
    refine (Moved.put at_ (markFound_ages s.heap found) (fun e => traveling.mem_iff.mp)
      fun e mem => .inl ?_).allocated allocated
    rwa [TimeWheel.placed, stays.slots] at mem
  wheels := by
    intro other tw'' at''
    by_cases same : level = other
    · subst same
      cases at_.symm.trans at''
      exact ⟨tw', getElem?_set_self (List.getElem?_eq_some_iff.mp at_).1, stays⟩
    · exact ⟨tw'', (getElem?_set_ne same).trans at'', rfl, rfl, rfl⟩
  placed := flatMap_set_same at_ (congrArg List.flatten stays.slots)
  load c := by
    have perm : tw'.live.Perm tw.live := by
      unfold TimeWheel.live TimeWheel.placed
      rw [stays.slots]
      exact traveling.append_right _
    have balance := load_put at_ allocated (kept_markFound s.heap found) tw' c
    rw [perm.countP_eq] at balance
    exact Nat.add_right_cancel balance
  executions _ := rfl
  phase _ := id

theorem adjust {tw tw' : TimeWheel K} (flat : Flat s.heap) (allocated : s.Allocated)
    (at_ : s.wheels[level]? = some tw) (stays : Stays tw tw') (traveling : tw'.traveling.Perm tw.traveling) :
    Carries [] s (s.put level s.heap tw') :=
  .put flat allocated at_ stays traveling none

end Carries

section Moves

variable {s : Chain K}

section

variable (flat : Flat s.heap) (allocated : s.Allocated)
include flat allocated

theorem receive_carries (level : Nat) : Carries [] s (s.receive level) := by
  refine atWheel_cases (.refl flat allocated) fun tw at_ => ?_
  split
  · rename_i e rest select chan
    refine .adjust flat allocated at_ ⟨rfl, rfl, rfl⟩ ?_
    simp only [TimeWheel.traveling, Loop.hand, chan, select, append_nil]
    exact perm_append_comm
  · exact .refl flat allocated

theorem stop_carries : Carries [] s s.stop := by
  refine atWheel_cases (.refl flat allocated) fun tw at_ => ?_
  split
  · rename_i select
    refine .adjust flat allocated at_ ⟨rfl, rfl, rfl⟩ (.of_eq ?_)
    simp only [TimeWheel.traveling, Loop.hand, select]
  · exact .refl flat allocated

theorem begin_carries (c : CallId) : Carries [] s (s.begin c) := by
  unfold begin
  split
  · rename_i idle
    exact ((Carries.refl flat allocated).goto (by simp [idle]) _).log (by simp)
  · exact .refl flat allocated

theorem leave_carries (c : CallId) : Carries [] s (s.leave c) := by
  unfold leave
  split
  · rename_i leaving
    exact ((Carries.refl flat allocated).goto (by simp [leaving]) _).log (by simp)
  · rename_i level leaving
    refine atWheel_cases (.refl flat allocated) fun tw at_ => ?_
    have open_ : s.phase c ≠ .returned := by simp [leaving]
    have unlocked : Carries [] s (s.put level s.heap { tw with mu := false }) :=
      .adjust flat allocated at_ ⟨rfl, rfl, rfl⟩ (.refl _)
    exact unlocked.goto open_ _
  · exact .refl flat allocated

end

variable {level : Nat} {tw : TimeWheel K} {task : TaskElement K CallId} {s' : Chain K}

theorem grow_carries (flat : Flat s.heap) (allocated : s.Allocated) (grown : s.grow level tw = some s') : Carries [] s s' := by
  have moved := (grow_moved grown).1
  rw [grow] at grown
  split at grown
  · cases grown
    exact .refl flat allocated
  · obtain ⟨next, made, rfl⟩ := Option.map_eq_some_iff.mp grown
    obtain ⟨noTravel, noPlace⟩ := newTimeWheel_empty made
    refine { Carries.refl flat allocated with
      allocated := moved.allocated allocated, wheels := ?_, placed := ?_, load := ?_ }
    · intro other tw' at_
      have lt := (List.getElem?_eq_some_iff.mp at_).1
      exact ⟨tw', (getElem?_append_left lt).trans at_, rfl, rfl, rfl⟩
    · simp [Chain.placed, noPlace]
    · intro c
      simp [load, Chain.live, TimeWheel.live, noTravel, noPlace]

theorem countP_found {heap : Heap K CallId}
    (found : heap[e]? = some task) (c : CallId) : [e].countP (named heap c) = [task.task].count c := by
  simp [named, found, countP_singleton, count_singleton]

theorem live_push (tw : TimeWheel K) (e : Pointer) (room : tw.addTaskChan.length < chanSize) :
    (tw.push e room).live.Perm ([e] ++ tw.live) := by
  simp only [TimeWheel.live, TimeWheel.traveling, TimeWheel.placed, push, append_assoc,
    singleton_append]
  exact perm_middle

theorem push_carries (flat : Flat s.heap) (allocated : s.Allocated)
    (at_ : s.wheels[level]? = some tw) (room : tw.addTaskChan.length < chanSize) (zero : task.circle = 0) :
    Carries [task] s (s.put level (s.heap ++ [task]) (tw.push s.heap.length room)) where
  heap := kept_append s.heap task
  elements other mem := by
    rw [put, mem_append] at mem
    exact mem.imp_left fun old => ⟨other, old, rfl, rfl⟩
  flat := flat.append zero
  allocated := by
    intro e mem
    change e < (s.heap ++ [task]).length
    rw [length_append, length_singleton]
    obtain old | lt := mem_flatMap_set (mem_live.mpr mem)
    · exact Nat.lt_succ_of_lt (allocated e (mem_live.mp old))
    · obtain rfl | old := mem_cons.mp ((live_push tw s.heap.length room).mem_iff.mp lt)
      · exact Nat.lt_succ_self _
      · exact Nat.lt_succ_of_lt (allocated e (mem_live.mp (mem_live_of_wheel at_ old)))
  wheels := by
    intro other tw' at'
    by_cases same : level = other
    · subst same
      cases at_.symm.trans at'
      exact ⟨_, getElem?_set_self (List.getElem?_eq_some_iff.mp at_).1, rfl, rfl, rfl⟩
    · exact ⟨tw', (getElem?_set_ne same).trans at', rfl, rfl, rfl⟩
  placed := flatMap_set_same at_ rfl
  load c := by
    have balance := load_put at_ allocated (kept_append s.heap task) (tw.push s.heap.length room) c
    have last : (s.heap ++ [task])[s.heap.length]? = some task := getElem?_concat_length
    have new := countP_found last c
    rw [(live_push tw s.heap.length room).countP_eq, countP_append, new] at balance
    simp only [map_cons, map_nil]
    omega
  executions _ := rfl
  phase _ := id

theorem delivered
    (sending : tw.loop = .sending e) (found : s.heap[e]? = some task)
    (first : Carries [{ task with circle := 0, removed := false }] s s')
    (still : s'.wheels[level]? = some tw) :
    Carries [] s (s'.put level s'.heap { tw with mu := false, loop := .select }) := by
  have hand : tw.live.Perm ([e] ++ TimeWheel.live { tw with mu := false, loop := .select }) := by
    simp only [TimeWheel.live, TimeWheel.traveling, TimeWheel.placed, sending, Loop.hand, append_nil,
      append_assoc, singleton_append]
    exact perm_middle
  have moved : Moved s' (s'.put level s'.heap { tw with mu := false, loop := .select }) :=
    .drop still rfl
  have samePlaced : (s'.put level s'.heap { tw with mu := false, loop := .select }).placed = s'.placed :=
    flatMap_set_same still rfl
  refine ⟨first.heap, fun other mem => .inl ?_, first.flat, moved.allocated first.allocated, ?_,
    samePlaced.trans first.placed, fun c => ?_, first.executions, first.phase⟩
  · obtain old | new := first.elements other mem
    · exact old
    · cases mem_singleton.mp new
      exact ⟨task, mem_of_getElem? found, rfl, rfl⟩
  · intro other old at_
    obtain ⟨tw', at', stays⟩ := first.wheels at_
    by_cases same : level = other
    · subst same
      cases still.symm.trans at'
      exact ⟨_, getElem?_set_self (List.getElem?_eq_some_iff.mp still).1, stays.interval, stays.slots,
        stays.currentPos⟩
    · exact ⟨tw', (getElem?_set_ne same).trans at', stays⟩
  · obtain ⟨removed, found', _⟩ := first.heap e task found
    have balance := load_put still first.allocated (.refl s'.heap) { tw with mu := false, loop := .select } c
    have gone : [e].countP (named s'.heap c) = [task.task].count c := countP_found found' c
    rw [hand.countP_eq, countP_append, gone, first.load c] at balance
    simp only [map_cons, map_nil, count_nil] at balance ⊢
    omega

theorem deliver_carries (flat : Flat s.heap) (allocated : s.Allocated) (level : Nat) :
    Carries [] s (s.deliver level) := by
  refine atWheel_cases (.refl flat allocated) fun tw at_ => ?_
  split
  · rename_i e sending
    split
    · exact .refl flat allocated
    · rename_i task found
      refine atWheel_cases (.refl flat allocated) fun next next_at => ?_
      split
      · rename_i room
        have first := push_carries flat allocated next_at room
          (show ({ task with circle := 0, removed := false } : TaskElement K CallId).circle = 0 from rfl)
        exact delivered sending found first ((getElem?_set_ne (Nat.succ_ne_self level)).trans at_)
      · exact .refl flat allocated
  · exact .refl flat allocated

variable [DecidableEq K]

theorem unmap_carries (flat : Flat s.heap) (allocated : s.Allocated)
    (at_ : s.wheels[level]? = some tw) (tw' : TimeWheel K) (stays : Stays tw tw')
    (traveling : tw'.traveling = tw.traveling) (key : K) : Carries [] s (s.unmap level tw' key) := by
  have wheel : Stays tw' (tw'.unmap s.heap key).2 := by
    rw [TimeWheel.unmap]
    split <;> exact ⟨rfl, rfl, rfl⟩
  rw [unmap, tw'.unmap_heap s.heap key]
  exact .put flat allocated at_ (stays.trans wheel)
    (.of_eq ((tw'.unmap_wheel s.heap key).1.trans traveling)) _

theorem lock_carries (calls : CallId → Call K) (flat : Flat s.heap) (allocated : s.Allocated) (c : CallId) :
    Carries [] s (s.lock calls c) := by
  unfold lock
  split
  · rename_i level locking
    have open_ : s.phase c ≠ .returned := by simp [locking]
    split
    · split
      · exact (Carries.refl flat allocated).goto open_ _
      · refine withLock_cases (.refl flat allocated) fun tw at_ _ => ?_
        exact (unmap_carries flat allocated at_ tw ⟨rfl, rfl, rfl⟩ rfl _).goto open_ _
    · refine withLock_cases (.refl flat allocated) fun tw at_ _ => ?_
      exact (unmap_carries flat allocated at_ { tw with mu := true } ⟨rfl, rfl, rfl⟩ rfl _).goto open_ _
  · exact .refl flat allocated

theorem forward_carries (flat : Flat s.heap) (allocated : s.Allocated) (level : Nat) :
    Carries [] s (s.forward level) := by
  refine atWheel_cases (.refl flat allocated) fun tw at_ => ?_
  split
  · rename_i e forwarding
    split
    · exact .refl flat allocated
    · rename_i task found
      refine withLock_cases (.refl flat allocated) fun next next_at _ => ?_
      have first := unmap_carries flat allocated next_at next ⟨rfl, rfl, rfl⟩ rfl task.key
      have still : (s.unmap (level + 1) next task.key).wheels[level]? = some tw :=
        (getElem?_set_ne (Nat.succ_ne_self level)).trans at_
      refine first.trans (.adjust first.flat first.allocated still ⟨rfl, rfl, rfl⟩ (.of_eq ?_))
      simp only [TimeWheel.traveling, Loop.hand, forwarding]
  · exact .refl flat allocated

end Moves

/-- `addTask` of the wheel is about to place the element. -/
structure Places (s : Chain K) (level : Nat) (tw : TimeWheel K) (e : Pointer) (task : TaskElement K CallId) :
    Prop where
  wheel : s.wheels[level]? = some tw
  free : tw.mu = false
  hand : tw.loop = .received e
  found : s.heap[e]? = some task
  near : tw.delaySlots task.delay < tw.slotNum

/-- The move is a tick that the run loop of the wheel handles. -/
def ticks (s : Chain K) (level : Nat) : Move → Bool
  | .tick other => other = level && s.wheels[level]?.any fun tw => !tw.mu && tw.loop = .select
  | _ => false

variable [DecidableEq K]

/-- The chain behind a tick that the wheel handles. -/
def afterTick (s : Chain K) (level : Nat) (tw : TimeWheel K) : Chain K :=
  (s.put level s.heap (tw.tickHandler s.heap).2.1).log ((dueTasks s.heap tw.currentList).map .executed)

inductive Stepped (calls : CallId → Call K) (s : Chain K) : Move → Chain K → Prop where
  | carried {move : Move} {s' : Chain K} (unticked : ∀ level, s.ticks level move = false)
      (unsent : ∀ c, move = .send c → s' = s) (carries : Carries [] s s') : Stepped calls s move s'
  | sent {c : CallId} {delay : Duration} {key : K} {s' : Chain K} (call : calls c = .addTask delay key)
      (sending : s.phase c = .sending) (returned : s'.phase c = .returned)
      (carries : Carries [⟨c, delay, key, 0, false⟩] s s') : Stepped calls s (.send c) s'
  | placed {level : Nat} {tw : TimeWheel K} {e : Pointer} {task : TaskElement K CallId}
      (places : s.Places level tw e task) :
      Stepped calls s (.add level) (s.put level s.heap (tw.settle s.heap e task))
  | ticked {level : Nat} {tw : TimeWheel K} (at_ : s.wheels[level]? = some tw)
      (handled : s.ticks level (.tick level)) :
      Stepped calls s (.tick level) (s.afterTick level tw)

section Cases

variable {s : Chain K} (calls : CallId → Call K)

section

variable (flat : Flat s.heap) (allocated : s.Allocated)
include flat allocated

theorem add_cases (level : Nat) : Stepped calls s (.add level) (s.add level) := by
  have waits : Stepped calls s (.add level) s := .carried (fun _ => rfl) nofun (.refl flat allocated)
  refine withLock_cases waits fun tw at_ free => ?_
  split
  · rename_i e received
    split
    · exact waits
    · rename_i task found
      split
      · split
        · exact waits
        · rename_i far s' grown
          have first := grow_carries flat allocated grown
          refine .carried (fun _ => rfl) nofun (first.trans (.adjust first.flat first.allocated
            ((grow_moved grown).2.2.2 tw at_) ⟨rfl, rfl, rfl⟩ (.of_eq ?_)))
          simp only [TimeWheel.traveling, Loop.hand, received]
      · rename_i near
        have places : s.Places level tw e task := ⟨at_, free, received, found, not_le.mp near⟩
        change Stepped calls s (.add level) (s.put level (tw.place s.heap e task).1 (tw.settle s.heap e task))
        rw [place_heap flat found places.near]
        exact .placed places
  · exact waits

theorem send_cases (c : CallId) : Stepped calls s (.send c) (s.send calls c) := by
  have waits : Stepped calls s (.send c) s := .carried (fun _ => rfl) (fun _ _ => rfl) (.refl flat allocated)
  unfold send
  split
  · rename_i sending
    split
    · rename_i delay key call
      refine atWheel_cases waits fun tw at_ => ?_
      split
      · rename_i room
        have zero : (⟨c, delay, key, 0, false⟩ : TaskElement K CallId).circle = 0 := rfl
        have pushed := push_carries flat allocated at_ room zero
        refine .sent call sending (Function.update_self ..) ?_
        exact (pushed.goto (by simp [sending]) .returned).log (by simp)
      · exact waits
    · exact waits
  · exact waits

theorem tick_cases (level : Nat) : Stepped calls s (.tick level) (s.tick level) := by
  have waits : (∀ tw, s.wheels[level]? = some tw → tw.mu = false → tw.loop ≠ .select) →
      Stepped calls s (.tick level) s := by
    intro busy
    refine .carried (fun other => ?_) nofun (.refl flat allocated)
    rw [Bool.eq_false_iff]
    intro handled
    simp only [ticks, Bool.and_eq_true, decide_eq_true_eq, Option.any_eq_true, Bool.not_eq_true'] at handled
    obtain ⟨rfl, tw, at_, free, select⟩ := handled
    exact busy tw at_ free select
  unfold tick withLock atWheel
  split
  · rename_i gone
    exact waits fun tw at_ => by simp [gone] at at_
  · rename_i tw at_
    dsimp only
    split
    · rename_i locked
      refine waits fun tw' at' free => ?_
      cases at_.symm.trans at'
      simp [locked] at free
    · rename_i free
      split
      · rename_i select
        have done := tickHandler_flat tw flat
        have handled : s.ticks level (.tick level) := by simp [ticks, at_, free, select]
        rw [done.unchanged, done.executed]
        exact .ticked at_ handled
      · rename_i busy
        refine waits fun tw' at' _ select => ?_
        cases at_.symm.trans at'
        exact busy select

theorem step_cases (move : Move) : Stepped calls s move (s.step calls move) := by
  cases move with
  | begin c => exact .carried (fun _ => rfl) nofun (begin_carries flat allocated c)
  | lock c => exact .carried (fun _ => rfl) nofun (lock_carries calls flat allocated c)
  | send c => exact send_cases calls flat allocated c
  | leave c => exact .carried (fun _ => rfl) nofun (leave_carries flat allocated c)
  | receive level => exact .carried (fun _ => rfl) nofun (receive_carries flat allocated level)
  | add level => exact add_cases calls flat allocated level
  | forward level => exact .carried (fun _ => rfl) nofun (forward_carries flat allocated level)
  | deliver level => exact .carried (fun _ => rfl) nofun (deliver_carries flat allocated level)
  | tick level => exact tick_cases calls flat allocated level
  | stop => exact .carried (fun _ => rfl) nofun (stop_carries flat allocated)

end

end Cases

end Chain

end Monitor.Timer
