import Monitor.Timer.Placement

/-! # The levels of a chain

A wheel hands a task on when its delay is as long as a turn, and the interval of the next wheel is
the length of that turn. So a wheel at level `i` has `interval * slotNum ^ i`, without overflow
since a delay reaches it, and a task comes to rest at the first level with a longer turn. With one
slot a turn is no longer than the interval, all levels are alike, and the task never comes to rest.
-/

namespace Monitor.Timer

open TimeWheel List Int64

theorem TimeWheel.newTimeWheel_shape {K : Type} {interval : Duration} {slotNum : Int64} {tw : TimeWheel K}
    (made : newTimeWheel K interval slotNum = some tw) :
    tw.interval = interval ∧ (tw.slotNum : Int) = slotNum.toInt := by
  unfold newTimeWheel at made
  split at made
  · rename_i valid
    cases made
    have pos := valid.2
    rw [lt_iff_toInt_lt, toInt_zero] at pos
    refine ⟨rfl, ?_⟩
    rw [TimeWheel.slotNum, length_replicate, ← Int64.toNat_toInt]
    exact Int.toNat_of_nonneg pos.le
  · cases made

theorem TimeWheel.newNextTimeWheel_shape {K : Type} {tw next : TimeWheel K} {delay : Duration}
    (far : tw.slotNum ≤ tw.delaySlots delay) (made : tw.newNextTimeWheel = some next) :
    next.interval.toInt = tw.interval.toInt * tw.slotNum ∧ next.slotNum = tw.slotNum := by
  obtain ⟨interval, slots⟩ := newTimeWheel_shape made
  rw [slotNum_toInt] at slots
  exact ⟨interval ▸ next_interval far, Int.ofNat_inj.mp slots⟩

namespace Chain

variable {K : Type}

/-- What a move adds to the wheels: nothing, or the next wheel behind the last one. -/
inductive Grown (s s' : Chain K) : Prop where
  | same (length : s'.wheels.length = s.wheels.length)
  | next {level : Nat} {tw next : TimeWheel K} {delay : Duration} (at_ : s.wheels[level]? = some tw)
      (last : s.wheels.length = level + 1) (far : tw.slotNum ≤ tw.delaySlots delay)
      (made : tw.newNextTimeWheel = some next) (length : s'.wheels.length = level + 2)
      (new : s'.wheels[level + 1]? = some next)

variable {tw : TimeWheel K} {level : Nat}

section Growth

variable {s : Chain K} (calls : CallId → Call K)

theorem send_length (s : Chain K) (c : CallId) :
    (s.send calls c).wheels.length = s.wheels.length := by
  unfold send
  split
  · split
    · refine atWheel_cases (P := fun s' => s'.wheels.length = s.wheels.length) rfl fun tw _ => ?_
      split
      · exact length_set
      · rfl
    · rfl
  · rfl

variable [DecidableEq K]

theorem lock_length (s : Chain K) (c : CallId) :
    (s.lock calls c).wheels.length = s.wheels.length := by
  unfold lock
  split
  · split
    · split
      · rfl
      · refine withLock_cases (P := fun s' => s'.wheels.length = s.wheels.length) rfl fun tw _ _ => ?_
        exact length_set
    · refine withLock_cases (P := fun s' => s'.wheels.length = s.wheels.length) rfl fun tw _ _ => ?_
      exact length_set
  · rfl

theorem add_grown (s : Chain K) (level : Nat) : Grown s (s.add level) := by
  refine withLock_cases (.same rfl) fun tw at_ _ => ?_
  split
  · split
    · exact .same rfl
    · split
      · rename_i far
        split
        · exact .same rfl
        · rename_i s' grown
          rw [grow] at grown
          split at grown
          · cases grown
            exact .same length_set
          · obtain ⟨next, made, rfl⟩ := Option.map_eq_some_iff.mp grown
            have lt := (List.getElem?_eq_some_iff.mp at_).1
            have length : s.wheels.length = level + 1 := by omega
            refine .next at_ length far made ?_ ?_
            · simp [put, length]
            · refine (getElem?_set_ne (Nat.succ_ne_self level).symm).trans ?_
              change (s.wheels ++ [next])[level + 1]? = some next
              rw [← length]
              exact getElem?_concat_length
      · exact .same length_set
  · exact .same rfl

theorem step_grown (s : Chain K) (move : Move) : Grown s (s.step calls move) := by
  cases move with
  | begin c =>
    refine .same ?_
    simp only [step, begin]
    split <;> rfl
  | lock c => exact .same (lock_length calls s c)
  | send c => exact .same (send_length calls s c)
  | leave c =>
    simp only [step, leave]
    split
    · exact .same rfl
    · exact atWheel_cases (.same rfl) fun tw _ => .same length_set
    · exact .same rfl
  | receive level =>
    refine atWheel_cases (.same rfl) fun tw _ => ?_
    split
    · exact .same length_set
    · exact .same rfl
  | add level => exact add_grown s level
  | forward level =>
    refine atWheel_cases (.same rfl) fun tw _ => ?_
    split
    · split
      · exact .same rfl
      · refine withLock_cases (.same rfl) fun next _ _ => .same ?_
        exact length_set.trans length_set
    · exact .same rfl
  | deliver level =>
    refine atWheel_cases (.same rfl) fun tw _ => ?_
    split
    · split
      · exact .same rfl
      · refine atWheel_cases (.same rfl) fun next _ => ?_
        split
        · exact .same (length_set.trans length_set)
        · exact .same rfl
    · exact .same rfl
  | tick level =>
    refine withLock_cases (.same rfl) fun tw _ _ => ?_
    split
    · exact .same length_set
    · exact .same rfl
  | stop =>
    refine atWheel_cases (.same rfl) fun tw _ => ?_
    split
    · exact .same length_set
    · exact .same rfl

theorem stepped_shape {calls : CallId → Call K} {s' : Chain K} {move : Move} (sound : s.Sound)
    (stepped : Stepped calls s move s') (at_ : s.wheels[level]? = some tw) :
    ∃ tw', s'.wheels[level]? = some tw' ∧ tw'.interval = tw.interval ∧ tw'.slotNum = tw.slotNum := by
  have put_shape : ∀ {other : Nat} {old new : TimeWheel K}, s.wheels[other]? = some old →
      new.interval = old.interval → new.slotNum = old.slotNum →
      ∃ tw', (s.wheels.set other new)[level]? = some tw' ∧ tw'.interval = tw.interval ∧
        tw'.slotNum = tw.slotNum := by
    intro other old new there interval slotNum
    by_cases same : other = level
    · subst same
      cases there.symm.trans at_
      exact ⟨new, getElem?_set_self (List.getElem?_eq_some_iff.mp at_).1, interval, slotNum⟩
    · exact ⟨tw, (getElem?_set_ne same).trans at_, rfl, rfl⟩
  cases stepped with
  | carried _ _ carries | sent _ _ _ carries =>
    obtain ⟨tw', at', stays⟩ := carries.wheels at_
    exact ⟨tw', at', stays.interval, congrArg length stays.slots⟩
  | placed places => exact put_shape places.wheel rfl (length_modify ..)
  | @ticked other old there _ =>
    have ticked := tickHandler_flat old sound.flat
    refine put_shape there ticked.interval ?_
    unfold slotNum
    rw [ticked.slots, length_set]

end Growth

variable {slotNum : Nat}

section Intervals

/-- The intervals grow by a factor of the number of slots, computed exactly. -/
def Graded (interval : Int) (slotNum : Nat) (s : Chain K) : Prop :=
  ∀ level tw, s.wheels[level]? = some tw →
    tw.interval.toInt = interval * slotNum ^ level ∧ tw.slotNum = slotNum

theorem graded_initial {interval : Duration} {slotNum : Int64}
    (made : newTimeWheel K interval slotNum = some tw) : (initial tw).Graded interval.toInt tw.slotNum := by
  intro level wheel at_
  cases level with
  | zero =>
    cases at_
    rw [(newTimeWheel_shape made).1]
    simp
  | succ level => cases at_

variable {interval : Int} {s : Chain K}

theorem Graded.far_iff (graded : s.Graded interval slotNum) (at_ : s.wheels[level]? = some tw) (delay : Duration) :
    tw.slotNum ≤ tw.delaySlots delay ↔ interval * slotNum ^ (level + 1) ≤ delay.toInt := by
  obtain ⟨sameInterval, sameSlots⟩ := graded level tw at_
  rw [tw.far_iff, sameInterval, sameSlots, pow_succ, mul_assoc]

variable [DecidableEq K] {calls : CallId → Call K}

theorem Graded.stepped (sound : s.Sound)
    (graded : s.Graded interval slotNum) (move : Move) : (s.step calls move).Graded interval slotNum := by
  have stepped : Stepped calls s move (s.step calls move) := sound.step_cases move
  have old : ∀ {level tw tw'}, s.wheels[level]? = some tw → (s.step calls move).wheels[level]? = some tw' →
      tw'.interval.toInt = interval * slotNum ^ level ∧ tw'.slotNum = slotNum := by
    intro level tw tw' was at_
    obtain ⟨tw'', at', sameInterval, sameSlots⟩ := stepped_shape sound stepped was
    cases at_.symm.trans at'
    rw [sameInterval, sameSlots]
    exact graded level tw was
  intro level tw' at_
  cases was : s.wheels[level]? with
  | some tw => exact old was at_
  | none =>
    have outside := getElem?_eq_none_iff.mp was
    have lt := (List.getElem?_eq_some_iff.mp at_).1
    cases step_grown calls s move with
    | same length => omega
    | @next below tw next delay at_below last far made length new =>
      obtain rfl : level = below + 1 := by omega
      cases new.symm.trans at_
      obtain ⟨nextInterval, nextSlots⟩ := newNextTimeWheel_shape far made
      obtain ⟨belowInterval, belowSlots⟩ := graded below tw at_below
      rw [nextInterval, nextSlots, belowInterval, belowSlots, pow_succ, mul_assoc]
      exact ⟨rfl, rfl⟩

theorem Graded.run (sound : s.Sound)
    (graded : s.Graded interval slotNum) (moves : List Move) :
    (s.run calls moves).Graded interval slotNum := by
  induction moves generalizing s with
  | nil => exact graded
  | cons move moves ih => exact ih (sound.stepped (sound.step_cases move)) (graded.stepped sound move)

end Intervals

section HandOver

/-- The moves of a call and the run loops that bring its task to a level. -/
def handedTo (c : CallId) : Nat → List Move
  | 0 => [.begin c, .lock c, .send c]
  | level + 1 => handedTo c level ++ [.receive level, .add level, .forward level, .deliver level]

/-- The last wheel of the chain, and an element of the task with its delay. -/
structure Last (s : Chain K) (level : Nat) (tw : TimeWheel K) (e : Pointer) (task : TaskElement K CallId) :
    Prop where
  length : s.wheels.length = level + 1
  wheel : s.wheels[level]? = some tw
  found : s.heap[e]? = some task

/-- The task is in the add channel of the last wheel. -/
def Arrived (s : Chain K) (level : Nat) (c : CallId) (delay : Duration) : Prop :=
  ∃ tw e task, s.Last level tw e task ∧ tw.mu = false ∧ tw.loop = .select ∧ tw.addTaskChan = [e] ∧
    task.task = c ∧ task.delay = delay

/-- `addTask` of the last wheel has the task. -/
def InHand (s : Chain K) (level : Nat) (c : CallId) (delay : Duration) : Prop :=
  ∃ tw e task, s.Last level tw e task ∧ tw.mu = false ∧ tw.loop = .received e ∧
    task.task = c ∧ task.delay = delay

/-- A slot of the wheel holds the task. -/
def InSlot (s : Chain K) (level : Nat) (c : CallId) : Prop :=
  ∃ tw e task, s.wheels[level]? = some tw ∧ e ∈ tw.placed ∧ s.heap[e]? = some task ∧ task.task = c

variable {s : Chain K} {level : Nat} {c : CallId} {delay : Duration}

variable {interval : Duration} {tw : TimeWheel K} {e : Pointer} {task : TaskElement K CallId}

theorem newTimeWheel_idle {slotNum : Int64} (made : newTimeWheel K interval slotNum = some tw) :
    tw.mu = false ∧ tw.loop = .select ∧ tw.addTaskChan = [] ∧ tw.taskMap = [] := by
  unfold newTimeWheel at made
  split at made
  · cases made
    exact ⟨rfl, rfl, rfl, rfl⟩
  · cases made

theorem Arrived.receive (arrived : s.Arrived level c delay) : (s.receive level).InHand level c delay := by
  obtain ⟨tw, e, task, ⟨length, wheel, found⟩, free, select, chan, isTask, isDelay⟩ := arrived
  have lt := (List.getElem?_eq_some_iff.mp wheel).1
  unfold Chain.receive atWheel
  rw [wheel]
  dsimp only
  split
  · rename_i e' rest _ chan'
    cases chan.symm.trans chan'
    exact ⟨_, e, task, ⟨length_set.trans length, getElem?_set_self lt, found⟩, free, rfl,
      isTask, isDelay⟩
  · rename_i other
    exact (other e [] select chan).elim

/-- The last two wheels, between two of their moves. -/
structure Between (s : Chain K) (level : Nat) (tw next : TimeWheel K) (e : Pointer)
    (task : TaskElement K CallId) : Prop where
  length : s.wheels.length = level + 2
  wheel : s.wheels[level]? = some tw
  below : s.wheels[level + 1]? = some next
  found : s.heap[e]? = some task

variable {next : TimeWheel K}

theorem Between.put (between : s.Between level tw next e task) (tw' : TimeWheel K) :
    (s.put level s.heap tw').Between level tw' next e task := by
  have lt := (List.getElem?_eq_some_iff.mp between.wheel).1
  exact ⟨length_set.trans between.length, getElem?_set_self lt,
    (getElem?_set_ne (Nat.succ_ne_self level).symm).trans between.below, between.found⟩

theorem Between.deliver
    (between : s.Between level tw next e task) (sending : tw.loop = .sending e) (free : next.mu = false)
    (select : next.loop = .select) (empty : next.addTaskChan = []) :
    (s.deliver level).Arrived (level + 1) task.task task.delay := by
  obtain ⟨length, wheel, below, found⟩ := between
  have room : next.addTaskChan.length < chanSize := by
    rw [empty]
    decide
  have lt := (List.getElem?_eq_some_iff.mp below).1
  simp only [Chain.deliver, enqueue, atWheel, wheel, sending, found, below, room, dif_pos]
  refine ⟨next.push s.heap.length room, s.heap.length, _, ⟨?_, ?_, getElem?_concat_length⟩, free, select,
    ?_, rfl, rfl⟩
  · exact length_set.trans (length_set.trans length)
  · exact (getElem?_set_ne (Nat.succ_ne_self level).symm).trans (getElem?_set_self lt)
  · simp [push, empty]

variable [DecidableEq K]

theorem InHand.add (last : s.Last level tw e task) (free : tw.mu = false) (received : tw.loop = .received e)
    (far : tw.slotNum ≤ tw.delaySlots task.delay) : ∃ next, tw.newNextTimeWheel = some next ∧
      (s.add level).Between level { tw with mu := true, loop := .forwarding e } next e task := by
  obtain ⟨next, made⟩ := Option.isSome_iff_exists.mp (newNextTimeWheel_isSome far)
  have outside : ¬ level + 1 < s.wheels.length := by
    rw [last.length]
    exact lt_irrefl _
  have grown : ({ s with wheels := s.wheels ++ [next] } : Chain K).Between level tw next e task := by
    have lt := (List.getElem?_eq_some_iff.mp last.wheel).1
    refine ⟨?_, (getElem?_append_left lt).trans last.wheel, ?_, last.found⟩
    · simp [last.length]
    · rw [← last.length]
      exact getElem?_concat_length
  refine ⟨next, made, ?_⟩
  simp only [Chain.add, withLock, atWheel, last.wheel, free, received, last.found, ge_iff_le, far, grow,
    outside, made, if_true, if_false, Option.map_some, Bool.false_eq_true]
  exact grown.put _

theorem Between.forward
    (between : s.Between level tw next e task) (forwarding : tw.loop = .forwarding e) (free : next.mu = false)
    (fresh : next.taskMap = []) :
    (s.forward level).Between level { tw with loop := .sending e } next e task := by
  obtain ⟨length, wheel, below, found⟩ := between
  have nothing : next.unmap s.heap task.key = (s.heap, next) := by
    unfold TimeWheel.unmap
    rw [fresh]
    rfl
  have same : s.put (level + 1) s.heap next = s := by
    obtain ⟨lt, rfl⟩ := List.getElem?_eq_some_iff.mp below
    exact congrArg (fun wheels => { s with wheels := wheels }) (set_getElem_self lt)
  simp only [Chain.forward, atWheel, wheel, forwarding, found, withLock, below, free, unmap, nothing, same,
    if_false, Bool.false_eq_true]
  exact Between.put ⟨length, wheel, below, found⟩ _

theorem InHand.in_slot (hand : s.InHand level c delay) (flat : Flat s.heap)
    (near : ∀ tw, s.wheels[level]? = some tw → tw.delaySlots delay < tw.slotNum) :
    (s.add level).InSlot level c := by
  obtain ⟨tw, e, task, last, free, received, rfl, rfl⟩ := hand
  have places : s.Places level tw e task := ⟨last.wheel, free, received, last.found, near tw last.wheel⟩
  obtain ⟨settled, slot, task', at_, _, inSlot, mem, found, isTask⟩ := places.waits
  rw [places.add flat]
  exact ⟨settled, e, task', at_, mem_flatten.mpr ⟨slot, mem_of_getElem? inSlot, mem⟩, found, isTask⟩

theorem InHand.hand_on (hand : s.InHand level c delay)
    (far : ∀ tw, s.wheels[level]? = some tw → tw.slotNum ≤ tw.delaySlots delay) :
    (((s.add level).forward level).deliver level).Arrived (level + 1) c delay := by
  obtain ⟨tw, e, task, last, free, received, rfl, rfl⟩ := hand
  obtain ⟨next, made, added⟩ := InHand.add last free received (far tw last.wheel)
  obtain ⟨nextFree, nextSelect, nextChan, nextMap⟩ := newTimeWheel_idle made
  exact (added.forward rfl nextFree nextMap).deliver rfl nextFree nextSelect nextChan

variable (calls : CallId → Call K) {key : K}

section

variable {slotNum : Int64} (made : newTimeWheel K interval slotNum = some tw)
include made

theorem arrived_first (call : calls c = .addTask delay key)
    (nonneg : 0 ≤ delay) : ((initial tw).run calls (handedTo c 0)).Arrived 0 c delay := by
  obtain ⟨free, select, chan, fresh⟩ := newTimeWheel_idle made
  have nothing : tw.unmap ([] : Heap K CallId) key = ([], tw) := by
    unfold TimeWheel.unmap
    rw [fresh]
    rfl
  have room : tw.addTaskChan.length < chanSize := by
    rw [chan]
    decide
  have accepted : ¬ delay < 0 := Int64.not_lt.mpr nonneg
  simp only [handedTo, run, foldl_cons, foldl_nil, step, begin, initial, goto, log, lock, send,
    enqueue, withLock, atWheel, unmap, put, Function.update_self, call, accepted, nothing, free, room, if_false,
    Bool.false_eq_true, getElem?_cons_zero, set_cons_zero, dif_pos]
  refine ⟨tw.push 0 room, 0, ⟨c, delay, key, 0, false⟩, ⟨rfl, rfl, rfl⟩, free, select, ?_, rfl, rfl⟩
  simp [push, chan]

theorem graded_run (moves : List Move) :
    ((initial tw).run calls moves).Graded interval.toInt tw.slotNum :=
  (graded_initial made).run (sound_initial made) moves

theorem arrived (call : calls c = .addTask delay key)
    (nonneg : 0 ≤ delay) (far : ∀ i < level, interval.toInt * tw.slotNum ^ (i + 1) ≤ delay.toInt) :
    ((initial tw).run calls (handedTo c level)).Arrived level c delay := by
  induction level with
  | zero => exact arrived_first calls made call nonneg
  | succ level ih =>
    have hand := (ih fun i below => far i (Nat.lt_succ_of_lt below)).receive
    have graded := graded_run calls made (handedTo c level ++ [.receive level])
    rw [run_append] at graded
    rw [handedTo, run_append]
    refine hand.hand_on fun wheel at_ => ?_
    exact (graded.far_iff at_ delay).mpr (far level (Nat.lt_succ_self level))

end

/-- The task is handed on by the wheels of the levels below some level, and placed there. -/
def Cascades (tw : TimeWheel K) (c : CallId) (delay : Duration) : Prop :=
  ∃ levels, ((initial tw).run calls (handedTo c levels ++ [.receive levels, .add levels])).InSlot levels c ∧
    ∀ (moves : List Move) (level : Nat) (wheel : TimeWheel K),
      ((initial tw).run calls moves).wheels[level]? = some wheel →
        (wheel.slotNum ≤ wheel.delaySlots delay ↔ level < levels)

/-- Where a wheel hands a task on there is a next wheel or it is made, not nil, and its interval
    is the product. -/
def NextExact (tw : TimeWheel K) (delay : Duration) : Prop :=
  ∀ (moves : List Move) (level : Nat) (wheel : TimeWheel K),
    ((initial tw).run calls moves).wheels[level]? = some wheel → wheel.slotNum ≤ wheel.delaySlots delay →
      (∃ next : TimeWheel K, wheel.newNextTimeWheel = some next ∧
        next.interval.toInt = wheel.interval.toInt * wheel.slotNum) ∧
      ∀ next : TimeWheel K, ((initial tw).run calls moves).wheels[level + 1]? = some next →
        next.interval.toInt = wheel.interval.toInt * wheel.slotNum

section

variable {slotNum : Int64} (made : newTimeWheel K interval slotNum = some tw)
include made

theorem nextExact (delay : Duration) : NextExact calls tw delay := by
  intro moves level wheel at_ far
  have graded := graded_run calls made moves
  obtain ⟨next, nextMade⟩ := Option.isSome_iff_exists.mp (newNextTimeWheel_isSome far)
  refine ⟨⟨next, nextMade, (newNextTimeWheel_shape far nextMade).1⟩, fun next next_at => ?_⟩
  obtain ⟨wheelInterval, wheelSlots⟩ := graded level wheel at_
  rw [(graded (level + 1) next next_at).1, wheelInterval, wheelSlots, pow_succ, mul_assoc]

theorem not_cascades (call : calls c = .addTask delay key)
    (one : tw.slotNum = 1) (long : interval.toInt ≤ delay.toInt) : ¬ Cascades calls tw c delay := by
  rintro ⟨levels, _, rests⟩
  have far : ∀ i, interval.toInt * tw.slotNum ^ (i + 1) ≤ delay.toInt := by
    intro i
    rw [one]
    simpa using long
  have nonneg : 0 ≤ delay := by
    have pos := tw.interval_toInt_pos
    rw [(newTimeWheel_shape made).1] at pos
    rw [le_iff_toInt_le, toInt_zero]
    omega
  obtain ⟨wheel, _, _, last, _⟩ := arrived calls made call nonneg fun i (_ : i < levels) => far i
  have still := ((graded_run calls made (handedTo c levels)).far_iff last.wheel delay).mpr (far levels)
  exact lt_irrefl levels ((rests _ levels wheel last.wheel).mp still)

theorem cascades (call : calls c = .addTask delay key)
    (nonneg : 0 ≤ delay) (ends : ∃ levels, delay.toInt < interval.toInt * tw.slotNum ^ (levels + 1)) :
    Cascades calls tw c delay := by
  have pos : 0 < interval.toInt := by
    rw [← (newTimeWheel_shape made).1]
    exact tw.interval_toInt_pos
  have far : ∀ i < Nat.find ends, interval.toInt * tw.slotNum ^ (i + 1) ≤ delay.toInt :=
    fun i below => not_lt.mp (Nat.find_min ends below)
  have hand := (arrived calls made call nonneg far).receive
  refine ⟨Nat.find ends, ?_, fun moves level wheel at_ => ?_⟩
  · have graded := graded_run calls made (handedTo c (Nat.find ends) ++ [.receive (Nat.find ends)])
    have sound : ((initial tw).run calls (handedTo c (Nat.find ends) ++ [.receive (Nat.find ends)])).Sound :=
      (sound_initial made).run _
    rw [run_append] at graded sound
    rw [run_append]
    refine hand.in_slot sound.flat fun wheel at_ => not_le.mp fun tooFar => ?_
    exact absurd ((graded.far_iff at_ delay).mp tooFar) (not_le.mpr (Nat.find_spec ends))
  · rw [(graded_run calls made moves).far_iff at_ delay]
    constructor
    · intro tooFar
      by_contra beyond
      have more : interval.toInt * tw.slotNum ^ (Nat.find ends + 1) ≤
          interval.toInt * tw.slotNum ^ (level + 1) := by
        refine Int.mul_le_mul_of_nonneg_left ?_ pos.le
        exact pow_le_pow_right₀ (by have := tw.slotNum_pos; omega) (by omega)
      exact absurd (more.trans tooFar) (not_le.mpr (Nat.find_spec ends))
    · exact far level

end

theorem turn_exceeds {interval : Int} (pos : 0 < interval) {delay : Int}
    (grows : 2 ≤ slotNum ∨ delay < interval) (some_ : 0 < slotNum) :
    ∃ levels, delay < interval * slotNum ^ (levels + 1) := by
  obtain two | short := grows
  · refine ⟨delay.toNat, ?_⟩
    have power : delay.toNat + 1 < slotNum ^ (delay.toNat + 1) := Nat.lt_pow_self two
    calc delay ≤ delay.toNat := Int.self_le_toNat delay
      _ < (slotNum : Int) ^ (delay.toNat + 1) := by
          have cast : ((delay.toNat + 1 : Nat) : Int) < ((slotNum ^ (delay.toNat + 1) : Nat) : Int) :=
            Int.ofNat_lt.mpr power
          push_cast at cast ⊢
          omega
      _ ≤ interval * slotNum ^ (delay.toNat + 1) := by
          refine le_mul_of_one_le_left ?_ pos
          positivity
  · refine ⟨0, lt_of_lt_of_le short ?_⟩
    rw [zero_add, pow_one]
    exact le_mul_of_one_le_right pos.le (by omega)

/-- The hand-over of a task ends, with exact intervals and no nil wheel on the way, exactly if the
    wheel has two slots or the task needs only the first one. -/
theorem cascade_ends_iff {interval : Duration} {slotNum : Int64} {tw : TimeWheel K} {key : K}
    (made : newTimeWheel K interval slotNum = some tw) (call : calls c = .addTask delay key)
    (nonneg : 0 ≤ delay) :
    Cascades calls tw c delay ∧ NextExact calls tw delay ↔ 2 ≤ slotNum ∨ delay < interval := by
  obtain ⟨sameInterval, slots⟩ := newTimeWheel_shape made
  have positive : 0 < interval.toInt := sameInterval ▸ tw.interval_toInt_pos
  have some_ := tw.slotNum_pos
  have two : 2 ≤ slotNum ↔ 2 ≤ tw.slotNum := by
    rw [Int64.le_iff_toInt_le, ← slots]
    exact Int.ofNat_le (m := 2)
  rw [two, Int64.lt_iff_toInt_lt]
  constructor
  · rintro ⟨ends, _⟩
    by_contra neither
    obtain ⟨few, long⟩ := not_or.mp neither
    exact not_cascades calls made call (by omega) (not_lt.mp long) ends
  · intro grows
    exact ⟨cascades calls made call nonneg (turn_exceeds positive grows some_), nextExact calls made delay⟩

end HandOver

section Scenarios

private def oneSlot : TimeWheel Unit := (newTimeWheel Unit 1 1).get (by decide +kernel)

private def threeSlots : TimeWheel Unit := (newTimeWheel Unit 1 3).get (by decide +kernel)

private def delayed (delay : Duration) : CallId → Call Unit := fun _ => .addTask delay ()

theorem cascade_ends_iff_threeSlots :
    newTimeWheel Unit 1 3 = some threeSlots ∧ delayed 20 0 = .addTask 20 () ∧ (0 : Duration) ≤ 20 ∧
      Cascades (delayed 20) threeSlots 0 20 ∧ NextExact (delayed 20) threeSlots 20 := by
  have made : newTimeWheel Unit 1 3 = some threeSlots := (Option.some_get _).symm
  exact ⟨made, rfl, by decide, (cascade_ends_iff (delayed 20) made rfl (by decide)).mpr (.inl (by decide))⟩

/-- A delay of one interval, on a wheel with one slot. -/
theorem oneSlot_never_ends :
    ¬ (Cascades (delayed 1) oneSlot 0 1 ∧ NextExact (delayed 1) oneSlot 1) := by
  have made : newTimeWheel Unit 1 1 = some oneSlot := (Option.some_get _).symm
  exact fun both => not_cascades (delayed 1) made rfl (by decide +kernel) (by decide) both.1

end Scenarios

end Chain

end Monitor.Timer
