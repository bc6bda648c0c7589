import Monitor.Timer.Timed

/-! # How accurate a chain of time wheels is

Where a wheel places a task `k` slots ahead, the task is executed at the wheel's next tick and `k`
intervals of that wheel, to the instant. That is within a base interval of its delay exactly if the
time to the next tick and the rest of the delay, modulo the interval of that wheel, differ by no
more. On the first wheel that is always so (`FirstSoon.aligned`); on
the others nothing sees to it.
-/

namespace Monitor.Timer

open TimeWheel Runs List Int64

/-- No more than a base interval from `x`. -/
def Within (base x t : Int) : Prop := x - base ≤ t ∧ t ≤ x + base

instance (base x t : Int) : Decidable (Within base x t) := inferInstanceAs (Decidable (_ ∧ _))

variable {move : Move}

theorem Chain.ticks_of_other {K : Type} {s : Chain K} (other : ∀ level, move ≠ .tick level)
    (level : Nat) : s.ticks level move = false := by
  cases move with
  | tick level => exact absurd rfl (other level)
  | begin | lock | send | leave | receive | add | forward | deliver | stop => rfl

namespace Timed

variable {K : Type}

/-- What becomes of a task that was placed, with a condition on the time of its execution. -/
inductive Fate (s : Timed K) (c : CallId) (W : Int → Prop) : Prop where
  | waits {level : Nat} {e : Pointer} {r : Nat} {tw : TimeWheel K} {due : Int}
      (waits : s.chain.Waits level e c r) (at_ : s.chain.wheels[level]? = some tw)
      (next : s.due[level]? = some due) (holds : W (due + r * tw.interval.toInt))
  | executed {t : Int} (spent : s.chain.Spent c) (logged : (c, t) ∈ s.executed)
      (holds : ∀ t, (c, t) ∈ s.executed → W t)
  | removed (spent : s.chain.Spent c) (unlogged : ∀ t, (c, t) ∉ s.executed) (was : s.chain.WasRemoved c)

variable {tw : TimeWheel K} {task : TaskElement K CallId} {events : List TimedEvent}
  {event : TimedEvent} {e : Pointer}

section Steps

variable {calls : CallId → Call K} {s : Timed K} {c : CallId} {W : Int → Prop}

variable {level : Nat}

theorem Sound.due_of_wheel (sound : s.Sound calls)
    (at_ : s.chain.wheels[level]? = some tw) : ∃ due, s.due[level]? = some due := by
  have lt : level < s.due.length := by
    rw [sound.length]
    exact (List.getElem?_eq_some_iff.mp at_).1
  exact ⟨s.due[level], getElem?_eq_getElem lt⟩

theorem Fate.logged (sound : s.Sound calls) (fate : s.Fate c W) {t : Int}
    (mem : (c, t) ∈ s.executed) : W t := by
  cases fate with
  | waits waits _ _ _ =>
    have some_ := sound.logged c t mem
    have none := waits.executions_zero sound.chain
    omega
  | executed _ _ holds => exact holds t mem
  | removed _ unlogged _ => exact absurd mem (unlogged t)

theorem Fate.over (sound : s.Sound calls) (fate : s.Fate c W) {bound : Int} (bounded : ∀ t, W t → t ≤ bound)
    (late : bound < s.now) : (∃ t, (c, t) ∈ s.executed) ∨ s.chain.WasRemoved c := by
  cases fate with
  | @waits level e r tw due _ _ next holds =>
    have pending := sound.pending due (mem_of_getElem? next)
    have rest : 0 ≤ (r : Int) * tw.interval.toInt := by
      have pos := tw.interval_toInt_pos
      positivity
    have atMost := bounded _ holds
    omega
  | executed _ logged _ => exact .inl ⟨_, logged⟩
  | removed _ _ was => exact .inr was

theorem Fate.elapsed (fate : s.Fate c W) (d : Int) : Fate { s with now := s.now + d } c W := by
  cases fate with
  | waits waits at_ next holds => exact .waits waits at_ next holds
  | executed spent logged holds => exact .executed spent logged holds
  | removed spent unlogged was => exact .removed spent unlogged was

variable [DecidableEq K]

theorem Fate.moved (sound : s.Sound calls) (fate : s.Fate c W)
    (other : ∀ level, move ≠ .tick level) : (s.moved calls move).Fate c W := by
  have stepped := moved_cases sound move
  cases fate with
  | waits waits at_ next holds =>
    obtain ⟨tw', at', interval, _⟩ := Chain.stepped_shape sound.chain stepped at_
    refine .waits (waits.stepped stepped (Chain.ticks_of_other other _)) at' ?_ (interval ▸ holds)
    exact (getElem?_append_left (List.getElem?_eq_some_iff.mp next).1).trans next
  | executed spent logged holds => exact .executed (spent.stepped sound.chain stepped).1 logged holds
  | removed spent unlogged was =>
    exact .removed (spent.stepped sound.chain stepped).1 unlogged (was.kept stepped.kept)

theorem ticked_unlogged (sound : s.Sound calls) (handled : s.chain.ticks level (.tick level))
    (same : (s.ticked calls level).chain.executions c = s.chain.executions c) {t : Int}
    (mem : (c, t) ∈ (s.ticked calls level).executed) : (c, t) ∈ s.executed := by
  obtain ⟨tw, _, chain, _, executed⟩ := ticked_chain sound handled
  rw [executed, mem_append] at mem
  obtain old | new := mem
  · exact old
  · obtain ⟨c', due, pair⟩ := mem_map.mp new
    cases pair
    have some_ := count_pos_iff.mpr due
    rw [chain, Chain.ticked_executions, ← count_dueTasks] at same
    omega

theorem Fate.last_tick (sound : s.Sound calls) (waits : s.chain.Waits level e c 0)
    (handled : s.chain.ticks level (.tick level)) (holds : W s.now) : (s.ticked calls level).Fate c W := by
  obtain ⟨tw, at_, chain, _, executed⟩ := ticked_chain sound handled
  have none := waits.executions_zero sound.chain
  obtain ⟨spent, count⟩ := waits.last_tick sound.chain at_
  rw [← chain] at spent count
  cases marked : s.chain.marked e with
  | true =>
    rw [marked, none] at count
    refine .removed spent (fun t mem => ?_) ?_
    · have some_ := (sound.ticked handled).logged c t mem
      simp [count] at some_
    · obtain ⟨_, _, task, _, _, _, _, found, isTask⟩ := waits
      rw [chain]
      exact ⟨e, task, found, isTask, by simpa [Chain.marked, unmarked, found] using marked⟩
  | false =>
    rw [marked, none] at count
    have due : c ∈ dueTasks s.chain.heap tw.currentList := by
      rw [chain, Chain.ticked_executions, ← count_dueTasks, none] at count
      refine count_pos_iff.mp ?_
      simp at count
      omega
    refine .executed (t := s.now) spent ?_ fun t mem => ?_
    · rw [executed]
      exact mem_append_right _ (mem_map.mpr ⟨c, due, rfl⟩)
    · rw [executed, mem_append] at mem
      obtain old | new := mem
      · have some_ := sound.logged c t old
        omega
      · obtain ⟨c', _, same⟩ := mem_map.mp new
        cases same
        exact holds

theorem Fate.ticked (sound : s.Sound calls) (fate : s.Fate c W) (now : s.due[level]? = some s.now)
    (handled : s.chain.ticks level (.tick level)) : (s.ticked calls level).Fate c W := by
  obtain ⟨tw, at_, chain, dues, _⟩ := ticked_chain sound handled
  have stepped : Chain.Stepped calls s.chain (.tick level) (s.ticked calls level).chain :=
    sound.chain.step_cases (.tick level)
  cases fate with
  | @waits other e r tw' due waits at' next holds =>
    by_cases same : level = other
    · subst same
      cases at_.symm.trans at'
      cases now.symm.trans next
      cases r with
      | zero => exact Fate.last_tick sound waits handled (by simpa using holds)
      | succ r =>
        have nearer := waits.ticked sound.chain at_
        rw [← chain] at nearer
        obtain ⟨tw'', at'', interval, _⟩ := Chain.stepped_shape sound.chain stepped at_
        have next' : (s.ticked calls level).due[level]? = some (s.now + tw.interval.toInt) := by
          rw [dues, getElem?_modify_eq, now]
          rfl
        have sum : s.now + tw.interval.toInt + (r : Int) * tw''.interval.toInt =
            s.now + ((r + 1 : Nat) : Int) * tw.interval.toInt := by
          rw [interval]
          push_cast
          ring
        exact .waits nearer at'' next' (sum ▸ holds)
    · obtain ⟨tw'', at'', interval, _⟩ := Chain.stepped_shape sound.chain stepped at'
      refine .waits (waits.stepped stepped (Chain.ticks_other same)) at'' ?_ (interval ▸ holds)
      rw [dues, getElem?_modify_ne _ _ same]
      exact next
  | executed spent logged holds =>
    obtain ⟨spent', count⟩ := spent.stepped sound.chain stepped
    refine .executed spent' (mem_append_left _ logged) fun t mem => ?_
    exact holds t (ticked_unlogged sound handled count mem)
  | removed spent unlogged was =>
    obtain ⟨spent', count⟩ := spent.stepped sound.chain stepped
    refine .removed spent' (fun t mem => ?_) (was.kept stepped.kept)
    exact unlogged t (ticked_unlogged sound handled count mem)

theorem Fate.step {s' : Timed K} (sound : s.Sound calls) (fate : s.Fate c W)
    (taken : s.step calls event = some s') : s'.Fate c W := by
  cases step_cases taken with
  | elapsed => exact fate.elapsed _
  | ticked now handled => exact fate.ticked sound now handled
  | moved other => exact fate.moved sound other

theorem Fate.run {s' : Timed K} (sound : s.Sound calls) (fate : s.Fate c W)
    (run : events.foldlM (Timed.step calls) s = some s') : s'.Sound calls ∧ s'.Fate c W := by
  induction events generalizing s with
  | nil =>
    cases run
    exact ⟨sound, fate⟩
  | cons event events ih =>
    simp only [foldlM_cons, Option.bind_eq_bind, Option.bind_eq_some_iff] at run
    obtain ⟨next, first, later⟩ := run
    exact ih (sound.step first) (fate.step sound first) later

theorem Places.fate (sound : s.Sound calls) (places : s.chain.Places level tw e task) {due : Int}
    (next : s.due[level]? = some due) (holds : W (due + tw.delaySlots task.delay * tw.interval.toInt)) :
    (s.moved calls (.add level)).Fate task.task W := by
  have chain : (s.moved calls (.add level)).chain =
      s.chain.put level s.chain.heap (tw.settle s.chain.heap e task) := places.add sound.chain.flat
  have lt := (List.getElem?_eq_some_iff.mp places.wheel).1
  have waits := places.waits
  rw [← chain] at waits
  have wheel : (s.moved calls (.add level)).chain.wheels[level]? = some (tw.settle s.chain.heap e task) := by
    rw [chain]
    exact getElem?_set_self lt
  refine .waits waits wheel ?_ holds
  exact (getElem?_append_left (List.getElem?_eq_some_iff.mp next).1).trans next

end Steps

/-- A task is placed where the rest of its delay and the time to the next tick of the wheel are no
    more than a base interval apart. -/
def Aligned (base : Int) (s : Timed K) : TimedEvent → Prop
  | .move (.add level) => ∀ (tw : TimeWheel K) (e : Pointer) (task : TaskElement K CallId) (due : Int),
      s.chain.Places level tw e task → s.due[level]? = some due →
        Within base (task.delay.toInt % tw.interval.toInt) (due - s.now)
  | _ => True

/-- Every execution is within a base interval of its delay, and afterwards there is one, unless the
    task was removed or replaced. -/
def Accurate (calls : CallId → Call K) (base : Int) (s : Timed K) : Prop :=
  ∀ c t delay key, (c, t) ∈ s.added → calls c = .addTask delay key → 0 ≤ delay →
    (∀ t', (c, t') ∈ s.executed → Within base (t + delay.toInt) t') ∧
    (t + delay.toInt + base < s.now → (∃ t', (c, t') ∈ s.executed) ∨ s.chain.WasRemoved c)

theorem within_iff {delay : Duration} (nonneg : 0 ≤ delay) (base due now : Int) :
    Within base (now + delay.toInt) (due + tw.delaySlots delay * tw.interval.toInt) ↔
      Within base (delay.toInt % tw.interval.toInt) (due - now) := by
  rw [le_iff_toInt_le, toInt_zero] at nonneg
  have slots : (tw.delaySlots delay : Int) = delay.toInt / tw.interval.toInt := by
    rw [tw.delaySlots_eq, Int.tdiv_eq_ediv_of_nonneg nonneg]
    exact Int.toNat_of_nonneg (Int.ediv_nonneg nonneg tw.interval_toInt_pos.le)
  have whole := Int.mul_ediv_add_emod delay.toInt tw.interval.toInt
  rw [mul_comm] at whole
  rw [slots]
  unfold Within
  omega

theorem aligned_iff {base : Int} {s : Timed K} {level : Nat} (places : s.chain.Places level tw e task) {due : Int}
    (next : s.due[level]? = some due) : s.Aligned base (.move (.add level)) ↔
      Within base (task.delay.toInt % tw.interval.toInt) (due - s.now) := by
  constructor
  · exact fun aligned => aligned tw e task due places next
  · intro within tw' e' task' due' places' next'
    cases places.wheel.symm.trans places'.wheel
    cases places.hand.symm.trans places'.hand
    cases places.found.symm.trans places'.found
    cases next.symm.trans next'
    exact within

/-- A task that was added is on its way, or its time is within the bounds. -/
structure OnSchedule (calls : CallId → Call K) (base : Int) (s : Timed K) : Prop where
  sound : s.Sound calls
  tasks : ∀ c t delay key, (c, t) ∈ s.added → calls c = .addTask delay key → 0 ≤ delay →
    0 < s.chain.onWay c ∨ s.Fate c (Within base (t + delay.toInt))

theorem OnSchedule.accurate {calls : CallId → Call K} {base : Int} {s : Timed K} (pos : 0 < base)
    (on : s.OnSchedule calls base) : s.Accurate calls base := by
  intro c t delay key mem call nonneg
  obtain onWay | fate := on.tasks c t delay key mem call nonneg
  · have now := on.sound.prompt c t mem onWay
    rw [le_iff_toInt_le, toInt_zero] at nonneg
    refine ⟨fun t' logged => ?_, fun late => by omega⟩
    have some_ := on.sound.logged c t' logged
    have once := on.sound.chain.once c
    have parts := s.chain.load_eq c
    omega
  · exact ⟨fun t' logged => fate.logged on.sound logged,
      fun late => fate.over on.sound (fun _ within => within.2) late⟩

section Runs

variable [DecidableEq K] {calls : CallId → Call K} {base : Int}

variable {s s' : Timed K}

theorem onWay_moved (sound : s.Sound calls) (aligned : s.Aligned base (.move move))
    {c : CallId} {t : Int} {delay : Duration} {key : K} (mem : (c, t) ∈ s.added)
    (call : calls c = .addTask delay key) (nonneg : 0 ≤ delay) (onWay : 0 < s.chain.onWay c) :
    0 < (s.moved calls move).chain.onWay c ∨
      (s.moved calls move).Fate c (Within base (t + delay.toInt)) := by
  have stepped := moved_cases sound move
  generalize chain : (s.moved calls move).chain = after at stepped ⊢
  cases stepped with
  | carried _ _ carries | sent _ _ _ carries =>
    rw [carries.onWay sound.chain.allocated]
    omega
  | @placed level tw e task places =>
    by_cases isTask : task.task = c
    · right
      subst isTask
      obtain ⟨key', call'⟩ := sound.delays task (mem_of_getElem? places.found)
      cases call.symm.trans call'
      obtain ⟨due, next⟩ := sound.due_of_wheel places.wheel
      have now := sound.prompt _ t mem onWay
      refine Places.fate sound places next ?_
      rw [now, within_iff nonneg]
      exact aligned tw e task _ places next
    · have balance := places.onWay c
      rw [count_singleton, if_neg (by simpa using isTask)] at balance
      omega
  | ticked at_ _ =>
    left
    rw [Chain.onWay_afterTick sound.chain.flat at_]
    exact onWay

theorem onWay_sent (sound : s.Sound calls) {c : CallId} (sending : s.chain.phase c = .sending)
    (returned : (s.moved calls (.send c)).chain.phase c = .returned) :
    0 < (s.moved calls (.send c)).chain.onWay c := by
  have stepped := moved_cases sound (.send c)
  generalize chain : (s.moved calls (.send c)).chain = after at stepped returned ⊢
  cases stepped with
  | carried _ unsent _ =>
    cases unsent c rfl
    simp [sending] at returned
  | sent _ _ _ carries =>
    rw [carries.onWay sound.chain.allocated, map_singleton, count_singleton_self]
    omega

theorem OnSchedule.step (on : s.OnSchedule calls base)
    (aligned : s.Aligned base event) (taken : s.step calls event = some s') : s'.OnSchedule calls base := by
  have sound := on.sound
  refine ⟨sound.step taken, fun c t delay key mem call nonneg => ?_⟩
  cases step_cases taken with
  | elapsed _ still _ =>
    obtain onWay | fate := on.tasks c t delay key mem call nonneg
    · rw [Chain.onWay, still] at onWay
      cases onWay
    · exact .inr (fate.elapsed _)
  | ticked now handled =>
    refine (on.tasks c t delay key mem call nonneg).imp (fun onWay => ?_) fun fate => ?_
    · obtain ⟨tw, at_, chain, _⟩ := ticked_chain sound handled
      rw [chain, Chain.onWay_afterTick sound.chain.flat at_]
      exact onWay
    · exact fate.ticked sound now handled
  | moved other =>
    obtain old | ⟨_, rfl, sending, returned⟩ := mem_moved_added mem
    · obtain onWay | fate := on.tasks c t delay key old call nonneg
      · exact onWay_moved sound aligned old call nonneg onWay
      · exact .inr (fate.moved sound other)
    · exact .inl (onWay_sent sound sending returned)

theorem executed_at (sound : s.Sound calls) {level : Nat} (places : s.chain.Places level tw e task) {due : Int}
    (next : s.due[level]? = some due) {after : List TimedEvent}
    (run : (TimedEvent.move (.add level) :: after).foldlM (step calls) s = some s') {t : Int}
    (logged : (task.task, t) ∈ s'.executed) : t = due + tw.delaySlots task.delay * tw.interval.toInt := by
  have fate : (s.moved calls (.add level)).Fate task.task
      (· = due + tw.delaySlots task.delay * tw.interval.toInt) := Places.fate sound places next rfl
  simp only [foldlM_cons, Option.bind_eq_bind, Option.bind_eq_some_iff] at run
  obtain ⟨placed, taken, later⟩ := run
  cases taken
  have soundPlaced : (s.moved calls (.add level)).Sound calls := sound.moved fun _ tick => by cases tick
  obtain ⟨sound', fate'⟩ := fate.run soundPlaced later
  exact fate'.logged sound' logged

theorem sound_reached {interval : Duration} {slotNum : Int64} {first : TimeWheel K}
    (made : newTimeWheel K interval slotNum = some first)
    (reached : events.foldlM (step calls) (start first) = some s) : s.Sound calls := by
  have all : Throughout (step calls) (Sound calls) (start first) events :=
    throughout_of_kept (Sound calls) (fun _ sound => sound) (fun _ _ _ sound taken => sound.step taken) events
      (sound_start made)
  exact all.last reached

/-- The first wheel ticks within a base interval. -/
def FirstSoon (base : Int) (s : Timed K) : Prop :=
  ∃ (tw : TimeWheel K) (due : Int), s.chain.wheels[0]? = some tw ∧ tw.interval.toInt = base ∧
    s.due[0]? = some due ∧ due ≤ s.now + base

theorem FirstSoon.step (sound : s.Sound calls) (soon : s.FirstSoon base)
    (taken : s.step calls event = some s') : s'.FirstSoon base := by
  obtain ⟨tw, due, at_, interval, next, bound⟩ := soon
  cases step_cases taken with
  | elapsed pos _ _ =>
    refine ⟨tw, due, at_, interval, next, bound.trans ?_⟩
    change s.now + base ≤ s.now + _ + base
    omega
  | @ticked level now handled =>
    have stepped : Chain.Stepped calls s.chain (.tick level) (s.ticked calls level).chain :=
      sound.chain.step_cases (.tick level)
    obtain ⟨tw', at', sameInterval, _⟩ := Chain.stepped_shape sound.chain stepped at_
    obtain ⟨ticking, here, _, dues, _⟩ := ticked_chain sound handled
    by_cases first : level = 0
    · subst first
      cases at_.symm.trans here
      refine ⟨tw', s.now + base, at', sameInterval ▸ interval, ?_, le_refl _⟩
      rw [dues, getElem?_modify_eq, now, interval]
      rfl
    · refine ⟨tw', due, at', sameInterval ▸ interval, ?_, bound⟩
      rw [dues, getElem?_modify_ne _ _ first]
      exact next
  | moved =>
    obtain ⟨tw', at', sameInterval, _⟩ := Chain.stepped_shape sound.chain (moved_cases sound _) at_
    refine ⟨tw', due, at', sameInterval ▸ interval, ?_, bound⟩
    exact (getElem?_append_left (List.getElem?_eq_some_iff.mp next).1).trans next

/-- Every task that the event places, it places on the first wheel. -/
def FirstOnly (s : Timed K) (event : TimedEvent) : Prop :=
  ∀ level tw e task, event = .move (.add level) → s.chain.Places level tw e task → level = 0

omit [DecidableEq K] in
theorem FirstSoon.aligned (sound : s.Sound calls) (soon : s.FirstSoon base) (only : s.FirstOnly event) :
    s.Aligned base event := by
  obtain ⟨tw, due, at_, interval, next, bound⟩ := soon
  unfold Aligned
  split
  · intro tw' e task due' places next'
    obtain rfl := only _ _ _ _ rfl places
    cases at_.symm.trans places.wheel
    cases next.symm.trans next'
    have pending := sound.pending due (mem_of_getElem? next)
    have pos := tw.interval_toInt_pos
    have low := Int.emod_nonneg task.delay.toInt (ne_of_gt pos)
    have high := Int.emod_lt_of_pos task.delay.toInt pos
    unfold Within
    omega
  · trivial

/-- Where every task is placed in time with its wheel, every task is executed within a base interval
    of its delay, and a task that is executed is so only where it was placed like that. -/
theorem accurate_iff_aligned (calls : CallId → Call K) {interval : Duration} {slotNum : Int64}
    {first : TimeWheel K}
    (made : newTimeWheel K interval slotNum = some first) :
    (∀ events : List TimedEvent,
      EachStep (step calls) (Aligned interval.toInt) (start first) events →
        Throughout (step calls) (Accurate calls interval.toInt) (start first) events) ∧
    ∀ (before after : List TimedEvent) (s s' : Timed K) (level : Nat) (tw : TimeWheel K) (e : Pointer)
      (task : TaskElement K CallId) (t t' : Int), before.foldlM (step calls) (start first) = some s →
      s.chain.Places level tw e task → 0 ≤ task.delay → (task.task, t) ∈ s.added →
      (TimedEvent.move (.add level) :: after).foldlM (step calls) s = some s' →
      (task.task, t') ∈ s'.executed →
        (Within interval.toInt (t + task.delay.toInt) t' ↔
          s.Aligned interval.toInt (.move (.add level))) := by
  have positive : 0 < interval.toInt := (newTimeWheel_shape made).1 ▸ first.interval_toInt_pos
  constructor
  · intro events
    refine throughout_of_each (OnSchedule calls interval.toInt)
      (fun s on => on.accurate positive) ?_ events ?_
    · exact fun s event s' on aligned taken => on.step aligned taken
    · exact ⟨sound_start made, nofun⟩
  · intro before after s s' level tw e task t t' reached places nonneg member run logged
    have sound := sound_reached made reached
    obtain ⟨due, next⟩ := sound.due_of_wheel places.wheel
    have onWay : 0 < s.chain.onWay task.task := by
      have balance := places.onWay task.task
      rw [count_singleton_self] at balance
      omega
    rw [sound.prompt _ t member onWay, executed_at sound places next run logged, within_iff nonneg,
      aligned_iff places next]

/-- On the clock of `Timed.step`, where time passes only while no task is on its way to a slot, every tick is
    handled when it is due and the wheel is not stopped: as long as no task goes beyond the first wheel,
    every task is executed within a base interval of its delay, in whatever order the calls, the ticks and
    the run loop take their steps. -/
theorem accurate_of_firstOnly (calls : CallId → Call K) {interval : Duration} {slotNum : Int64}
    {first : TimeWheel K} (made : newTimeWheel K interval slotNum = some first) {events : List TimedEvent}
    (only : EachStep (step calls) FirstOnly (start first) events) :
    Throughout (step calls) (Accurate calls interval.toInt) (start first) events := by
  have same := congrArg Int64.toInt (newTimeWheel_shape made).1
  have pos : 0 < interval.toInt := same ▸ first.interval_toInt_pos
  refine throughout_of_each (fun s => s.OnSchedule calls interval.toInt ∧ s.FirstSoon interval.toInt)
    (fun s both => both.1.accurate pos) ?_ events ?_ only
  · intro s event s' both only taken
    exact ⟨both.1.step (both.2.aligned both.1.sound only) taken, both.2.step both.1.sound taken⟩
  · refine ⟨⟨sound_start made, fun _ _ _ _ mem => absurd mem not_mem_nil⟩, first, _, rfl, same, rfl, ?_⟩
    simp [start, same]

end Runs

section Scenarios

private theorem twoTicks_made : (newTimeWheel Unit 1 2).isSome := by decide +kernel

private def twoTicks : TimeWheel Unit := (newTimeWheel Unit 1 2).get twoTicks_made

/-- The first task goes to a second wheel, whose first tick comes after one turn and whose second tick
    executes it. -/
private def onSecondWheel : List TimedEvent :=
  [.move (.begin 0), .move (.lock 0), .move (.send 0), .move (.receive 0), .move (.add 0), .move (.forward 0),
    .move (.deliver 0), .move (.receive 1), .move (.add 1), .elapse 1, .move (.tick 0), .elapse 1,
    .move (.tick 0), .move (.tick 1), .elapse 1, .move (.tick 0), .elapse 1, .move (.tick 0), .move (.tick 1)]

/-- A test that is enough: no task at all would be placed too early or too late. -/
private def allInTime (s : Timed Unit) : TimedEvent → Bool
  | .move (.add level) => s.chain.wheels[level]?.all fun tw => s.due[level]?.all fun due =>
      s.chain.heap.all fun task => Within 1 (task.delay.toInt % tw.interval.toInt) (due - s.now)
  | _ => true

private theorem aligned_of_allInTime {s : Timed Unit} {event : TimedEvent} (test : allInTime s event = true) :
    s.Aligned 1 event := by
  unfold Aligned
  split
  · intro tw e task due places next
    simp only [allInTime, places.wheel, next, Option.all_some, List.all_eq_true, decide_eq_true_eq] at test
    exact test task (mem_of_getElem? places.found)
  · trivial

/-- A delay of three intervals takes four. -/
theorem accurate_iff_aligned_onSecondWheel :
    EachStep (step fun _ => .addTask 3 ()) (Aligned 1) (start twoTicks) onSecondWheel ∧
      Throughout (step fun _ => .addTask 3 ()) (Accurate (fun _ => .addTask 3 ()) 1) (start twoTicks)
        onSecondWheel ∧
      (onSecondWheel.foldlM (step fun _ => .addTask 3 ()) (start twoTicks)).any
        ((0, 4) ∈ ·.executed) = true := by
  have aligned : EachStep (step fun _ => .addTask 3 ()) (Aligned 1) (start twoTicks) onSecondWheel :=
    eachStep_of_each (fun _ => True) (fun _ _ _ _ test _ => ⟨aligned_of_allInTime test, trivial⟩) _ trivial
      (by decide +kernel)
  exact ⟨aligned, (accurate_iff_aligned _ (Option.some_get twoTicks_made).symm).1 _ aligned, by decide +kernel⟩

theorem accurate_of_firstOnly_twoTicks :
    Throughout (step fun _ => .addTask 1 ()) (Accurate (fun _ => .addTask 1 ()) 1) (start twoTicks)
      [.move (.begin 0), .move (.lock 0), .move (.send 0), .move (.receive 0), .move (.add 0), .elapse 1,
        .move (.tick 0), .elapse 1, .move (.tick 0)] := by
  refine accurate_of_firstOnly _ (Option.some_get twoTicks_made).symm (eachStep_of_forall ?_)
  intro event mem s level tw e task placing _
  subst placing
  simpa using mem

/-- A delay of two intervals takes four. -/
theorem lateByTwo_inaccurate :
    ¬ Throughout (step fun _ => .addTask 2 ()) (Accurate (fun _ => .addTask 2 ()) 1) (start twoTicks)
      onSecondWheel := by
  have run : (onSecondWheel.foldlM (step fun _ => .addTask 2 ()) (start twoTicks)).any fun s =>
      (0, 0) ∈ s.added && (0, 4) ∈ s.executed := by decide +kernel
  obtain ⟨s, reached, both⟩ := (Option.any_eq_true ..).mp run
  simp only [Bool.and_eq_true, decide_eq_true_eq] at both
  refine not_throughout reached fun accurate => ?_
  obtain ⟨_, latest⟩ := (accurate 0 0 2 () both.1 rfl (by decide)).1 4 both.2
  exact absurd latest (by decide)

end Scenarios

end Timed

end Monitor.Timer
