import Monitor.Timer.Chain

/-! # The tasks of a chain of time wheels

A task is alive while its element is on its way to a slot, or in a slot and not marked.
The locked section of a call marks at most one element (`Marked.alive_iff`), a send adds
one, the run loops move elements on or copy them to the next wheel, and a tick executes
only tasks that were alive.
-/

namespace Monitor.Timer

open List Option TimeWheel

variable {K T : Type}

/-- The tasks that `addTask` has not placed yet. -/
def TimeWheel.traveling (tw : TimeWheel K) : List Pointer := tw.addTaskChan ++ tw.loop.hand

def TimeWheel.placed (tw : TimeWheel K) : List Pointer := tw.slots.flatten

structure Ages (heap heap' : Heap K T) : Prop where
  length : heap'.length = heap.length
  element : ∀ (e : Pointer) (task' : TaskElement K T), heap'[e]? = some task' →
    ∃ task : TaskElement K T, heap[e]? = some task ∧ task'.task = task.task ∧
      (task'.removed = false → task.removed = false)

variable {heap : Heap K T} {e : Pointer} {task : TaskElement K T}

namespace Ages

theorem refl (heap : Heap K T) : Ages heap heap :=
  ⟨rfl, fun _ task' at_ => ⟨task', at_, rfl, id⟩⟩

theorem trans {heap heap' heap'' : Heap K T} (first : Ages heap heap') (second : Ages heap' heap'') :
    Ages heap heap'' := by
  refine ⟨second.length.trans first.length, fun e task'' at_ => ?_⟩
  obtain ⟨task', at', same', marked'⟩ := second.element e task'' at_
  obtain ⟨task, was, same, marked⟩ := first.element e task' at'
  exact ⟨task, was, same'.trans same, fun kept => marked (marked' kept)⟩

theorem set_circle
    (at_ : heap[e]? = some task) (circle : Nat) :
    Ages heap (heap.set e { task with circle := circle }) := by
  refine ⟨length_set, fun e' task' at' => ?_⟩
  by_cases same : e = e'
  · subst same
    rw [getElem?_set_self (List.getElem?_eq_some_iff.mp at_).1] at at'
    obtain rfl := some_inj.mp at'
    exact ⟨task, at_, rfl, id⟩
  · rw [getElem?_set_ne same] at at'
    exact ⟨task', at', rfl, id⟩

theorem mark (heap : Heap K T) (e : Pointer) :
    Ages heap (heap.modify e fun task => { task with removed := true }) := by
  refine ⟨length_modify _ heap e, fun e' task' at' => ?_⟩
  rw [getElem?_modify] at at'
  obtain ⟨task, was, rfl⟩ := map_eq_some_iff.mp at'
  refine ⟨task, was, ?_, ?_⟩ <;> split
  · rfl
  · rfl
  · exact nofun
  · exact id

end Ages

theorem newTimeWheel_empty {interval : Duration} {slotNum : Int64} {tw : TimeWheel K}
    (made : newTimeWheel K interval slotNum = some tw) :
    tw.traveling = [] ∧ tw.placed = [] := by
  rw [newTimeWheel] at made
  split at made
  · obtain rfl := some_inj.mp made
    exact ⟨rfl, by simp [placed]⟩
  · cases made

/-- What the section of a call marks. -/
def markFound (heap : Heap K T) : Option Pointer → Heap K T
  | none => heap
  | some e => heap.modify e fun task => { task with removed := true }

theorem markFound_ages (heap : Heap K T) (found : Option Pointer) : Ages heap (markFound heap found) := by
  cases found with
  | none => exact .refl heap
  | some e => exact .mark heap e

theorem markFound_get
    (at_ : heap[e]? = some task) (found : Option Pointer) :
    (markFound heap found)[e]? = some { task with removed := task.removed || found = some e } := by
  cases found with
  | none => simp [markFound, at_]
  | some e' =>
    rw [markFound, getElem?_modify, at_]
    by_cases same : e' = e <;> simp [same]

section Wheel

variable [DecidableEq K]

theorem TimeWheel.unmap_heap (tw : TimeWheel K) (heap : Heap K T) (key : K) :
    (tw.unmap heap key).1 = markFound heap (GoMap.get key tw.taskMap) := by
  rw [unmap]
  split <;> simp only [*, markFound]

theorem TimeWheel.unmap_wheel (tw : TimeWheel K) (heap : Heap K T) (key : K) :
    (tw.unmap heap key).2.traveling = tw.traveling ∧ (tw.unmap heap key).2.placed = tw.placed := by
  rw [unmap]
  split <;> exact ⟨rfl, rfl⟩

/-- What the loop of `tickHandler` has done after some elements of the slot. -/
structure Ticked (heap : Heap K T) (visited : List Pointer) (tick : TimeWheel.Tick K T) : Prop where
  ages : Ages heap tick.heap
  kept : ∀ e ∈ tick.currentList, e ∈ visited
  executed : ∀ a ∈ tick.executed, ∃ e ∈ visited, ∃ task : TaskElement K T, heap[e]? = some task ∧
    task.task = a ∧ task.removed = false

theorem Ticked.visit {visited : List Pointer} {tick : TimeWheel.Tick K T}
    (ticked : Ticked heap visited tick) (e : Pointer) : Ticked heap (visited ++ [e]) (tick.visit e) := by
  obtain ⟨ages, kept, executed⟩ := ticked
  have kept' : ∀ e' ∈ tick.currentList, e' ∈ visited ++ [e] := fun e' mem =>
    mem_append_left _ (kept e' mem)
  have executed' : ∀ a ∈ tick.executed, ∃ e' ∈ visited ++ [e], ∃ task : TaskElement K T,
      heap[e']? = some task ∧ task.task = a ∧ task.removed = false := by
    intro a mem
    obtain ⟨e', visit, rest⟩ := executed a mem
    exact ⟨e', mem_append_left _ visit, rest⟩
  rw [TimeWheel.Tick.visit]
  cases at_ : tick.heap[e]? with
  | none => exact ⟨ages, kept', executed'⟩
  | some task =>
    dsimp only
    split
    · exact ⟨ages, kept', executed'⟩
    · rename_i unmarked
      split
      · refine ⟨ages.trans (.set_circle at_ _), fun e' mem => ?_, executed'⟩
        rw [mem_append, mem_singleton] at mem
        obtain old | rfl := mem
        · exact kept' e' old
        · exact mem_append_right _ mem_cons_self
      · refine ⟨ages, kept', fun a mem => ?_⟩
        rw [mem_append, mem_singleton] at mem
        obtain old | rfl := mem
        · exact executed' a old
        · obtain ⟨was, at_was, same, kept⟩ := ages.element e task at_
          exact ⟨e, mem_append_right _ mem_cons_self, was, at_was, same.symm,
            kept (by simpa using unmarked)⟩

theorem ticked_foldl (heap : Heap K T) (taskMap : List (K × Pointer)) (es : List Pointer) :
    Ticked heap es (es.foldl TimeWheel.Tick.visit ⟨heap, taskMap, [], []⟩) := by
  induction es using reverseRecOn with
  | nil => exact ⟨.refl heap, by simp, by simp⟩
  | append_singleton es e ih =>
    rw [foldl_append]
    exact ih.visit e

end Wheel

namespace Chain

def traveling (s : Chain K) : List Pointer := s.wheels.flatMap TimeWheel.traveling

def placed (s : Chain K) : List Pointer := s.wheels.flatMap TimeWheel.placed

/-- A task that a tick may still execute, here or on a later wheel. -/
def Alive (s : Chain K) (a : CallId) : Prop :=
  ∃ (e : Pointer) (task : TaskElement K CallId), s.heap[e]? = some task ∧ task.task = a ∧
    (e ∈ s.traveling ∨ e ∈ s.placed ∧ task.removed = false)

def Allocated (s : Chain K) : Prop :=
  ∀ e, e ∈ s.traveling ∨ e ∈ s.placed → e < s.heap.length

/-- Elements are moved on, placed, marked or dropped. -/
structure Moved (s s' : Chain K) : Prop where
  traveling : ∀ e ∈ s'.traveling, e ∈ s.traveling
  placed : ∀ e ∈ s'.placed, e ∈ s.placed ∨ e ∈ s.traveling
  ages : Ages s.heap s'.heap

variable {tw : TimeWheel K} {f : TimeWheel K → List Pointer} {wheels : List (TimeWheel K)}

theorem mem_flatMap_set {level : Nat} (held : e ∈ (wheels.set level tw).flatMap f) :
    e ∈ wheels.flatMap f ∨ e ∈ f tw := by
  obtain ⟨other, wheel, lt⟩ := mem_flatMap.mp held
  obtain old | rfl := mem_or_eq_of_mem_set wheel
  · exact .inl (mem_flatMap.mpr ⟨other, old, lt⟩)
  · exact .inr lt

namespace Moved

variable {s s' s'' : Chain K}

theorem refl (s : Chain K) : Moved s s := ⟨fun _ => id, fun _ => .inl, .refl s.heap⟩

theorem trans (first : Moved s s') (second : Moved s' s'') : Moved s s'' := by
  refine ⟨fun e mem => first.traveling e (second.traveling e mem), fun e mem => ?_,
    first.ages.trans second.ages⟩
  obtain placed | traveling := second.placed e mem
  · exact first.placed e placed
  · exact .inr (first.traveling e traveling)

theorem alive (moved : Moved s s') {a : CallId} (alive : s'.Alive a) : s.Alive a := by
  obtain ⟨e, task', at_, rfl, held⟩ := alive
  obtain ⟨task, was, same, kept⟩ := moved.ages.element e task' at_
  refine ⟨e, task, was, same.symm, ?_⟩
  obtain traveling | ⟨placed, unmarked⟩ := held
  · exact .inl (moved.traveling e traveling)
  · obtain placed | traveling := moved.placed e placed
    · exact .inr ⟨placed, kept unmarked⟩
    · exact .inl traveling

theorem allocated (moved : Moved s s') (allocated : s.Allocated) : s'.Allocated := by
  intro e held
  rw [moved.ages.length]
  obtain traveling | placed := held
  · exact allocated e (.inl (moved.traveling e traveling))
  · exact allocated e (moved.placed e placed).symm

theorem put {level : Nat} {tw tw' : TimeWheel K} {heap : Heap K CallId}
    (at_ : s.wheels[level]? = some tw) (ages : Ages s.heap heap)
    (traveling : ∀ e ∈ tw'.traveling, e ∈ tw.traveling)
    (placed : ∀ e ∈ tw'.placed, e ∈ tw.placed ∨ e ∈ tw.traveling) : Moved s (s.put level heap tw') := by
  have mem := mem_of_getElem? at_
  refine ⟨fun e held => ?_, fun e held => ?_, ages⟩
  · obtain old | lt := mem_flatMap_set held
    · exact old
    · exact mem_flatMap.mpr ⟨tw, mem, traveling e lt⟩
  · obtain old | lt := mem_flatMap_set held
    · exact .inl old
    · obtain lt | lt := placed e lt
      · exact .inl (mem_flatMap.mpr ⟨tw, mem, lt⟩)
      · exact .inr (mem_flatMap.mpr ⟨tw, mem, lt⟩)

/-- The run loop lets go of what it has in hand. -/
theorem drop {level : Nat} {mu : Bool} {loop : Loop} (at_ : s.wheels[level]? = some tw) (hand : loop.hand = []) :
    Moved s (s.put level s.heap { tw with mu, loop }) := by
  refine .put at_ (.refl s.heap) (fun e held => ?_) fun e => .inl
  simp only [TimeWheel.traveling, hand, append_nil] at held
  exact mem_append_left _ held

end Moved

variable {s : Chain K} {level : Nat} {P : Chain K → Prop}

theorem atWheel_cases {f : TimeWheel K → Chain K} (waits : P s)
    (goes : ∀ tw, s.wheels[level]? = some tw → P (f tw)) : P (s.atWheel level f) := by
  rw [atWheel]
  split
  · exact waits
  · exact goes _ (by assumption)

theorem withLock_cases {f : TimeWheel K → Chain K} (waits : P s)
    (goes : ∀ tw, s.wheels[level]? = some tw → tw.mu = false → P (f tw)) : P (s.withLock level f) :=
  atWheel_cases waits fun tw at_ => by
    cases free : tw.mu with
    | true => exact waits
    | false => exact goes tw at_ free

theorem enqueue_cases {task : TaskElement K CallId} {f : Chain K → Chain K}
    (allocated : s.Allocated) (waits : P s)
    (goes : ∀ s', s'.phase = s.phase → s'.history = s.history → s'.Allocated →
      (∀ a, s'.Alive a → s.Alive a ∨ a = task.task) →
      (∀ other, other ≠ level → s'.wheels[other]? = s.wheels[other]?) → P (f s')) :
    P (s.enqueue level task f) := by
  refine atWheel_cases waits fun tw at_ => ?_
  split
  · rename_i room
    have mem := mem_of_getElem? at_
    have traveling : ∀ e ∈ (s.put level (s.heap ++ [task]) (tw.push s.heap.length room)).traveling,
        e ∈ s.traveling ∨ e = s.heap.length := by
      intro e held
      obtain old | lt := mem_flatMap_set held
      · exact .inl old
      · simp only [TimeWheel.traveling, TimeWheel.push, mem_append, mem_singleton] at lt
        obtain (lt | new) | lt := lt
        · exact .inl (mem_flatMap.mpr ⟨tw, mem, mem_append_left _ lt⟩)
        · exact .inr new
        · exact .inl (mem_flatMap.mpr ⟨tw, mem, mem_append_right _ lt⟩)
    have placed : ∀ e ∈ (s.put level (s.heap ++ [task]) (tw.push s.heap.length room)).placed,
        e ∈ s.placed := by
      intro e held
      obtain old | lt := mem_flatMap_set held
      · exact old
      · exact mem_flatMap.mpr ⟨tw, mem, lt⟩
    refine goes _ rfl rfl (fun e held => ?_) ?_ fun other ne => getElem?_set_ne (Ne.symm ne)
    · change e < (s.heap ++ [task]).length
      rw [length_append, length_singleton]
      obtain held | held := held
      · obtain old | rfl := traveling e held
        · exact Nat.lt_succ_of_lt (allocated e (.inl old))
        · exact Nat.lt_succ_self _
      · exact Nat.lt_succ_of_lt (allocated e (.inr (placed e held)))
    · rintro a ⟨e, task', at', rfl, held⟩
      change (s.heap ++ [task])[e]? = some task' at at'
      by_cases new : e = s.heap.length
      · rw [new, getElem?_concat_length] at at'
        obtain rfl := Option.some_inj.mp at'
        exact .inr rfl
      · have old : e ∈ s.traveling ∨ e ∈ s.placed ∧ task'.removed = false := by
          obtain held | ⟨held, unmarked⟩ := held
          · exact .inl ((traveling e held).resolve_right new)
          · exact .inr ⟨placed e held, unmarked⟩
        have bound : e < s.heap.length := allocated e (old.imp id (·.1))
        rw [getElem?_append_left bound] at at'
        exact .inl ⟨e, task', at', rfl, old⟩
  · exact waits

/-- A locked section of a call marks what it finds. -/
structure Marked (s s' : Chain K) (found : Option Pointer) : Prop where
  traveling : s'.traveling = s.traveling
  placed : s'.placed = s.placed
  heap : s'.heap = markFound s.heap found

theorem flatMap_set_same {tw' : TimeWheel K} (at_ : wheels[level]? = some tw) (same : f tw' = f tw) :
    (wheels.set level tw').flatMap f = wheels.flatMap f := by
  obtain ⟨bound, rfl⟩ := List.getElem?_eq_some_iff.mp at_
  have lt : level < (wheels.map f).length := by rwa [length_map]
  rw [flatMap_def, flatMap_def, map_set, same, ← getElem_map f (h := lt)]
  exact congrArg flatten (set_getElem_self lt)

namespace Marked

variable {s' : Chain K} {found : Option Pointer}

theorem goto (marked : Marked s s' found) (c : CallId) (p : Phase) : Marked s (s'.goto c p) found :=
  ⟨marked.traveling, marked.placed, marked.heap⟩

theorem moved (marked : Marked s s' found) : Moved s s' := by
  obtain ⟨traveling, placed, heap⟩ := marked
  refine ⟨fun e held => traveling ▸ held, fun e held => .inl (placed ▸ held), ?_⟩
  rw [heap]
  exact markFound_ages s.heap found

theorem alive_iff (marked : Marked s s' found) (a : CallId) :
    s'.Alive a ↔ ∃ (e : Pointer) (task : TaskElement K CallId), s.heap[e]? = some task ∧
      task.task = a ∧ (e ∈ s.traveling ∨ e ∈ s.placed ∧ task.removed = false ∧ found ≠ some e) := by
  obtain ⟨traveling, placed, heap⟩ := marked
  constructor
  · rintro ⟨e, task', at_, rfl, held⟩
    rw [heap] at at_
    obtain ⟨task, was, same, _⟩ := (markFound_ages s.heap found).element e task' at_
    rw [markFound_get was] at at_
    obtain rfl := some_inj.mp at_
    refine ⟨e, task, was, rfl, ?_⟩
    rw [traveling, placed] at held
    simpa using held
  · rintro ⟨e, task, was, rfl, held⟩
    have now := markFound_get was found
    rw [← heap] at now
    refine ⟨e, _, now, rfl, ?_⟩
    rw [traveling, placed]
    simpa using held

end Marked

structure Quiet (s s' : Chain K) : Prop where
  phase : s'.phase = s.phase
  history : s'.history = s.history
  alive : ∀ a, s'.Alive a → s.Alive a
  allocated : s'.Allocated

theorem Moved.quiet {s' : Chain K} (moved : Moved s s') (allocated : s.Allocated)
    (phase : s'.phase = s.phase) (history : s'.history = s.history) : Quiet s s' :=
  ⟨phase, history, fun _ => moved.alive, moved.allocated allocated⟩

theorem quiet_refl (allocated : s.Allocated) : Quiet s s :=
  (Moved.refl s).quiet allocated rfl rfl

theorem receive_quiet (allocated : s.Allocated) (level : Nat) : Quiet s (s.receive level) := by
  refine atWheel_cases (quiet_refl allocated) fun tw at_ => ?_
  split
  · rename_i e rest select chan
    refine Moved.quiet (.put at_ (.refl s.heap) (fun e' held => ?_) fun e' => .inl) allocated rfl rfl
    simp only [TimeWheel.traveling, Loop.hand, mem_append, mem_singleton] at held
    simp only [TimeWheel.traveling, chan, mem_append, mem_cons]
    obtain held | rfl := held
    · exact .inl (.inr held)
    · exact .inl (.inl rfl)
  · exact quiet_refl allocated

theorem stop_quiet (allocated : s.Allocated) : Quiet s s.stop := by
  refine atWheel_cases (quiet_refl allocated) fun tw at_ => ?_
  split
  · exact Moved.quiet (.drop at_ rfl) allocated rfl rfl
  · exact quiet_refl allocated

theorem deliver_quiet (allocated : s.Allocated) (level : Nat) : Quiet s (s.deliver level) := by
  refine atWheel_cases (quiet_refl allocated) fun tw at_ => ?_
  split
  · rename_i e sending
    split
    · exact quiet_refl allocated
    · rename_i task found
      have inHand : e ∈ s.traveling := by
        refine mem_flatMap.mpr ⟨tw, mem_of_getElem? at_, mem_append_right _ ?_⟩
        rw [sending]
        exact mem_cons_self
      refine enqueue_cases allocated (quiet_refl allocated)
        fun s' phase history allocated' alive' same => ?_
      have still := (same level (Nat.succ_ne_self level).symm).trans at_
      have moved : Moved s' (s'.put level s'.heap { tw with mu := false, loop := .select }) :=
        .drop still rfl
      refine ⟨phase, history, fun a alive => ?_, moved.allocated allocated'⟩
      obtain alive | rfl := alive' a (moved.alive alive)
      · exact alive
      · -- the copy is the task in the hands of the run loop
        exact ⟨e, task, found, rfl, .inl inHand⟩
  · exact quiet_refl allocated

theorem grow_moved {s' : Chain K} (grown : s.grow level tw = some s') :
    Moved s s' ∧ s'.phase = s.phase ∧ s'.history = s.history ∧
      ∀ tw', s.wheels[level]? = some tw' → s'.wheels[level]? = some tw' := by
  rw [grow] at grown
  split at grown
  · obtain rfl := some_inj.mp grown
    exact ⟨.refl s, rfl, rfl, fun _ => id⟩
  · obtain ⟨next, made, rfl⟩ := map_eq_some_iff.mp grown
    obtain ⟨noTravel, noPlace⟩ := newTimeWheel_empty made
    refine ⟨⟨fun e held => ?_, fun e held => ?_, .refl s.heap⟩, rfl, rfl, fun tw' at_ => ?_⟩
    · simpa [traveling, noTravel] using held
    · simpa [placed, noPlace] using Or.inl held
    · exact (getElem?_append_left (List.getElem?_eq_some_iff.mp at_).1).trans at_

theorem mem_flatten_modify {slots : List (List Pointer)} {pos : Nat} {e e' : Pointer}
    (mem : e' ∈ (slots.modify pos (· ++ [e])).flatten) : e' ∈ slots.flatten ∨ e' = e := by
  obtain ⟨slot, lt, held⟩ := mem_flatten.mp mem
  obtain ⟨n, at_⟩ := getElem?_of_mem lt
  rw [getElem?_modify] at at_
  obtain ⟨old, was, rfl⟩ := map_eq_some_iff.mp at_
  have old_mem (held : e' ∈ old) : e' ∈ slots.flatten :=
    mem_flatten.mpr ⟨old, mem_of_getElem? was, held⟩
  split at held
  · rw [mem_append, mem_singleton] at held
    exact held.imp old_mem id
  · exact .inl (old_mem held)

variable [DecidableEq K]

theorem unmap_marked (at_ : s.wheels[level]? = some tw) (tw' : TimeWheel K)
    (traveling : tw'.traveling = tw.traveling) (placed : tw'.placed = tw.placed) (key : K) :
    Marked s (s.unmap level tw' key) (GoMap.get key tw'.taskMap) := by
  obtain ⟨traveling', placed'⟩ := tw'.unmap_wheel s.heap key
  exact ⟨flatMap_set_same at_ (traveling'.trans traveling), flatMap_set_same at_ (placed'.trans placed),
    tw'.unmap_heap s.heap key⟩

theorem add_quiet (allocated : s.Allocated) (level : Nat) : Quiet s (s.add level) := by
  refine withLock_cases (quiet_refl allocated) fun tw at_ _ => ?_
  split
  · rename_i e received
    have hand : tw.traveling = tw.addTaskChan ++ [e] := by
      rw [TimeWheel.traveling, received]
      rfl
    split
    · exact quiet_refl allocated
    · rename_i task found
      split
      · split
        · exact quiet_refl allocated
        · rename_i s' grown
          obtain ⟨moved, phase, history, same⟩ := grow_moved grown
          have held : Moved s' (s'.put level s'.heap { tw with mu := true, loop := .forwarding e }) := by
            refine .put (same tw at_) (.refl s'.heap) (fun e' held => ?_) fun e' => .inl
            rwa [hand]
          exact (moved.trans held).quiet allocated phase history
      · refine Moved.quiet (.put at_ (.set_circle found _) (fun e' held => ?_)
          fun e' held => ?_) allocated rfl rfl
        · simp only [TimeWheel.traveling, Loop.hand, append_nil] at held
          exact mem_append_left _ held
        · obtain old | rfl := mem_flatten_modify held
          · exact .inl old
          · right
            rw [hand]
            exact mem_append_right _ mem_cons_self
  · exact quiet_refl allocated

theorem forward_quiet (allocated : s.Allocated) (level : Nat) : Quiet s (s.forward level) := by
  refine atWheel_cases (quiet_refl allocated) fun tw at_ => ?_
  split
  · rename_i e forwarding
    split
    · exact quiet_refl allocated
    · rename_i task found
      refine withLock_cases (quiet_refl allocated) fun next next_at _ => ?_
      let s' := s.unmap (level + 1) next task.key
      have still : s'.wheels[level]? = some tw :=
        (getElem?_set_ne (Nat.succ_ne_self level)).trans at_
      have moved : Moved s' (s'.put level s'.heap { tw with loop := .sending e }) := by
        refine .put still (.refl s'.heap) (fun e' held => ?_) fun e' => .inl
        rwa [TimeWheel.traveling, forwarding]
      exact ((unmap_marked next_at next rfl rfl task.key).moved.trans moved).quiet allocated rfl rfl
  · exact quiet_refl allocated

theorem tickHandler_moved (at_ : s.wheels[level]? = some tw) :
    Moved s (s.put level (tw.tickHandler s.heap).1 (tw.tickHandler s.heap).2.1) ∧
      ∀ a ∈ (tw.tickHandler s.heap).2.2, s.Alive a := by
  have current : tw.slots.get ⟨tw.currentPos, tw.currentPos_lt⟩ ∈ tw.slots := getElem_mem _
  obtain ⟨ages, kept, executed⟩ :=
    ticked_foldl s.heap tw.taskMap (tw.slots.get ⟨tw.currentPos, tw.currentPos_lt⟩)
  refine ⟨.put at_ ages (fun e => id) fun e held => .inl ?_, fun a mem => ?_⟩
  · obtain ⟨slot, lt, held⟩ := mem_flatten.mp held
    obtain old | rfl := mem_or_eq_of_mem_set lt
    · exact mem_flatten.mpr ⟨slot, old, held⟩
    · exact mem_flatten.mpr ⟨_, current, kept e held⟩
  · obtain ⟨e, visited, task, found, rfl, unmarked⟩ := executed a mem
    refine ⟨e, task, found, rfl, .inr ⟨?_, unmarked⟩⟩
    exact mem_flatMap.mpr ⟨tw, mem_of_getElem? at_, mem_flatten.mpr ⟨_, current, visited⟩⟩

end Chain

end Monitor.Timer
