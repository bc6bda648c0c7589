import Monitor.Lib.Positions
import Monitor.Lib.RingBuffer
import Monitor.LockFree.Safety

/-! # One producer and one consumer

With one thread on each side every compare-and-swap that succeeds is careful. The
producer alone moves the tail, so what it knows of the room ahead of it can only
become too small an estimate, and the consumer alone moves the head, so the slot it
has taken lies directly behind the head until it has left it. The queue is then
first-in first-out (`single_producer_fifo`).
-/

namespace Monitor.LockFree

open List Function

inductive Role where
  | producer
  | consumer
  deriving DecidableEq

/-- What the collect loop and the process loop of the agent can do next. -/
inductive Action where
  | enqueue (fd : Int) (data : Pointer)
  | produce (spurious : Bool)
  | dequeue
  | consume (spurious : Bool)
  deriving DecidableEq

def Action.toStep : Action → Role × Queue.Choice
  | .enqueue fd data => (.producer, .enqueue fd data)
  | .produce spurious => (.producer, .proceed spurious)
  | .dequeue => (.consumer, .dequeue)
  | .consume spurious => (.consumer, .proceed spurious)

def Thread.filling (t : Thread) : Nat := if t.fills.isSome then 1 else 0

def Thread.draining (t : Thread) : Nat := if t.drains.isSome then 1 else 0

def Connection.item (c : Connection) : Int × Pointer := (c.fd.value, c.data.value)

namespace Queue

/-- The items whose enqueue returned zero, in the order of the returns. -/
def succeeded {ι : Type} (s : Queue ι) : List (Int × Pointer) :=
  s.completed.filterMap fun p => s.items[p]?

/-- The slots from the head up to the tail. -/
def between {ι : Type} (s : Queue ι) : List Connection :=
  (List.range s.lfqSize).map fun k => s.connections ((s.head + k) % s.capacity)

/-- What the producer knows at each point of a call. -/
def ProducerOk (s : Queue Role) : Thread → Prop
  | .idle | .enqueueTail _ _ => True
  | .enqueueHead _ _ tail => tail = s.tail
  | .enqueueCas _ _ tail => tail = s.tail ∧ s.items.length + 1 < s.taken + s.capacity
  | .writeFd _ _ _ ticket | .writeData _ _ ticket | .writeState _ ticket =>
    ticket + 1 = s.items.length
  | _ => False

/-- What the consumer knows at each point of a call. -/
def ConsumerOk (s : Queue Role) : Thread → Prop
  | .idle | .dequeueHead => True
  | .dequeueTail head => head = s.head
  | .dequeueState head => head = s.head ∧ s.taken < s.items.length
  | .dequeueCas head _ =>
    head = s.head ∧ s.taken < s.items.length ∧ (s.connections head).state = 1
  | .readFd _ _ ticket | .readData _ _ ticket _ | .clearState _ ticket _ | .clearFd _ ticket _
  | .clearData _ ticket _ => ticket + 1 = s.taken
  | _ => False

structure Discipline (s : Queue Role) : Prop where
  produce : s.ProducerOk (s.threads .producer)
  consume : s.ConsumerOk (s.threads .consumer)
  filled : s.completed = List.range s.completed.length
  pending : s.completed.length + (s.threads .producer).filling = s.items.length
  given : s.tickets = (List.range s.returned.length).map some
  open_ : s.returned.length + (s.threads .consumer).draining = s.taken

theorem initial_discipline (capacity : Nat) : Discipline (initial Role capacity) :=
  ⟨trivial, trivial, rfl, rfl, rfl, rfl⟩

variable {s : Queue Role} {owner : Nat → Owner Role}

variable {n : Nat} {s' : Queue Role} {t : Thread}

theorem Discipline.drained (d : Discipline s) (inv : Inv owner s)
    (draining : (s.threads .consumer).drains = some n) : ∃ p, p + 1 = s.taken ∧ p % s.capacity = n := by
  obtain ⟨p, x, _, place, _, _, _, _, stage⟩ := inv.reader rfl draining
  have known := d.consume
  refine ⟨p, ?_, place⟩
  generalize s.threads .consumer = t at stage known
  generalize s.connections n = c at stage
  cases stage with
  | fd | data | state | clearFd | clearData => exact known

theorem Discipline.careful (d : Discipline s) (inv : Inv owner s) (action : Action) :
    s.CarefulStep action.toStep.1 action.toStep.2 := by
  cases action with
  | enqueue fd data | dequeue => trivial
  | produce spurious =>
    cases spurious with
    | true => trivial
    | false =>
      have known := d.produce
      simp only [Action.toStep, CarefulStep]
      split
      · rename_i fd data tail at_
        rw [at_] at known
        obtain ⟨_, room⟩ := known
        have order := inv.order
        intro _
        constructor
        · rw [next, inv.tail_eq, inv.head_eq, Nat.mod_add_mod]
          intro same
          have := eq_of_mod_eq same (by omega) (by omega)
          omega
        · intro j draining
          cases j with
          | producer =>
            rw [at_] at draining
            cases draining
          | consumer =>
            obtain ⟨p, last, place⟩ := d.drained inv draining
            rw [inv.tail_eq] at place
            have := eq_of_mod_eq place (by omega) (by omega)
            omega
      · rename_i at_
        rw [at_] at known
        exact known.elim
      · trivial
  | consume spurious =>
    cases spurious with
    | true => trivial
    | false =>
      have known := d.consume
      simp only [Action.toStep, CarefulStep]
      split
      · rename_i at_
        rw [at_] at known
        exact known.elim
      · rename_i head state at_
        rw [at_] at known
        obtain ⟨rfl, filled, set⟩ := known
        have room := inv.room
        refine fun _ => ⟨?_, set⟩
        rw [inv.head_eq, inv.tail_eq]
        intro same
        have := eq_of_mod_eq same (by omega) (by omega)
        omega
      · trivial

theorem ProducerOk.mono {s : Queue Role} (ok : s.ProducerOk t)
    (tail : s'.tail = s.tail) (items : s'.items = s.items) (capacity : s'.capacity = s.capacity)
    (taken : s.taken ≤ s'.taken) : s'.ProducerOk t := by
  cases t with
  | idle | enqueueTail _ _ => trivial
  | enqueueHead _ _ _ => exact Eq.trans ok tail.symm
  | enqueueCas _ _ _ =>
    refine ⟨ok.1.trans tail.symm, ?_⟩
    have room := ok.2
    rw [items, capacity]
    omega
  | writeFd _ _ _ _ | writeData _ _ _ | writeState _ _ => exact Eq.trans ok (by rw [items])
  | _ => exact ok

theorem ConsumerOk.mono {s : Queue Role} (ok : s.ConsumerOk t)
    (head : s'.head = s.head) (taken : s'.taken = s.taken) (items : s.items.length ≤ s'.items.length)
    (set : ∀ n, (s.connections n).state = 1 → (s'.connections n).state = 1) : s'.ConsumerOk t := by
  cases t with
  | idle | dequeueHead => trivial
  | dequeueTail _ => exact Eq.trans ok head.symm
  | dequeueState _ =>
    refine ⟨ok.1.trans head.symm, ?_⟩
    rw [taken]
    exact Nat.lt_of_lt_of_le ok.2 items
  | dequeueCas n _ =>
    refine ⟨ok.1.trans head.symm, ?_, set n ok.2.2⟩
    rw [taken]
    exact Nat.lt_of_lt_of_le ok.2.1 items
  | readFd _ _ _ | readData _ _ _ _ | clearState _ _ _ | clearFd _ _ _ | clearData _ _ _ =>
    exact Eq.trans ok taken.symm
  | _ => exact ok

theorem Discipline.produced (d : Discipline s)
    (self : s'.threads .producer = t) (other : s'.threads .consumer = s.threads .consumer)
    (head : s'.head = s.head) (taken : s'.taken = s.taken) (returned : s'.returned = s.returned)
    (items : s.items.length ≤ s'.items.length)
    (set : ∀ n, (s.connections n).state = 1 → (s'.connections n).state = 1) (ok : s'.ProducerOk t)
    (filled : s'.completed = List.range s'.completed.length)
    (pending : s'.completed.length + t.filling = s'.items.length) : Discipline s' where
  produce := by rw [self]; exact ok
  consume := by rw [other]; exact d.consume.mono head taken items set
  filled := filled
  pending := by rw [self]; exact pending
  given := by rw [tickets, returned]; exact d.given
  open_ := by rw [returned, other, taken]; exact d.open_

theorem Discipline.consumed (d : Discipline s)
    (self : s'.threads .consumer = t) (other : s'.threads .producer = s.threads .producer)
    (tail : s'.tail = s.tail) (items : s'.items = s.items) (capacity : s'.capacity = s.capacity)
    (completed : s'.completed = s.completed) (taken : s.taken ≤ s'.taken) (ok : s'.ConsumerOk t)
    (given : s'.tickets = (List.range s'.returned.length).map some)
    (open_ : s'.returned.length + t.draining = s'.taken) : Discipline s' where
  produce := by rw [other]; exact d.produce.mono tail items capacity taken
  consume := by rw [self]; exact ok
  filled := by rw [completed]; exact d.filled
  pending := by rw [completed, other, items]; exact d.pending
  given := given
  open_ := by rw [self]; exact open_

theorem Discipline.producer_goto (d : Discipline s) {c : Connection}
    (state : c.state = (s.connections n).state) (ok : s.ProducerOk t)
    (same : t.filling = (s.threads .producer).filling) : Discipline ((s.put n c).goto .producer t) := by
  refine d.produced (goto_self _ _ _) (goto_other (by decide) _ _) rfl rfl rfl (Nat.le_refl _) ?_
    (ok.mono rfl rfl rfl (Nat.le_refl _)) d.filled (by rw [same]; exact d.pending)
  intro m set
  by_cases here : m = n
  · subst here
    rw [put_self, state]
    exact set
  · simpa only [goto, put, update_of_ne here] using set

theorem Discipline.consumer_goto (d : Discipline s) {c : Connection}
    (ok : (s.put n c).ConsumerOk t) (same : t.draining = (s.threads .consumer).draining) :
    Discipline ((s.put n c).goto .consumer t) :=
  d.consumed (goto_self _ _ _) (goto_other (by decide) _ _) rfl rfl rfl rfl (Nat.le_refl _)
    (ok.mono rfl rfl (Nat.le_refl _) fun _ set => set) d.given (by rw [same]; exact d.open_)

theorem put_same (s : Queue Role) (n : Nat) : s.put n (s.connections n) = s := by
  rw [put, update_eq_self]

theorem Discipline.producer_stay (d : Discipline s) (ok : s.ProducerOk t)
    (same : t.filling = (s.threads .producer).filling) : Discipline (s.goto .producer t) := by
  have after := d.producer_goto (n := 0) (c := s.connections 0) rfl ok same
  rwa [put_same] at after

theorem Discipline.consumer_stay (d : Discipline s) (ok : s.ConsumerOk t)
    (same : t.draining = (s.threads .consumer).draining) : Discipline (s.goto .consumer t) := by
  have after := d.consumer_goto (n := 0) (c := s.connections 0) (by rwa [put_same]) same
  rwa [put_same] at after

theorem Discipline.claim (d : Discipline s) {fd : Int} {data : Pointer} {tail : Nat}
    (at_ : s.threads .producer = .enqueueCas fd data tail) :
    Discipline (s.claim .producer fd data tail) := by
  have pending := d.pending
  rw [at_] at pending
  have length : (s.claim .producer fd data tail).items.length = s.items.length + 1 :=
    length_append
  refine d.produced (goto_self _ _ _) (goto_other (by decide) _ _) rfl rfl rfl ?_
    (fun _ set => set) ?_ d.filled ?_
  · rw [length]
    exact Nat.le_succ _
  · exact length.symm
  · rw [length, ← pending]
    rfl

theorem Discipline.publish (d : Discipline s) {ticket : Nat}
    (at_ : s.threads .producer = .writeState n ticket) : Discipline (s.publish .producer n ticket) := by
  have pending : s.completed.length + 1 = s.items.length := by
    have pending := d.pending
    rwa [at_] at pending
  have last : ticket = s.completed.length := by
    have known := d.produce
    rw [at_] at known
    change ticket + 1 = s.items.length at known
    omega
  have length : (s.publish .producer n ticket).completed.length = s.completed.length + 1 :=
    length_append
  refine d.produced (goto_self _ _ _) (goto_other (by decide) _ _) rfl rfl rfl (Nat.le_refl _)
    ?_ trivial ?_ ?_
  · intro m set
    by_cases here : m = n
    · subst here
      simp only [Queue.publish, goto, put, update_self]
    · simpa only [Queue.publish, goto, put, update_of_ne here] using set
  · rw [length, range_succ, ← d.filled, ← last]
    rfl
  · rw [length]
    exact pending

theorem Discipline.take (d : Discipline s) {head state : Nat}
    (at_ : s.threads .consumer = .dequeueCas head state) :
    Discipline (s.take .consumer head state) := by
  have open_ := d.open_
  rw [at_] at open_
  refine d.consumed (goto_self _ _ _) (goto_other (by decide) _ _) rfl rfl rfl rfl (Nat.le_succ _)
    rfl d.given ?_
  change s.returned.length + 1 = s.taken + 1
  rw [← open_]
  rfl

theorem Discipline.finish (d : Discipline s) (inv : Inv owner s) {ticket : Nat} {conn : Connection}
    (at_ : s.threads .consumer = .clearData n ticket conn) : Discipline (s.finish .consumer n conn) := by
  have open_ : s.returned.length + 1 = s.taken := by
    have open_ := d.open_
    rwa [at_] at open_
  have last : ticket = s.returned.length := by
    have known := d.consume
    rw [at_] at known
    change ticket + 1 = s.taken at known
    omega
  have own : conn.fd.ticket = some ticket := by
    obtain ⟨_, _, _, _, _, _, _, _, stage⟩ := inv.reader at_ rfl
    cases stage with
    | clearData => rfl
  have length : (s.finish .consumer n conn).returned.length = s.returned.length + 1 :=
    length_append
  refine d.consumed (goto_self _ _ _) (goto_other (by decide) _ _) rfl rfl rfl rfl (Nat.le_refl _)
    trivial ?_ ?_
  · have tickets : (s.finish .consumer n conn).tickets = s.tickets ++ [conn.fd.ticket] :=
      map_append
    rw [length, range_succ, map_append, tickets, d.given, own, last]
    rfl
  · rw [length]
    exact open_

theorem Discipline.proceed_producer (d : Discipline s) (inv : Inv owner s) (spurious : Bool) :
    Discipline (s.proceed .producer spurious) := by
  have known := d.produce
  cases at_ : s.threads .producer with
  | idle =>
    simp only [proceed, at_]
    exact d
  | enqueueTail fd data =>
    simp only [proceed, at_]
    exact d.producer_stay rfl (by rw [at_]; rfl)
  | enqueueHead fd data tail =>
    rw [at_] at known
    simp only [proceed, at_]
    split
    · exact d.producer_stay trivial (by rw [at_]; rfl)
    · rename_i notFull
      refine d.producer_stay ⟨known, ?_⟩ (by rw [at_]; rfl)
      have room := inv.room
      have apart : s.items.length + 1 ≠ s.taken + s.capacity := by
        intro same
        apply notFull
        obtain rfl : tail = s.tail := known
        rw [next, inv.tail_eq, Nat.mod_add_mod, same, Nat.add_mod_right, inv.head_eq]
      omega
  | enqueueCas fd data tail =>
    simp only [proceed, at_]
    split
    · exact d.claim at_
    · exact d.producer_stay trivial (by rw [at_]; rfl)
  | writeFd fd data tail ticket =>
    rw [at_] at known
    simp only [proceed, at_]
    exact d.producer_goto rfl known (by rw [at_]; rfl)
  | writeData data tail ticket =>
    rw [at_] at known
    simp only [proceed, at_]
    exact d.producer_goto rfl known (by rw [at_]; rfl)
  | writeState tail ticket =>
    simp only [proceed, at_]
    exact d.publish at_
  | _ =>
    rw [at_] at known
    exact known.elim

theorem Discipline.proceed_consumer (d : Discipline s) (inv : Inv owner s) (spurious : Bool) :
    Discipline (s.proceed .consumer spurious) := by
  have known := d.consume
  cases at_ : s.threads .consumer with
  | idle =>
    simp only [proceed, at_]
    exact d
  | dequeueHead =>
    simp only [proceed, at_]
    exact d.consumer_stay rfl (by rw [at_]; rfl)
  | dequeueTail head =>
    rw [at_] at known
    simp only [proceed, at_]
    split
    · exact d.consumer_stay trivial (by rw [at_]; rfl)
    · rename_i notEmpty
      refine d.consumer_stay ⟨known, Nat.lt_of_le_of_ne inv.order ?_⟩ (by rw [at_]; rfl)
      intro same
      apply notEmpty
      obtain rfl : head = s.head := known
      rw [inv.head_eq, inv.tail_eq, same]
  | dequeueState head =>
    rw [at_] at known
    simp only [proceed, at_]
    split
    · rename_i set
      exact d.consumer_stay ⟨known.1, known.2, set⟩ (by rw [at_]; rfl)
    · exact d.consumer_stay trivial (by rw [at_]; rfl)
  | dequeueCas head state =>
    simp only [proceed, at_]
    split
    · exact d.take at_
    · exact d.consumer_stay trivial (by rw [at_]; rfl)
  | readFd head state ticket =>
    rw [at_] at known
    simp only [proceed, at_]
    exact d.consumer_stay known (by rw [at_]; rfl)
  | readData head state ticket fd =>
    rw [at_] at known
    simp only [proceed, at_]
    exact d.consumer_stay known (by rw [at_]; rfl)
  | clearState head ticket conn =>
    rw [at_] at known
    simp only [proceed, at_]
    exact d.consumer_goto known (by rw [at_]; rfl)
  | clearFd head ticket conn =>
    rw [at_] at known
    simp only [proceed, at_]
    exact d.consumer_goto known (by rw [at_]; rfl)
  | clearData head ticket conn =>
    simp only [proceed, at_]
    exact d.finish inv at_
  | _ =>
    rw [at_] at known
    exact known.elim

theorem Discipline.step (d : Discipline s) (inv : Inv owner s) (action : Action) :
    Discipline (s.step action.toStep.1 action.toStep.2) := by
  cases action with
  | produce spurious => exact d.proceed_producer inv spurious
  | consume spurious => exact d.proceed_consumer inv spurious
  | enqueue fd data =>
    simp only [Action.toStep, Queue.step]
    cases at_ : s.threads .producer with
    | idle =>
      simp only
      split
      · exact d
      · exact d.producer_stay trivial (by rw [at_]; rfl)
    | _ => exact d
  | dequeue =>
    simp only [Action.toStep, Queue.step]
    cases at_ : s.threads .consumer with
    | idle => exact d.consumer_stay trivial (by rw [at_]; rfl)
    | _ => exact d

theorem run_discipline (actions : List Action) : ∀ {s : Queue Role} {owner : Nat → Owner Role},
    Inv owner s → Discipline s → ∃ owner', Inv owner' (s.run (actions.map Action.toStep)) ∧
      Discipline (s.run (actions.map Action.toStep)) := by
  induction actions with
  | nil => exact fun inv d => ⟨_, inv, d⟩
  | cons action actions ih =>
    intro s owner inv d
    obtain ⟨owner', inv'⟩ := step_inv inv (d.careful inv action)
    exact ih inv' (d.step inv action)

theorem Discipline.returned_at (d : Discipline s) (inv : Inv owner s) {i : Nat} {r : Connection}
    (at_ : s.returned[i]? = some r) : ∃ x, s.items[i]? = some x ∧ i ∈ s.completed ∧ r = full x i := by
  obtain ⟨p, x, _, done, item, rfl⟩ := inv.sound r (mem_of_getElem? at_)
  have lt := (List.getElem?_eq_some_iff.mp at_).1
  have ticket : s.tickets[i]? = some (some p) := by
    rw [tickets, getElem?_map, at_]
    rfl
  rw [d.given, getElem?_map, getElem?_range lt] at ticket
  cases ticket
  exact ⟨x, item, done, rfl⟩

theorem Discipline.returned_items (d : Discipline s) (inv : Inv owner s) :
    s.returned.map Connection.item = s.items.take s.returned.length := by
  apply ext_getElem?
  intro i
  rw [getElem?_map]
  cases at_ : s.returned[i]? with
  | none =>
    rw [getElem?_take_eq_none (List.getElem?_eq_none_iff.mp at_)]
    rfl
  | some r =>
    obtain ⟨x, item, _, rfl⟩ := d.returned_at inv at_
    rw [getElem?_take_of_lt (List.getElem?_eq_some_iff.mp at_).1, item]
    rfl

theorem Discipline.succeeded_items (d : Discipline s) :
    s.succeeded = s.items.take s.completed.length := by
  rw [succeeded, d.filled, length_range]
  exact Positions.filterMap_range s.items s.completed.length

theorem Discipline.returned_le (d : Discipline s) (inv : Inv owner s) :
    s.returned.length ≤ s.completed.length := by
  rcases Nat.eq_zero_or_pos s.returned.length with none_ | some_
  · omega
  · have last : s.returned.length - 1 < s.returned.length := by omega
    obtain ⟨_, _, done, _⟩ := d.returned_at inv (getElem?_eq_getElem last)
    rw [d.filled, mem_range] at done
    omega

theorem lap_distance {a b c : Nat} (le : a ≤ b) (lap : b < a + c) :
    (if b % c ≥ a % c then b % c - a % c else c - a % c + b % c) = b - a := by
  obtain ⟨d, rfl⟩ := Nat.exists_eq_add_of_le le
  have small : a % c < c := Nat.mod_lt a (by omega)
  have slot : (a + d) % c = if a % c + d < c then a % c + d else a % c + d - c := by
    rw [← Nat.mod_add_mod, RingBuffer.add_mod_slot small (by omega)]
  rw [slot]
  split <;> split <;> omega

theorem Inv.lfqSize (inv : Inv owner s) : s.lfqSize = s.items.length - s.taken := by
  rw [Queue.lfqSize, inv.head_eq, inv.tail_eq]
  exact lap_distance inv.order inv.room

theorem Inv.idle_slot (inv : Inv owner s) (idle : ∀ i, s.threads i = .idle) {p : Nat}
    (live : s.taken ≤ p) (below : p < s.items.length) :
    ∃ x, s.items[p]? = some x ∧ s.connections (p % s.capacity) = full x p := by
  have ticket := inv.live p live below
  have ok := inv.slot (p % s.capacity)
  cases owner_ : owner (p % s.capacity) with
  | free =>
    rw [owner_] at ticket
    cases ticket
  | ready q =>
    rw [owner_] at ticket ok
    cases ticket
    cases ok with
    | ready _ _ item _ content => exact ⟨_, item, content⟩
  | writer i q | reader i q =>
    have working := ok.thread_slot (i := i) (by rw [owner_]; rfl)
    rw [idle i] at working
    cases working

theorem Inv.between_items (inv : Inv owner s) (idle : ∀ i, s.threads i = .idle) :
    s.between.map Connection.item = s.items.drop s.taken := by
  apply ext_getElem?
  intro k
  rw [between, map_map, getElem?_map, getElem?_drop, inv.lfqSize]
  by_cases lt : k < s.items.length - s.taken
  · obtain ⟨x, item, content⟩ := inv.idle_slot idle (Nat.le_add_right s.taken k) (by omega)
    rw [getElem?_range lt, item, Option.map_some, comp_apply, inv.head_eq, Nat.mod_add_mod, content]
    rfl
  · rw [getElem?_eq_none (by rw [length_range]; omega), getElem?_eq_none (by omega)]
    rfl

/-- In every interleaving of one producer and one consumer the results are a prefix of the items
    whose enqueue succeeded, in order and each exactly once, and when both are idle the rest of
    these items is what the slots from the head up to the tail hold. -/
theorem single_producer_fifo (capacity : Nat) (size : 1 ≤ capacity) (actions : List Action) :
    let s := (initial Role capacity).run (actions.map Action.toStep)
    s.returned.map Connection.item <+: s.succeeded ∧
      s.tickets = (List.range s.returned.length).map some ∧
      ((∀ i, s.threads i = .idle) →
        s.returned.map Connection.item ++ s.between.map Connection.item = s.succeeded) := by
  intro s
  obtain ⟨owner, inv, d⟩ := run_discipline actions (initial_inv size) (initial_discipline capacity)
  refine ⟨?_, d.given, fun idle => ?_⟩
  · rw [d.returned_items inv, d.succeeded_items]
    exact take_prefix_take_left (d.returned_le inv)
  · have pending := d.pending
    have open_ := d.open_
    rw [idle] at pending open_
    have all : s.completed.length = s.items.length := pending
    have given : s.returned.length = s.taken := open_
    rw [d.returned_items inv, d.succeeded_items, inv.between_items idle]
    rw [given, all, take_append_drop, take_length]

/-- Three items through two slots, the second while the first is being read. -/
def overlapping : List Action :=
  [Action.enqueue 10 100] ++ List.replicate 6 (Action.produce false) ++
    [Action.dequeue] ++ List.replicate 5 (Action.consume false) ++
    [Action.enqueue 11 101] ++ List.replicate 6 (Action.produce false) ++
    List.replicate 4 (Action.consume false) ++
    [Action.enqueue 12 102] ++ List.replicate 6 (Action.produce false)

theorem single_producer_fifo_overlapping :
    let s := (initial Role 3).run (overlapping.map Action.toStep)
    s.returned.map Connection.item = [(10, 100)] ∧
      s.returned.map Connection.item ++ s.between.map Connection.item = s.succeeded ∧
      s.succeeded = [(10, 100), (11, 101), (12, 102)] := by
  intro s
  refine ⟨by decide +kernel, (single_producer_fifo 3 (by decide) overlapping).2.2 ?_,
    by decide +kernel⟩
  intro i
  cases i <;> decide +kernel

end Queue

end Monitor.LockFree
