import Monitor.LockFree.Queue

/-! # Who owns a slot

Between its compare-and-swap and its last access a thread should be the only one that
touches its slot. The queue does not enforce this: indices wrap around, and a consumer
advances the head before it reads. `CarefulStep` is what a successful compare-and-swap
has to meet, and along careful runs every slot has at most one owner (`step_inv`).
-/

namespace Monitor.LockFree

open Function

variable {ι : Type}

inductive Owner (ι : Type) where
  | free
  | writer (i : ι) (ticket : Nat)
  | ready (ticket : Nat)
  | reader (i : ι) (ticket : Nat)

def Owner.ticket : Owner ι → Option Nat
  | .free => none
  | .writer _ p | .ready p | .reader _ p => some p

def Owner.thread : Owner ι → Option ι
  | .free | .ready _ => none
  | .writer i _ | .reader i _ => some i

def Thread.fills : Thread → Option Nat
  | .writeFd _ _ n _ | .writeData _ n _ | .writeState n _ => some n
  | _ => none

def Thread.drains : Thread → Option Nat
  | .readFd n _ _ | .readData n _ _ _ | .clearState n _ _ | .clearFd n _ _ | .clearData n _ _ =>
    some n
  | _ => none

def Thread.slot (t : Thread) : Option Nat := t.fills <|> t.drains

variable {t : Thread}

theorem Thread.drains_of_fills {n : Nat} (filling : t.fills = some n) : t.drains = none := by
  cases t with
  | writeFd | writeData | writeState => rfl
  | _ => cases filling

def full (x : Int × Pointer) (p : Nat) : Connection := ⟨⟨x.1, some p⟩, ⟨x.2, some p⟩, 1⟩

/-- The stages of filling slot `n`. -/
inductive Writing (x : Int × Pointer) (n p : Nat) : Thread → Connection → Prop where
  | fd {c : Connection} (clear : c.state = 0) : Writing x n p (.writeFd x.1 x.2 n p) c
  | data {c : Connection} (clear : c.state = 0) (fd : c.fd = ⟨x.1, some p⟩) :
      Writing x n p (.writeData x.2 n p) c
  | state {c : Connection} (clear : c.state = 0) (fd : c.fd = ⟨x.1, some p⟩)
      (data : c.data = ⟨x.2, some p⟩) : Writing x n p (.writeState n p) c

/-- The stages of emptying slot `n`. -/
inductive Draining (x : Int × Pointer) (n p : Nat) : Thread → Connection → Prop where
  | fd : Draining x n p (.readFd n 1 p) (full x p)
  | data : Draining x n p (.readData n 1 p ⟨x.1, some p⟩) (full x p)
  | state : Draining x n p (.clearState n p (full x p)) (full x p)
  | clearFd {c : Connection} (clear : c.state = 0) : Draining x n p (.clearFd n p (full x p)) c
  | clearData {c : Connection} (clear : c.state = 0) : Draining x n p (.clearData n p (full x p)) c

variable {x : Int × Pointer} {c : Connection} {n p : Nat}

theorem Writing.slot
    (writing : Writing x n p t c) : t.slot = some n ∧ c.state = 0 := by
  cases writing with
  | fd clear | data clear _ | state clear _ _ => exact ⟨rfl, clear⟩

theorem Draining.slot
    (draining : Draining x n p t c) : t.slot = some n ∧ t.drains = some n := by
  cases draining with
  | fd | data | state | clearFd _ | clearData _ => exact ⟨rfl, rfl⟩

namespace Queue

def tickets (s : Queue ι) : List (Option Nat) := s.returned.map (·.fd.ticket)

/-- What a compare-and-swap that succeeds has to meet: an enqueue leaves room ahead of the current
    head and gets a slot that no dequeue still works on, and a dequeue takes a filled slot of a
    queue that is not empty. -/
def CarefulStep (s : Queue ι) (i : ι) : Choice → Prop
  | .proceed false =>
    match s.threads i with
    | .enqueueCas _ _ tail =>
      s.tail = tail → s.next s.tail ≠ s.head ∧ ∀ j, (s.threads j).drains ≠ some s.tail
    | .dequeueCas head _ =>
      s.head = head → s.head ≠ s.tail ∧ (s.connections s.head).state = 1
    | _ => True
  | _ => True

def Careful [DecidableEq ι] : Queue ι → List (ι × Choice) → Prop
  | _, [] => True
  | s, action :: actions =>
    s.CarefulStep action.1 action.2 ∧ Careful (s.step action.1 action.2) actions

instance [Fintype ι] (s : Queue ι) (i : ι) (choice : Choice) :
    Decidable (s.CarefulStep i choice) := by
  unfold CarefulStep
  split
  · split <;> infer_instance
  · infer_instance

instance decidableCareful [DecidableEq ι] [Fintype ι] :
    (s : Queue ι) → (actions : List (ι × Choice)) → Decidable (s.Careful actions)
  | _, [] => .isTrue trivial
  | s, action :: actions =>
    have := decidableCareful (s.step action.1 action.2) actions
    inferInstanceAs (Decidable (_ ∧ _))

/-- The content of a slot agrees with its owner. -/
inductive SlotOk (s : Queue ι) (n : Nat) : Owner ι → Prop where
  | free (clear : (s.connections n).state = 0) : SlotOk s n .free
  | writer {i : ι} {p : Nat} {x : Int × Pointer} (place : p % s.capacity = n) (live : s.taken ≤ p)
      (item : s.items[p]? = some x) (open_ : p ∉ s.completed)
      (stage : Writing x n p (s.threads i) (s.connections n)) : SlotOk s n (.writer i p)
  | ready {p : Nat} {x : Int × Pointer} (place : p % s.capacity = n) (live : s.taken ≤ p)
      (item : s.items[p]? = some x) (done : p ∈ s.completed)
      (content : s.connections n = full x p) : SlotOk s n (.ready p)
  | reader {i : ι} {p : Nat} {x : Int × Pointer} (place : p % s.capacity = n) (gone : p < s.taken)
      (item : s.items[p]? = some x) (done : p ∈ s.completed) (open_ : some p ∉ s.tickets)
      (stage : Draining x n p (s.threads i) (s.connections n)) : SlotOk s n (.reader i p)

/-- The indices follow the counts of the history, and every result is an item of its own. -/
structure Shape (s : Queue ι) : Prop where
  head_eq : s.head = s.taken % s.capacity
  tail_eq : s.tail = s.items.length % s.capacity
  order : s.taken ≤ s.items.length
  room : s.items.length < s.taken + s.capacity
  known : ∀ p ∈ s.completed, p < s.items.length
  sound : ∀ r ∈ s.returned, ∃ p x, p < s.taken ∧ p ∈ s.completed ∧ s.items[p]? = some x ∧ r = full x p
  once : s.tickets.Nodup

structure Inv (owner : Nat → Owner ι) (s : Queue ι) : Prop extends Shape s where
  size : 0 < s.capacity
  slot : ∀ n, s.SlotOk n (owner n)
  live : ∀ p, s.taken ≤ p → p < s.items.length → (owner (p % s.capacity)).ticket = some p
  busy : ∀ i n, (s.threads i).slot = some n → (owner n).thread = some i
  loaded : ∀ i head state, s.threads i = .dequeueCas head state → state = 1
  gone : ∀ p < s.taken, some p ∈ s.tickets ∨ ∃ i, owner (p % s.capacity) = .reader i p

theorem initial_inv {capacity : Nat} (size : 0 < capacity) :
    Inv (fun _ => .free) (initial ι capacity) where
  head_eq := (Nat.zero_mod capacity).symm
  tail_eq := (Nat.zero_mod capacity).symm
  order := Nat.le_refl 0
  room := by simpa [initial] using size
  known := fun p mem => by cases mem
  sound := fun r mem => by cases mem
  once := List.nodup_nil
  size := size
  slot := fun n => .free rfl
  live := fun p _ below => absurd below (Nat.not_lt_zero p)
  busy := fun i n impossible => by cases impossible
  loaded := fun i head state impossible => by cases impossible
  gone := fun p below => absurd below (Nat.not_lt_zero p)

theorem lfqInit_inv {capacity : Nat} {s : Queue ι} (start : lfqInit ι capacity = some s) :
    Inv (fun _ => .free) s := by
  simp only [lfqInit] at start
  split at start
  · cases start
  · cases start
    exact initial_inv (by omega)

variable {o : Owner ι} {s' : Queue ι} {t : Thread}

theorem SlotOk.thread_slot {s : Queue ι} {n : Nat} (ok : s.SlotOk n o) {i : ι}
    (mine : o.thread = some i) : (s.threads i).slot = some n := by
  cases ok with
  | free | ready => cases mine
  | writer _ _ _ _ stage =>
    cases mine
    exact stage.slot.1
  | reader _ _ _ _ _ stage =>
    cases mine
    exact stage.slot.1

/-- A step of thread `i` that concerns slot `n` and the positions that fall on it. -/
structure Local (s s' : Queue ι) (i : ι) (n : Nat) : Prop where
  capacity : s'.capacity = s.capacity
  slots : ∀ m, m ≠ n → s'.connections m = s.connections m
  threads : ∀ j, j ≠ i → s'.threads j = s.threads j
  items : s.items <+: s'.items
  claimed : ∀ p, p < s'.items.length → p % s.capacity ≠ n → p < s.items.length
  advanced : s.taken ≤ s'.taken
  taken : ∀ p, p < s'.taken → p % s.capacity ≠ n → p < s.taken
  completed : ∀ p, p % s.capacity ≠ n → (p ∈ s'.completed ↔ p ∈ s.completed)
  tickets : ∀ p, p % s.capacity ≠ n → (some p ∈ s'.tickets ↔ some p ∈ s.tickets)

theorem Local.item {s : Queue ι} {i : ι}
    (step : Local s s' i n) (item : s.items[p]? = some x) : s'.items[p]? = some x := by
  obtain ⟨more, same⟩ := step.items
  rw [← same, List.getElem?_append_left (List.getElem?_eq_some_iff.mp item).1, item]

theorem SlotOk.elsewhere {s : Queue ι} {i : ι} {n m : Nat} (ok : s.SlotOk m o)
    (step : Local s s' i n) (other : m ≠ n) (foreign : o.thread ≠ some i) : s'.SlotOk m o := by
  have content := step.slots m other
  cases ok with
  | free clear => exact .free (by rw [content, clear])
  | @writer j p x place live item open_ stage =>
    have apart : p % s.capacity ≠ n := place ▸ other
    refine .writer (by rw [step.capacity, place]) ?_ (step.item item)
      (mt (step.completed p apart).mp open_) ?_
    · exact Nat.le_of_not_lt fun below => absurd (step.taken p below apart) (Nat.not_lt_of_le live)
    · rw [content, step.threads j fun same => foreign (by rw [← same]; rfl)]
      exact stage
  | @ready p x place live item done full =>
    have apart : p % s.capacity ≠ n := place ▸ other
    refine .ready (by rw [step.capacity, place]) ?_ (step.item item)
      ((step.completed p apart).mpr done) (content.trans full)
    exact Nat.le_of_not_lt fun below => absurd (step.taken p below apart) (Nat.not_lt_of_le live)
  | @reader j p x place gone item done open_ stage =>
    have apart : p % s.capacity ≠ n := place ▸ other
    refine .reader (by rw [step.capacity, place]) (Nat.lt_of_lt_of_le gone step.advanced)
      (step.item item) ((step.completed p apart).mpr done) (mt (step.tickets p apart).mp open_) ?_
    rw [content, step.threads j fun same => foreign (by rw [← same]; rfl)]
    exact stage

/-- What a step has to say about its own slot, for the invariant to go on with owner `o`. -/
structure Handover (s s' : Queue ι) (i : ι) (n : Nat) (o : Owner ι) : Prop where
  slot : s'.SlotOk n o
  live : ∀ p, s'.taken ≤ p → p < s'.items.length → p % s.capacity = n → o.ticket = some p
  foreign : ∀ j, o.thread = some j → j = i
  busy : ∀ m, (s'.threads i).slot = some m → m = n ∧ o.thread = some i
  loaded : ∀ head state, s'.threads i = .dequeueCas head state → state = 1
  gone : ∀ p < s'.taken, p % s.capacity = n → some p ∈ s'.tickets ∨ ∃ j, o = .reader j p

theorem Inv.advance {owner : Nat → Owner ι} {s : Queue ι} (inv : Inv owner s) {i : ι} {n : Nat}
    (step : Local s s' i n) (mine : ∀ j, (owner n).thread = some j → j = i)
    (only : ∀ m, (s.threads i).slot = some m → m = n) (handover : Handover s s' i n o)
    (shape : Shape s') : Inv (update owner n o) s' := by
  have elsewhere {m : Nat} (other : m ≠ n) : update owner n o m = owner m :=
    update_of_ne other o owner
  refine ⟨shape, step.capacity ▸ inv.size, ?_, ?_, ?_, ?_, ?_⟩
  · intro m
    by_cases same : m = n
    · subst same
      rw [update_self]
      exact handover.slot
    · rw [elsewhere same]
      refine (inv.slot m).elsewhere step same fun owned => same ?_
      exact only m ((inv.slot m).thread_slot owned)
  · intro p live below
    rw [step.capacity]
    by_cases same : p % s.capacity = n
    · rw [same, update_self]
      exact handover.live p live below same
    · rw [elsewhere same]
      exact inv.live p (step.advanced.trans live) (step.claimed p below same)
  · intro j m working
    by_cases self : j = i
    · subst self
      obtain ⟨rfl, owned⟩ := handover.busy m working
      rw [update_self, owned]
    · rw [step.threads j self] at working
      have owned := inv.busy j m working
      by_cases same : m = n
      · subst same
        exact absurd (mine j owned) self
      · rw [elsewhere same, owned]
  · intro j head state at_
    by_cases self : j = i
    · subst self
      exact handover.loaded head state at_
    · rw [step.threads j self] at at_
      exact inv.loaded j head state at_
  · intro p below
    rw [step.capacity]
    by_cases same : p % s.capacity = n
    · rw [same, update_self]
      exact handover.gone p below same
    · rw [elsewhere same]
      exact (inv.gone p (step.taken p below same)).imp_left (step.tickets p same).mpr

variable {owner : Nat → Owner ι} {s : Queue ι} {i : ι} {n : Nat}

theorem Inv.writer (inv : Inv owner s) (at_ : s.threads i = t)
    (filling : t.fills = some n) : ∃ p x, owner n = .writer i p ∧ p % s.capacity = n ∧
      s.taken ≤ p ∧ s.items[p]? = some x ∧ p ∉ s.completed ∧ Writing x n p t (s.connections n) := by
  have working : (s.threads i).slot = some n := by
    rw [at_, Thread.slot, filling]
    rfl
  have ok := inv.slot n
  have owned := inv.busy i n working
  cases owner_ : owner n with
  | free | ready p =>
    rw [owner_] at owned
    cases owned
  | writer j p =>
    rw [owner_] at ok owned
    cases owned
    cases ok with
    | writer place live item open_ stage => exact ⟨p, _, rfl, place, live, item, open_, at_ ▸ stage⟩
  | reader j p =>
    rw [owner_] at ok owned
    cases owned
    cases ok with
    | reader _ _ _ _ _ stage =>
      have draining := stage.slot.2
      rw [at_, Thread.drains_of_fills filling] at draining
      cases draining

theorem Inv.reader (inv : Inv owner s) (at_ : s.threads i = t)
    (draining : t.drains = some n) : ∃ p x, owner n = .reader i p ∧ p % s.capacity = n ∧
      p < s.taken ∧ s.items[p]? = some x ∧ p ∈ s.completed ∧ some p ∉ s.tickets ∧
        Draining x n p t (s.connections n) := by
  have ok := inv.slot n
  have working : (s.threads i).slot = some n := by
    rw [at_]
    cases t <;> first | exact draining | cases draining
  have owned := inv.busy i n working
  cases owner_ : owner n with
  | free | ready p =>
    rw [owner_] at owned
    cases owned
  | reader j p =>
    rw [owner_] at ok owned
    cases owned
    cases ok with
    | reader place gone item done open_ stage =>
      exact ⟨p, _, rfl, place, gone, item, done, open_, at_ ▸ stage⟩
  | writer j p =>
    rw [owner_] at ok owned
    cases owned
    cases ok with
    | writer _ _ _ _ stage =>
      rw [at_] at stage
      cases stage <;> cases draining

theorem Inv.mine (inv : Inv owner s) (owned : (owner n).thread = some i) :
    (∀ j, (owner n).thread = some j → j = i) ∧ ∀ m, (s.threads i).slot = some m → m = n := by
  constructor
  · intro j same
    exact Option.some.inj (same.symm.trans owned)
  · intro m working
    exact Option.some.inj (working.symm.trans ((inv.slot n).thread_slot owned))

theorem Handover.work {s : Queue ι} (self : s'.threads i = t)
    (working : t.slot = some n) (owned : o.thread = some i) (slot : s'.SlotOk n o)
    (live : ∀ p, s'.taken ≤ p → p < s'.items.length → p % s.capacity = n → o.ticket = some p)
    (gone : ∀ p < s'.taken, p % s.capacity = n → some p ∈ s'.tickets ∨ ∃ j, o = .reader j p) :
    Handover s s' i n o where
  slot := slot
  live := live
  foreign j same := Option.some.inj (same.symm.trans owned)
  busy m at_ := by
    rw [self, working] at at_
    exact ⟨(Option.some.inj at_).symm, owned⟩
  loaded head state at_ := by
    rw [self] at at_
    subst at_
    cases working
  gone := gone

theorem Handover.leave {s : Queue ι} (self : s'.threads i = .idle) (slot : s'.SlotOk n o)
    (live : ∀ p, s'.taken ≤ p → p < s'.items.length → p % s.capacity = n → o.ticket = some p)
    (unowned : o.thread = none)
    (gone : ∀ p < s'.taken, p % s.capacity = n → some p ∈ s'.tickets ∨ ∃ j, o = .reader j p) :
    Handover s s' i n o where
  slot := slot
  live := live
  foreign j owned := by
    rw [unowned] at owned
    cases owned
  busy m working := by
    rw [self] at working
    cases working
  loaded head state at_ := by
    rw [self] at at_
    cases at_
  gone := gone

variable [DecidableEq ι]

theorem Local.goto (s : Queue ι) (i : ι) (n : Nat) (t : Thread) : Local s (s.goto i t) i n where
  capacity := rfl
  slots _ _ := rfl
  threads _ other := update_of_ne other _ _
  items := List.prefix_refl _
  claimed _ below _ := below
  advanced := Nat.le_refl _
  taken _ below _ := below
  completed _ _ := Iff.rfl
  tickets _ _ := Iff.rfl

theorem Local.put (s : Queue ι) (i : ι) (n : Nat) (c : Connection) (t : Thread) :
    Local s ((s.put n c).goto i t) i n :=
  { Local.goto s i n t with slots := fun _ other => update_of_ne other _ _ }

theorem Inv.quiet (inv : Inv owner s) (before : (s.threads i).slot = none)
    (after : t.slot = none) (loaded : ∀ head state, t = .dequeueCas head state → state = 1) :
    Inv owner (s.goto i t) where
  toShape := ⟨inv.head_eq, inv.tail_eq, inv.order, inv.room, inv.known, inv.sound, inv.once⟩
  size := inv.size
  slot m := by
    refine (inv.slot m).elsewhere (Local.goto s i (m + 1) t) (Nat.ne_of_lt (Nat.lt_succ_self m)) ?_
    intro owned
    rw [(inv.slot m).thread_slot owned] at before
    cases before
  live := inv.live
  busy j m working := by
    by_cases self : j = i
    · subst self
      rw [goto_self, after] at working
      cases working
    · rw [goto_other self] at working
      exact inv.busy j m working
  loaded j head state at_ := by
    by_cases self : j = i
    · subst self
      rw [goto_self] at at_
      exact loaded head state at_
    · rw [goto_other self] at at_
      exact inv.loaded j head state at_
  gone := inv.gone

theorem Inv.stage (inv : Inv owner s)
    (owned : (owner n).thread = some i) (working : t.slot = some n)
    (ok : ((s.put n c).goto i t).SlotOk n (owner n)) : Inv owner ((s.put n c).goto i t) := by
  obtain ⟨mine, only⟩ := inv.mine owned
  have after := inv.advance (Local.put s i n c t) mine only
    (.work (goto_self (s.put n c) i t) working owned ok ?_ ?_)
    ⟨inv.head_eq, inv.tail_eq, inv.order, inv.room, inv.known, inv.sound, inv.once⟩
  · rwa [update_eq_self] at after
  · rintro p live below rfl
    exact inv.live p live below
  · rintro p below rfl
    exact inv.gone p below

end Queue

end Monitor.LockFree
